import Patchbay.Proofs.Config.Building
import Patchbay.Proofs.Engine.Conservation
import Patchbay.Proofs.Names.Seats
import Patchbay.Proofs.Queue
import Patchbay.Proofs.Symbol

/-!
# Names are found by their texts

A text becomes a symbol when something is registered under it, and a symbol holds only so many bytes.
Links and stores are looked up by the symbol of a text, so each text finds what was registered under it.
Receivers and the names that the host listens to are looked up by the text itself. That comes to the
same as long as the symbol holds the whole text (`Symbol.Holds`); of a longer text only the beginning was
registered, and the text is not found again (`Engine.found_iff_holds`).
-/

namespace Patchbay

/-! ## The registry -/

/-- The name that a role is played under. -/
def Registration.name : Registration → Symbol
  | .emitter _ name | .collector _ name | .receiver name | .owner _ name _ | .accessor _ name => name

namespace Names

variable {n : Names} {text : String}

/-- The units that access the store in a slot, in the order of their registration. -/
def accessors (n : Names) (slot : Nat) : List UnitId :=
  ((n.stores.get? slot).map Store.accessors).getD []

/-- That a text leads to a unit in its role, at the slot that the unit was given a handle to. -/
def Finds (n : Names) (text : String) (unit : UnitId) (handle : Option Handle) :
    Registration → Prop
  | .emitter family _ =>
    ∃ slot, n.link? family text = some slot ∧ handle = some (.link slot) ∧ unit ∈ n.emitters slot
  | .collector family _ =>
    ∃ slot, n.link? family text = some slot ∧ handle = some (.link slot) ∧ unit ∈ n.collectors slot
  | .owner kind _ _ =>
    ∃ slot, n.store? kind text = some slot ∧ handle = some (.store slot) ∧ unit ∈ n.owners slot
  | .accessor kind _ =>
    ∃ slot, n.store? kind text = some slot ∧ handle = some (.store slot) ∧ unit ∈ n.accessors slot
  | .receiver _ => handle = none ∧ unit ∈ n.receivers text

theorem isExternal_iff : n.isExternal text = true ↔
    Symbol.Holds text ∧ Symbol.ofString text ∈ n.externals := by
  unfold isExternal
  rw [List.any_eq_true]
  simp only [decide_eq_true_iff, Symbol.text_eq_iff]
  constructor
  · intro h
    obtain ⟨s, hs, hholds, rfl⟩ := h
    exact ⟨hholds, hs⟩
  · intro h
    exact ⟨_, h.2, h.1, rfl⟩

theorem isExternal_registerExternal (n : Names) (text : String) :
    (n.registerExternal text).isExternal text = true ↔ Symbol.Holds text := by
  have hmem : Symbol.ofString text ∈ (n.registerExternal text).externals := by
    unfold registerExternal
    split
    · next h => exact h
    · exact List.mem_append_right _ List.mem_cons_self
  rw [isExternal_iff]
  exact and_iff_left hmem

theorem isExternal_unregisterExternal (n : Names) (text : String) :
    (n.unregisterExternal text).isExternal text = false := by
  simp [isExternal, unregisterExternal]

/-- A text leads to those who are listed under its symbol, unless something was cut off. -/
theorem receivers_eq (n : Names) (text : String) : n.receivers text =
    if Symbol.Holds text then n.seated (.receiver (.ofString text)) else [] := by
  unfold receivers
  split
  · next h => simp [Symbol.text_eq_iff, h, seated]
  · next h =>
    have hnone : n.receiverLists.find? (·.1.text = text) = none := by
      simp [Symbol.text_eq_iff, h]
    rw [hnone]
    rfl

theorem collectors_of_slot {family : LinkFamily} {name : Symbol} {slot : Nat}
    (h : n.slot? (.collector family name) = some (.link slot)) (hn : n.Sound) :
    n.collectors slot = n.seated (.collector family name) := by
  obtain ⟨s, hs, hhandle⟩ := Option.map_eq_some_iff.1 h
  cases hhandle
  obtain ⟨l, hl⟩ := Option.isSome_iff_exists.1 (hn.links.isSome_of_find? hs)
  simp [collectors, seated, linkOf, hn.links.lookup_eq hs, hl]

theorem accessors_of_slot {kind : StoreKind} {name : Symbol} {slot : Nat}
    (h : n.slot? (.accessor kind name) = some (.store slot)) (hn : n.Sound) :
    n.accessors slot = n.seated (.accessor kind name) := by
  obtain ⟨s, hs, hhandle⟩ := Option.map_eq_some_iff.1 h
  cases hhandle
  obtain ⟨l, hl⟩ := Option.isSome_iff_exists.1 (hn.stores.isSome_of_find? hs)
  simp [accessors, seated, storeOf, hn.stores.lookup_eq hs, hl]

/-- Somebody at a link has a handle to it, and the text leads to the same link. -/
theorem exists_link {family : LinkFamily} {unit : UnitId}
    (h : unit ∈ n.seated (.emitter family (.ofString text)) ∨
      unit ∈ n.seated (.collector family (.ofString text))) :
    ∃ slot, n.link? family text = some slot ∧
      n.slot? (.collector family (.ofString text)) = some (.link slot) := by
  have hused := link_isSome (h.imp List.ne_nil_of_mem List.ne_nil_of_mem)
  obtain ⟨slot, hslot⟩ := Option.isSome_iff_exists.1 hused
  refine ⟨slot, hslot, ?_⟩
  rw [slot?, hslot]
  rfl

/-- Somebody at a store has a handle to it, and the text leads to the same store. -/
theorem exists_store {kind : StoreKind} {unit : UnitId}
    (h : unit ∈ n.seated (.owner kind (.ofString text)) ∨
      unit ∈ n.seated (.accessor kind (.ofString text))) :
    ∃ slot, n.store? kind text = some slot ∧
      n.slot? (.accessor kind (.ofString text)) = some (.store slot) := by
  have hused := store_isSome (h.imp List.ne_nil_of_mem List.ne_nil_of_mem)
  obtain ⟨slot, hslot⟩ := Option.isSome_iff_exists.1 hused
  refine ⟨slot, hslot, ?_⟩
  rw [slot?, hslot]
  rfl

/-- A unit that is listed in a role is found by the text of the role's name; if it is a receiver, only
as long as nothing was cut off. -/
theorem finds_iff_of_seated (hn : n.Sound) {unit : UnitId} {role : Registration}
    (hname : role.name = .ofString text) (h : unit ∈ n.seated role.seat) :
    n.Finds text unit (n.slot? role.seat) role ↔
      ((∃ name, role = .receiver name) → Symbol.Holds text) := by
  cases role with
  | receiver name =>
    -- the only role that is looked up by the text itself
    obtain rfl : name = .ofString text := hname
    show none = none ∧ unit ∈ n.receivers text ↔ _
    rw [receivers_eq]
    split
    · next hholds => exact iff_of_true ⟨rfl, h⟩ fun _ => hholds
    · next hcut =>
      refine iff_of_false (fun hmem => List.not_mem_nil hmem.2) fun hall => hcut (hall ⟨_, rfl⟩)
  | emitter family name =>
    obtain rfl : name = .ofString text := hname
    apply iff_of_true _ (by simp)
    obtain ⟨slot, hslot, hhandle⟩ := exists_link (.inl h)
    exact ⟨slot, hslot, hhandle, (emitters_of_slot hhandle hn).symm ▸ h⟩
  | collector family name =>
    obtain rfl : name = .ofString text := hname
    apply iff_of_true _ (by simp)
    obtain ⟨slot, hslot, hhandle⟩ := exists_link (.inr h)
    exact ⟨slot, hslot, hhandle, (collectors_of_slot hhandle hn).symm ▸ h⟩
  | owner kind name length =>
    obtain rfl : name = .ofString text := hname
    apply iff_of_true _ (by simp)
    obtain ⟨slot, hslot, hhandle⟩ := exists_store (.inl h)
    exact ⟨slot, hslot, hhandle, (owners_of_slot hhandle hn).symm ▸ h⟩
  | accessor kind name =>
    obtain rfl : name = .ofString text := hname
    apply iff_of_true _ (by simp)
    obtain ⟨slot, hslot, hhandle⟩ := exists_store (.inr h)
    exact ⟨slot, hslot, hhandle, (accessors_of_slot hhandle hn).symm ▸ h⟩

/-- Registering a unit in a role lists it, and so it is found. -/
theorem finds_iff {n' : Names} (hn : n.Sound) {unit : UnitId} {role : Registration}
    {handle : Option Handle} (hname : role.name = .ofString text)
    (h : n.register unit role = .ok (handle, n')) :
    n'.Finds text unit handle role ↔ ((∃ name, role = .receiver name) → Symbol.Holds text) := by
  obtain ⟨hn', hslot, hseated, -⟩ := register_eq hn h
  have hlisted : unit ∈ n'.seated role.seat := by
    rw [hseated, if_pos rfl]
    exact List.mem_append_right _ List.mem_cons_self
  rw [← hslot]
  exact finds_iff_of_seated hn' hname hlisted

/-- A receiver is always registered. By its text it is found itself, or nobody is. -/
theorem exists_register_receiver (hn : n.Sound) (unit : UnitId) (text : String) :
    ∃ n', n.register unit (.receiver (.ofString text)) = .ok (none, n') ∧
      (unit ∈ n'.receivers text ↔ Symbol.Holds text) ∧
      (n'.receivers text = [] ↔ ¬ Symbol.Holds text) := by
  obtain ⟨n', h⟩ : ∃ n', n.register unit (.receiver (.ofString text)) = .ok (none, n') := ⟨_, rfl⟩
  refine ⟨n', h, ?_⟩
  have hfinds := finds_iff hn rfl h
  have hfound : unit ∈ n'.receivers text ↔ Symbol.Holds text := by
    constructor
    · intro h
      exact hfinds.1 ⟨rfl, h⟩ ⟨_, rfl⟩
    · intro h
      exact (hfinds.2 fun _ => h).2
  -- a list that is cut off from its text is not found for anybody
  refine ⟨hfound, fun hnone hholds => ?_, fun hcut => ?_⟩
  · have hmem := hfound.2 hholds
    rw [hnone] at hmem
    exact List.not_mem_nil hmem
  · rw [receivers_eq, if_neg hcut]

end Names

/-! ## Messages for a name -/

namespace Queue

/-- The events that a message becomes for the first outlets of units. -/
def addressed (q : Queue) (units : List UnitId) (message : Message) : List Event :=
  units.mapIdx fun k unit => ⟨⟨q.nextId + k⟩, unit, 0, due message⟩

theorem foldl_insert_perm (q : Queue) (units : List UnitId) (message : Message) :
    (units.foldl (fun q unit => (q.insert unit 0 message).2) q).events.Perm
      (q.addressed units message ++ q.events) := by
  induction units generalizing q with
  | nil => exact .refl _
  | cons unit units ih =>
    have hrest : (q.insert unit 0 message).2.addressed units message =
        units.mapIdx fun k unit => ⟨⟨q.nextId + (k + 1)⟩, unit, 0, due message⟩ := by
      unfold addressed
      apply congrArg (List.mapIdx · units)
      funext k unit
      show (⟨⟨q.nextId + 1 + k⟩, _, _, _⟩ : Event) = _
      rw [Nat.add_assoc, Nat.add_comm 1]
    rw [List.foldl_cons]
    apply (ih _).trans
    rw [hrest, addressed, List.mapIdx_cons]
    apply ((q.insert_perm unit 0 message).append_left _).trans
    exact List.perm_middle

end Queue

namespace Engine

variable {U : Type} {e : Engine U} {text : String}

/-- The engine with another registry. -/
def withNames (e : Engine U) (names : Names) : Engine U := { e with graph := { e.graph with names } }

/-- That a message for a text becomes an event for a unit. -/
def Queues (e : Engine U) (text : String) (message : Message) (unit : UnitId) : Prop :=
  ∃ count e' fresh, sendTo text message e = .ok count e' ∧
    e'.queue.events.Perm (fresh ++ e.queue.events) ∧
    ∃ event ∈ fresh, event.target = unit ∧ event.outlet = 0 ∧ event.message = Queue.due message

theorem sendTo_eq (text : String) (message : Message) (e : Engine U) :
    ∃ e', sendTo text message e = .ok (e.graph.names.receivers text).length e' ∧
      e'.queue = (e.graph.names.receivers text).foldl (fun q unit => (q.insert unit 0 message).2)
        e.queue := by
  refine ⟨_, rfl, ?_⟩
  split
  · rfl
  · rfl

/-- A message for a text becomes an event for each of its receivers, and for nobody else. -/
theorem queues_iff {message : Message} {unit : UnitId} :
    e.Queues text message unit ↔ unit ∈ e.graph.names.receivers text := by
  obtain ⟨e', hsent, hqueue⟩ := sendTo_eq text message e
  have hperm := Queue.foldl_insert_perm e.queue (e.graph.names.receivers text) message
  rw [← hqueue] at hperm
  constructor
  · intro h
    obtain ⟨_, _, fresh, hsent', hperm', event, hevent, rfl, -⟩ := h
    rw [hsent] at hsent'
    cases hsent'
    -- the queue before is the same, so the fresh events are the same in both accounts
    have hsame := (List.perm_append_right_iff _).1 (hperm.symm.trans hperm')
    obtain ⟨k, hk, rfl⟩ := List.mem_mapIdx.1 (hsame.mem_iff.2 hevent)
    exact List.getElem_mem hk
  · intro h
    obtain ⟨k, hk, rfl⟩ := List.getElem_of_mem h
    exact ⟨_, e', _, hsent, hperm, _, List.mem_mapIdx.2 ⟨k, hk, rfl⟩, rfl, rfl, rfl⟩

end Engine

namespace Building

/-- That an event of a patch is refused since its receiver is unknown. -/
def Refuses (c : Construction) (event : EventEntry) : Prop :=
  ∃ c', (addEvent event).run.run c = .ok (.error (.unknownReceiver event.receiver), c')

/-- An event with a time is refused exactly if there is nobody to receive it. -/
theorem refuses_iff {c : Construction} {event : EventEntry} (htime : event.time.isFinite = true) :
    Refuses c event ↔ c.engine.graph.names.receivers event.receiver = [] := by
  obtain ⟨e, hsent, -⟩ :=
    Engine.sendTo_eq event.receiver (.parse event.time event.message) c.engine
  unfold Refuses addEvent
  simp only [htime, Bool.not_true, Bool.false_eq_true, if_false, run_get_bind, List.isEmpty_iff]
  split
  · next hnone => exact iff_of_true ⟨c, rfl⟩ hnone
  · next hsome =>
    refine iff_of_false (fun h => ?_) hsome
    obtain ⟨c', h⟩ := h
    have hrun := run_change_bind (fun _ => .unknownReceiver event.receiver) hsent
      (fun _ => pure PUnit.unit)
    cases hrun.symm.trans h

end Building

/-! ## What is registered is found -/

namespace Engine

/-- Whatever is registered at a link or a store is found by the text that it was registered with. A name
for the host to listen to is found, and given up, by its text exactly if the symbol of the text holds all
of it, and so is a receiver, by messages from the host and by the events of a patch. -/
theorem found_iff_holds {e : Engine CatalogueUnit} (hn : e.graph.names.Sound) (text : String) :
    (∃ new heard e₁ e₂, registerExternal text e = .ok new e₁ ∧
      unregisterExternal text e₁ = .ok heard e₂ ∧
      (e₁.graph.names.isExternal text = true ↔ Symbol.Holds text) ∧
      (heard = true ↔ Symbol.Holds text) ∧ e₂.graph.names.isExternal text = false) ∧
    (∀ unit role handle names, role.name = .ofString text →
      e.graph.names.register unit role = .ok (handle, names) →
      (names.Finds text unit handle role ↔
        ((∃ name, role = .receiver name) → Symbol.Holds text))) ∧
    ∀ unit, ∃ names, e.graph.names.register unit (.receiver (.ofString text)) = .ok (none, names) ∧
      (∀ message, (e.withNames names).Queues text message unit ↔ Symbol.Holds text) ∧
      ∀ declared time message, time.isFinite = true →
        (Building.Refuses ⟨e.withNames names, declared⟩ ⟨time, text, message⟩ ↔
          ¬ Symbol.Holds text) := by
  have hheard := e.graph.names.isExternal_registerExternal text
  refine ⟨⟨_, _, _, _, rfl, rfl, hheard, hheard, Names.isExternal_unregisterExternal _ text⟩,
    fun unit role handle names hname h => Names.finds_iff hn hname h, fun unit => ?_⟩
  obtain ⟨names, hregister, hfound, hnobody⟩ := Names.exists_register_receiver hn unit text
  refine ⟨names, hregister, fun message => queues_iff.trans hfound, ?_⟩
  intro declared time message htime
  rw [Building.refuses_iff]
  · exact hnobody
  · exact htime

/-- At a new engine a short name is given to the host and taken back, a delay line is found under it, and
so is a receiver. -/
theorem found_iff_holds_tempo : ∃ e : Engine CatalogueUnit, Engine.new smallBlocks = .ok e ∧
    (∃ new e₁ e₂, registerExternal "tempo" e = .ok new e₁ ∧
      e₁.graph.names.isExternal "tempo" = true ∧
      unregisterExternal "tempo" e₁ = .ok true e₂ ∧ e₂.graph.names.isExternal "tempo" = false) ∧
    (∃ names, e.graph.names.register ⟨0⟩ (.owner .delayLine (.ofString "tempo") 8) =
        .ok (some (.store 0), names) ∧
      names.Finds "tempo" ⟨0⟩ (some (.store 0)) (.owner .delayLine (.ofString "tempo") 8)) ∧
    ∃ names, e.graph.names.register ⟨0⟩ (.receiver (.ofString "tempo")) = .ok (none, names) ∧
      (e.withNames names).Queues "tempo" (.bang 0) ⟨0⟩ ∧
      ¬ Building.Refuses ⟨e.withNames names, []⟩ ⟨0, "tempo", "bang"⟩ := by
  let e : Engine CatalogueUnit := { settings := smallBlocks, graph := .empty 8 }
  have hholds : Symbol.Holds "tempo" := by decide
  obtain ⟨⟨new, heard, e₁, e₂, hnew, hgone, hexternal, hheard, hsilent⟩, hfinds, hreceives⟩ :=
    found_iff_holds (e := e) (Names.sound_fresh 8) "tempo"
  rw [hheard.2 hholds] at hgone
  obtain ⟨names, hregister, hqueues, hrefuses⟩ := hreceives ⟨0⟩
  have hstore := hfinds ⟨0⟩ (.owner .delayLine (.ofString "tempo") 8) (some (.store 0)) _ rfl rfl
  have hnotrefused := (hrefuses [] 0 "bang" (by decide +kernel)).not.2 (not_not.2 hholds)
  exact ⟨e, rfl, ⟨new, e₁, e₂, hnew, hexternal.2 hholds, hgone, hsilent⟩,
    ⟨_, rfl, hstore.2 (by simp)⟩, names, hregister, (hqueues _).2 hholds, hnotrefused⟩

/-- Of a name of 33 bytes only 32 are registered. The host is not said to listen to it and cannot give it
up, and nothing that is sent to it reaches its receiver. -/
theorem long_name_not_found :
    let text := String.ofList (List.replicate 33 'a')
    ∃ e e₁ e₂ : Engine CatalogueUnit, Engine.new smallBlocks = .ok e ∧
      (registerExternal text e = .ok true e₁ ∧ e₁.graph.names.isExternal text = false ∧
        unregisterExternal text e₁ = .ok false e₂ ∧
        e₂.graph.names.externals = [.ofString text]) ∧
      ∃ names, e.graph.names.register ⟨0⟩ (.receiver (.ofString text)) = .ok (none, names) ∧
        names.receivers text = [] ∧ (∀ message, ¬ (e.withNames names).Queues text message ⟨0⟩) ∧
        Building.Refuses ⟨e.withNames names, []⟩ ⟨0, text, "bang"⟩ := by
  intro text
  let e : Engine CatalogueUnit := { settings := smallBlocks, graph := .empty 8 }
  have hcut : ¬ Symbol.Holds text := by
    unfold Symbol.Holds
    rw [String.toList_ofList]
    decide
  let names : Names := { blockSize := 8, externals := [.ofString text] }
  have hunheard : names.isExternal text = false := by
    rw [Bool.eq_false_iff, Ne, Names.isExternal_iff]
    exact fun h => hcut h.1
  have hkept : names.unregisterExternal text = names := by
    simp [Names.unregisterExternal, names, Symbol.text_eq_iff, hcut]
  have hgone : unregisterExternal text (e.withNames names) = .ok false (e.withNames names) := by
    show EStateM.Result.ok (names.isExternal text) (e.withNames (names.unregisterExternal text)) = _
    rw [hunheard, hkept]
  obtain ⟨listed, hregister, -, hnobody⟩ :=
    Names.exists_register_receiver (Names.sound_fresh 8) ⟨0⟩ text
  have hnone := hnobody.2 hcut
  refine ⟨e, e.withNames names, e.withNames names, rfl, ⟨rfl, hunheard, hgone, rfl⟩,
    listed, hregister, hnone, fun message h => ?_, ?_⟩
  · have hmem := queues_iff.1 h
    rw [show (e.withNames listed).graph.names.receivers text = [] from hnone] at hmem
    exact List.not_mem_nil hmem
  · rw [Building.refuses_iff]
    · exact hnone
    · decide +kernel

end Engine
end Patchbay
