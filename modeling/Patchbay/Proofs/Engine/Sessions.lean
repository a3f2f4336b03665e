import Patchbay.Proofs.Engine.Recording
import Patchbay.Proofs.Engine.Uprooting

/-!
# Recording sessions

Over a run of an engine, a unit that records hears a signal and is told messages (`Session`). Whatever
is done between the blocks, and wherever messages cut them, the unit and its table come to what follows
from the beats alone (`Session.loaded`). So each sample that is heard from a bang on goes into the table
once, in order, until the table is full or a stop or another bang comes (`session_records`).
-/

namespace Patchbay

open Catalogue

variable {U : Type} {f : CatalogueUnit → U}

/-! ## Tables by name -/

/-- The handle of a seat at a store leads to the store of that name. -/
theorem Names.slot?_of_key_store (n : Names) {s : Seat} {kind : StoreKind} {name : Symbol}
    (h : s.key = .store kind name) : n.slot? s = (n.stores.find? (kind, name)).map Handle.store := by
  cases s <;> cases h <;> rfl

/-- Whoever has the handle of a store is registered there. -/
theorem Graph.Bused.role_of_store {g : Graph U} {size slot : Nat} (h : g.Bused size)
    (hg : g.Registered) {x : UnitId} {kind : StoreKind} {name : Symbol}
    (hslot : g.names.stores.find? (kind, name) = some slot) (hx : g.handle? x = some (.store slot)) :
    ∃ role, g.registration? x = some role ∧ role.seat.key = .store kind name :=
  (h.exists_role hg hx).imp fun _ h => ⟨h.1, Names.key_of_store hg.names hslot h.2⟩

namespace Engine

variable {e e' : Engine U} {x : UnitId} {slot size length : Nat} {t : Tape} {name : Symbol}

/-- That a unit records into the table of a name, which has so many samples, and that nobody else does. -/
structure Records (f : CatalogueUnit → U) (x : UnitId) (name : Symbol) (length : Nat) (e : Engine U) :
    Prop where
  writer : ∃ w : TableWriter, w.name = name ∧ e.graph.Hosts f x (.tableWriter w)
  others : ∀ y ≠ x, ∀ role, e.graph.registration? y = some role → role.seat.key = .store .table name →
    ∃ c, c.LeavesTables ∧ e.graph.Hosts f y c
  length : (e.graph.names.storeOf .table name).length = length

/-- What a unit that records and its table are like. -/
structure Loaded (f : CatalogueUnit → U) (x : UnitId) (t : Tape) (e : Engine U) : Prop where
  writer : e.graph.Hosts f x (.tableWriter t.writer)
  table : (e.graph.names.storeOf .table t.writer.name).samples = t.table

theorem Records.exists_loaded (h : e.Records f x name length) : ∃ t, e.Loaded f x t := by
  obtain ⟨w, -, hw⟩ := h.writer
  exact ⟨⟨w, (e.graph.names.storeOf .table w.name).samples⟩, hw, rfl⟩

theorem Loaded.name_eq (h : e.Loaded f x t) (hrecords : e.Records f x name length) :
    t.writer.name = name := by
  obtain ⟨w, rfl, hw⟩ := hrecords.writer
  have hrole := h.writer.registration?.symm.trans hw.registration?
  injection hrole with hrole
  injection hrole

theorem Loaded.size_eq (h : e.Loaded f x t) (hrecords : e.Records f x name length) :
    t.table.size = length := by
  rw [← h.table, h.name_eq hrecords]
  exact hrecords.length

theorem Taped.find? (h : e.Taped f x slot t) (hg : e.graph.Registered) :
    e.graph.names.stores.find? (.table, t.writer.name) = some slot := by
  have hhandle := (hg.handle h.writer.registration?).symm.trans h.handle
  rw [Names.slot?_of_key_store _ rfl] at hhandle
  obtain ⟨_, hfind, ⟨⟩⟩ := Option.map_eq_some_iff.1 hhandle
  exact hfind

theorem Taped.loaded (h : e.Taped f x slot t) (hg : e.graph.Registered) : e.Loaded f x t where
  writer := h.writer
  table := by
    obtain ⟨s, hs, htable⟩ := Option.map_eq_some_iff.1 h.table
    rw [Names.storeOf, hg.names.stores.lookup_eq (h.find? hg), hs]
    exact htable

theorem Taped.records (h : e.Taped f x slot t) (hg : e.graph.Registered) :
    e.Records f x t.writer.name t.table.size where
  writer := ⟨t.writer, rfl, h.writer⟩
  others y hy role hrole hkey := by
    apply h.others y hy
    rw [hg.handle hrole, Names.slot?_of_key_store _ hkey, h.find? hg]
    rfl
  length := congrArg Array.size (h.loaded hg).table

/-- The table has a slot. -/
theorem Records.exists_taped (h : e.Records f x name length) (hloaded : e.Loaded f x t)
    (hg : e.graph.Registered) (hb : e.graph.Bused size) : ∃ slot, e.Taped f x slot t := by
  have hrole := hloaded.writer.registration?
  -- the name is in the directory, for the unit itself is registered under it
  obtain ⟨slot, hslot⟩ : ∃ slot, e.graph.names.stores.find? (.table, t.writer.name) = some slot := by
    have hseated : x ∈ e.graph.names.seated (.accessor .table t.writer.name) := by
      rw [hg.seated, hrole]
      rfl
    exact Option.isSome_iff_exists.1 (Names.store_isSome (.inr (List.ne_nil_of_mem hseated)))
  obtain ⟨s, hs⟩ := Option.isSome_iff_exists.1 (hg.names.stores.isSome_of_find? hslot)
  refine ⟨slot, hloaded.writer, ?_, fun y hy hhandle => ?_, ?_⟩
  · rw [hg.handle hrole, Names.slot?_of_key_store _ rfl, hslot]
    rfl
  · obtain ⟨role, hrole, hkey⟩ := hb.role_of_store hg hslot hhandle
    exact h.others y hy role hrole (hloaded.name_eq h ▸ hkey)
  · rw [table?, hs, ← hloaded.table, Names.storeOf, hg.names.stores.lookup_eq hslot, hs]
    rfl

end Engine

/-! ## What is left of a table -/

namespace Names

variable {n n' : Names} {kind : StoreKind} {name : Symbol}

/-- That a store has gone or has got longer at its end, if it has changed at all. -/
def Spares (kind : StoreKind) (name : Symbol) (n n' : Names) : Prop :=
  (n'.storeOf kind name).samples = #[] ∨ ∃ more,
    (n'.storeOf kind name).samples = (n.storeOf kind name).samples ++ silence more

theorem Spares.refl (n : Names) : n.Spares kind name n := .inr ⟨0, (Array.append_empty ..).symm⟩

theorem Spares.of_names (h : n' = n) : n.Spares kind name n' := by
  rw [h]
  exact .refl n

/-- A store that is as long as it was is what it was. -/
theorem Spares.samples_eq (h : n.Spares kind name n')
    (hlength : (n'.storeOf kind name).length = (n.storeOf kind name).length) :
    (n'.storeOf kind name).samples = (n.storeOf kind name).samples := by
  rw [Store.length, Store.length] at hlength
  obtain hnone | ⟨more, hmore⟩ := h
  · rw [hnone, Array.size_empty] at hlength
    rw [hnone, Array.size_eq_zero_iff.1 hlength.symm]
  · rw [hmore, Array.size_append, size_silence] at hlength
    obtain rfl : more = 0 := by omega
    rw [hmore]
    exact Array.append_empty ..

theorem spares_register (hn : n.Sound) {unit : UnitId} {role : Registration} {h : Option Handle}
    (heq : n.register unit role = .ok (h, n')) : n.Spares kind name n' := by
  have hboard : n'.storeOf kind name = (n.board.register unit role).stores kind name :=
    congrArg (Board.stores · kind name) (board_register hn heq)
  rw [Spares, hboard, Board.samples_register]
  exact .inr ⟨_, rfl⟩

theorem Without.spares {gone : List UnitId} (h : n.Without gone n') : n.Spares kind name n' := by
  rw [Spares, storeOf, h.stores]
  cases hs : n.stores.lookup (kind, name) with
  | none => exact .inl rfl
  | some s =>
    rw [Option.map_some, Option.filter_some]
    split
    · refine .inr ⟨0, ?_⟩
      rw [storeOf, hs]
      exact (Array.append_empty ..).symm
    · exact .inl rfl

end Names

section Commands

variable [Device U] {kind : StoreKind} {name : Symbol}

namespace Edit

variable {g g' : Graph U}

theorem spares_insert (hg : g.Registered) {owner : Option UnitId} {body : Body U} {id : UnitId}
    (h : insert owner body g = .ok id g') : g.names.Spares kind name g'.names := by
  obtain ⟨handle, names, hnames, -, rfl⟩ := insert_eq_ok h
  cases hr : body.registration with
  | none =>
    rw [hr] at hnames
    exact .of_names hnames.2
  | some role =>
    rw [hr] at hnames
    exact Names.spares_register hg.names hnames

theorem spares_add (hg : g.Registered) {owner : Option UnitId} {body : Body U} {id : UnitId}
    (h : add owner body g = .ok id g') : g.names.Spares kind name g'.names := by
  cases owner with
  | none => exact spares_insert hg h
  | some owner =>
    obtain ⟨holder, g₁, -, -, hinsert, h⟩ := insertInto_eq_ok h
    have hinserted : g.names.Spares kind name g₁.names := spares_insert hg hinsert
    rcases h with ⟨-, rfl⟩ | ⟨side, grown, -, -, rfl⟩ <;> exact hinserted

theorem spares_of_edited (hg : g.Registered) {made : Body U → Prop}
    (h : Engine.Edited made g g') : g.names.Spares kind name g'.names := by
  cases h with
  | added _ hadd => exact spares_add hg hadd
  | connected h => exact .of_names (names_connect h)
  | disconnected h => exact .of_names (names_disconnect h)

theorem spares_remove (hg : g.Sound) (hu : g.names.InUse) {id : UnitId} {body : Body U}
    (h : remove id g = .ok body g') : g.names.Spares kind name g'.names := by
  obtain ⟨-, rfl⟩ := remove_eq_ok h
  exact (without_foldl_dropNode hg hu _ (List.append_nil (g.contentsFirst id)).symm).1.spares

end Edit

namespace Engine

variable {e e' : Engine U} {x : UnitId} {length : Nat} {t : Tape} {command : Command U}
  {R : U → U → Prop}

/-- Between blocks nodes are only edited. -/
theorem inherits_of_deed (hR : Heeds R) (h : Deed command e e')
    (hcommand : ∀ input outLength, command ≠ .process input outLength) :
    e.graph.Inherits R e'.graph := by
  cases h with
  | idle | declined | scheduled | cancelled | sent | unheard | listened | taken =>
    exact .of_nodes hR.refl rfl
  | edited hedit => exact (inherits_of_edited hR hedit).trans hR.trans (.of_nodes hR.refl rfl)
  | removed hremove => exact (Edit.inherits_remove hR hremove).trans hR.trans (.of_nodes hR.refl rfl)
  | planned hplan => exact .of_nodes hR.refl (graph_compile hplan).1
  | played hprocess => exact absurd hprocess (hcommand _ _)

/-- Between blocks nothing is written into a store. -/
theorem spares_of_deed (h : Deed command e e')
    (hcommand : ∀ input outLength, command ≠ .process input outLength) (hg : e.graph.Sound)
    (hu : e.graph.names.InUse) : e.graph.names.Spares kind name e'.graph.names := by
  cases h with
  | idle | declined | scheduled | cancelled | sent | unheard | listened | taken =>
    exact .refl e.graph.names
  | @edited g hedit =>
    have hspares : e.graph.names.Spares kind name g.names := Edit.spares_of_edited hg.registered hedit
    exact hspares
  | @removed _ _ g hremove =>
    have hspares : e.graph.names.Spares kind name g.names := Edit.spares_remove hg hu hremove
    exact hspares
  | planned hplan => exact .of_names (graph_compile hplan).2
  | played hprocess => exact absurd hprocess (hcommand _ _)

/-- A unit that records pays no heed to its connections. -/
theorem heeds_tableWriter (hf : Faithful f) :
    Heeds fun u v : U => ∀ w : TableWriter, u = f (.tableWriter w) → v = f (.tableWriter w) where
  refl _ _ h := h
  trans _ _ _ h h' w hw := h' w (h w hw)
  rewired u inlet counts w hw := by
    rw [hw, hf.rewired]
    rfl

/-- Between blocks a unit that records stays what it is, and so does its table. -/
theorem loaded_of_deed (hf : Faithful f) (h : Deed command e e')
    (hcommand : ∀ input outLength, command ≠ .process input outLength) (hg : e.graph.Sound)
    (hu : e.graph.names.InUse) (hbefore : e.Records f x name length)
    (hafter : e'.Records f x name length) (hloaded : e.Loaded f x t) : e'.Loaded f x t := by
  have hname := hloaded.name_eq hbefore
  obtain ⟨w, hw, n', hn', hu', hports, hrole⟩ := hafter.writer
  obtain ⟨n, hn, hbody, -⟩ := hloaded.writer
  -- an edit tells the unit of its connections at most
  have hwriter : n'.body = .device (f (.tableWriter t.writer)) := by
    obtain ⟨_, hold, hbecomes, -⟩ := (inherits_of_deed (heeds_tableWriter hf) h hcommand).old hn'
      (Graph.lt_size_of_node? hn)
    cases hn.symm.trans hold
    rw [hbody, hu'] at hbecomes
    rw [hu', hbecomes _ rfl]
  refine ⟨⟨n', hn', hwriter, hports, hrole.trans ?_⟩, ?_⟩
  · rw [← hw] at hname
    exact congrArg (fun name => some (Registration.accessor .table name)) hname.symm
  · -- what is as long as it was has neither gone nor grown
    rw [← hloaded.table, hname]
    exact (spares_of_deed h hcommand hg hu).samples_eq (hafter.length.trans hbefore.length.symm)

/-! ## Sessions -/

/-- A run in which a unit records into the table of a name, and nobody else does: the blocks of the
signal that it has heard so far, and the beats that it has gone through. -/
inductive Session (f : CatalogueUnit → U) (x : UnitId) (name : Symbol) (length : Nat)
    (start : Engine U) : List Samples → List Beat → Engine U → Prop
  | start : start.Records f x name length → Session f x name length start [] [] start
  | block {blocks : List Samples} {beats : List Beat} {e e' : Engine U} {input : Samples}
      {outLength : Nat} : Session f x name length start blocks beats e → e.graph.HasRoom →
      e.after (.process input outLength) = some e' →
      Session f x name length start (blocks ++ [e.overheard input x])
        (beats ++ History.beats (e.overheard input x) ((e'.history x).drop (e.history x).length)) e'
  | between {blocks : List Samples} {beats : List Beat} {e e' : Engine U} {command : Command U} :
      Session f x name length start blocks beats e → e.graph.HasRoom →
      (∀ input outLength, command ≠ .process input outLength) → e.after command = some e' →
      e'.Records f x name length → Session f x name length start blocks beats e'

section Sessions

variable {settings : Settings} {start : Engine U} {blocks : List Samples} {beats : List Beat}
variable (hs : Steady U) (hb : KeepsBuses U) (hf : Faithful f)
include hs hb hf

/-- In a block the unit and its table go through the beats of what happens to the unit. -/
theorem loaded_of_process (hroomy : Roomy settings e) (hroom : e.graph.HasRoom) {input : Samples}
    {outLength : Nat} (hafter : e.after (.process input outLength) = some e')
    (hrecords : e.Records f x name length) (hloaded : e.Loaded f x t) :
    (e.overheard input x).size = settings.blockSize ∧ ∃ seg : List Beat,
      seg = History.beats (e.overheard input x) ((e'.history x).drop (e.history x).length) ∧
      Beat.signal seg = e.overheard input x ∧ e'.Records f x name length ∧
      e'.Loaded f x (seg.foldl Tape.follow t) := by
  have hkept := kept_of_reachable hs.alike hroomy.reachable
  have hkept' := kept_of_reachable hs.alike (hroomy.step hroom hafter).reachable
  have hbused := bused_of_reachable hb hs.alike hroomy.reachable
  obtain ⟨slot, htaped⟩ := hrecords.exists_taped hloaded hkept.sound.registered hbused
  obtain ⟨samples, hrun⟩ := process_of_after hafter
  obtain ⟨hsize, seg, hseg, htaped', hsignal⟩ := recorded_of_process hs hf hroomy hroom htaped hrun
  have hregistered := hkept'.sound.registered
  refine ⟨hsize, seg.beats (e.overheard input x), ?_, hsignal, ?_, htaped'.loaded hregistered⟩
  · rw [hseg, List.drop_left]
  · have hrecords' := htaped'.records hregistered
    rwa [Tape.name_foldl_follow, Tape.size_foldl_follow, hloaded.name_eq hrecords,
      hloaded.size_eq hrecords] at hrecords'

/-- At any time the unit and its table are what the beats have made of them, and in the beats the unit has
heard the blocks of the signal. -/
theorem Session.loaded (hroomy : Roomy settings start)
    (h : Session f x name length start blocks beats e) (hloaded : start.Loaded f x t) :
    Roomy settings e ∧ e.Records f x name length ∧ e.Loaded f x (beats.foldl Tape.follow t) ∧
      (∀ block ∈ blocks, block.size = settings.blockSize) ∧
      Beat.signal beats = Beat.signal (blocks.map .heard) := by
  induction h with
  | start hrecords => exact ⟨hroomy, hrecords, hloaded, fun _ h => absurd h List.not_mem_nil, rfl⟩
  | @block blocks beats e e' input outLength _ hroom hafter ih =>
    obtain ⟨hroomy, hrecords, hloaded, hsizes, hsignal⟩ := ih
    obtain ⟨hsize, seg, hseg, hheard, hrecords', hloaded'⟩ :=
      loaded_of_process hs hb hf hroomy hroom hafter hrecords hloaded
    rw [← hseg, List.foldl_append, Beat.signal_append, List.map_append, Beat.signal_append, hsignal,
      hheard]
    refine ⟨hroomy.step hroom hafter, hrecords', hloaded', ?_, ?_⟩
    · simpa [or_imp, forall_and] using ⟨hsizes, hsize⟩
    · exact congrArg (_ ++ ·) (Array.append_empty ..).symm
  | between _ hroom hcommand hafter hrecords' ih =>
    obtain ⟨hroomy, hrecords, hloaded, hheard⟩ := ih
    have hsound := (kept_of_reachable hs.alike hroomy.reachable).sound
    exact ⟨hroomy.step hroom hafter, hrecords', loaded_of_deed hf (deed_of_after hafter) hcommand hsound
      (inUse_of_reachable hroomy.reachable) hrecords hrecords' hloaded, hheard⟩

/-- However a session is cut into blocks, and by whatever messages, the unit and its table are at any
time what the beats have made of them, and in the beats the unit has heard the blocks of the signal. When
so many samples have been heard since a bang, without a stop or another bang among them, the table has
them at its front, as far as there is room, and all else in it is as it was when the bang came; the unit
goes on recording just as long as there is room left. After a stop the table stays as it was when the
stop came, until the next bang. -/
theorem session_records (hroomy : Roomy settings start) (hlength : 1 ≤ length)
    (h : Session f x name length start blocks beats e) (hloaded : start.Loaded f x t) :
    e.Loaded f x (beats.foldl Tape.follow t) ∧ (∀ block ∈ blocks, block.size = settings.blockSize) ∧
    Beat.signal beats = Beat.signal (blocks.map .heard) ∧
    ∀ before message after rest, beats = before ++ .told message :: after ++ rest →
      let first := (Beat.signal before).size
      let count := (Beat.signal after).size
      let old := before.foldl Tape.follow t
      let now := (before ++ .told message :: after).foldl Tape.follow t
      (message.isBangAt 0 = true → (∀ b ∈ after, b.IsQuiet) →
        (∀ i < min count length, now.table[i]? = (Beat.signal beats)[first + i]?) ∧
        (∀ i, min count length ≤ i → now.table[i]? = old.table[i]?) ∧
        (now.writer.position.isSome ↔ count < length)) ∧
      (message.isBangAt 0 = false → message.hasSelector "stop" = true →
        (∀ b ∈ after, b.StartsNothing) →
        now.table = old.table ∧ now.writer.position = none) := by
  obtain ⟨-, hrecords, hend, hsizes, hsignal⟩ := h.loaded hs hb hf hroomy hloaded
  refine ⟨hend, hsizes, hsignal, fun before message after rest hsplit => ?_⟩
  intro first count old now
  -- no beat changes the size of the table, so at any time it is that at the end
  have hsize : old.table.size = length := by
    have := hend.size_eq hrecords
    rw [Tape.size_foldl_follow] at this
    exact (Tape.size_foldl_follow ..).trans this
  have hnow : now = after.foldl Tape.follow (old.follow (.told message)) := List.foldl_append ..
  refine ⟨fun hbang hquiet => ?_, fun hbang hstop hstarts => ?_⟩
  · have htook := Tape.took_of_bang (hlength.trans_eq hsize.symm) hbang hquiet
    rw [← hnow] at htook
    refine ⟨fun i hi => ?_, fun i hi => htook.kept i (hsize ▸ hi), ?_⟩
    · have hheard : Beat.signal (.told message :: after) = Beat.signal after := Array.empty_append ..
      rw [htook.taken i (hsize ▸ hi), hsplit, Beat.getElem?_signal _ _ _ (by rw [hheard]; omega),
        hheard]
    · rw [htook.position, hsize]
      by_cases hroom : count < length
      · rw [if_pos hroom]
        exact iff_of_true rfl hroom
      · rw [if_neg hroom]
        exact iff_of_false Bool.false_ne_true hroom
  · rw [hnow]
    exact Tape.frozen_of_stop hbang hstop hstarts

end Sessions

end Engine
end Commands

/-! ## A session -/

/-- The unit that records in a node, if there is one. -/
def Node.tableWriter? (n : Node CatalogueUnit) : Option TableWriter :=
  match n.body with
  | .device (.tableWriter w) => some w
  | _ => none

theorem Node.body_of_tableWriter? {n : Node CatalogueUnit} {w : TableWriter}
    (h : n.tableWriter? = some w) : n.body = .device (.tableWriter w) := by
  unfold tableWriter? at h
  split at h
  · next hbody =>
    cases h
    exact hbody
  · cases h

/-- Whether no unit records but one. -/
def Graph.isOnlyWriter (g : Graph CatalogueUnit) (x : UnitId) : Bool :=
  (List.range g.nodes.size).all fun i => decide (⟨i⟩ = x) || (g.node? ⟨i⟩).all (·.tableWriter?.isNone)

/-- If all units are of the catalogue and no other records, the others at a table leave it as it is. -/
theorem Graph.leavesTables_of_all {g : Graph CatalogueUnit}
    (h : (g.nodes.all fun n => n.all Node.isGenuine) = true) {x : UnitId}
    (honly : g.isOnlyWriter x = true) (name : Symbol) : ∀ y ≠ x, ∀ role,
      g.registration? y = some role → role.seat.key = .store .table name →
        ∃ c, c.LeavesTables ∧ g.Hosts id y c := by
  intro y hy role hrole hkey
  obtain ⟨n, hn, hrole⟩ := Option.bind_eq_some_iff.1 hrole
  have hgenuine := isGenuine_of_all h hn
  cases hbody : n.body with
  | subgraph => simp [Node.isGenuine, hbody, hrole] at hgenuine
  | device c =>
    refine ⟨c, ?_, hosts_of_all h hn hbody⟩
    have hsilent : n.tableWriter? = none := by
      have hlt := List.mem_range.2 (Graph.lt_size_of_node? hn)
      have hmember := List.all_eq_true.1 honly y.index hlt
      simpa [hy, hn] using hmember
    have hregistered : c.registration = some role := by
      simp only [Node.isGenuine, hbody, Bool.and_eq_true, decide_eq_true_eq] at hgenuine
      exact hgenuine.2.symm.trans hrole
    cases c with
    | table t => exact .inl ⟨t, rfl⟩
    | tableReader r => exact .inr ⟨r, rfl⟩
    | tableWriter w => simp [Node.tableWriter?, hbody] at hsilent
    | _ => cases hregistered <;> cases hkey

namespace Engine

/-- The name of a table. -/
def deckName : Symbol := Symbol.ofString "take"

/-- A table and a unit that records the host's input into it, with a plan. The bang comes from a delay. -/
def tapeDeck : Engine CatalogueUnit where
  settings := { smallBlocks with inputChannels := 1 }
  graph :=
    { nodes :=
        #[ some { body := .device (.table ⟨deckName, 4⟩), ports := {},
                  registration := some (.owner .table deckName 4), handle := some (.store 0) },
          some { body := .device (.tableWriter { name := deckName }),
                 ports := { messageInlets := 1, streamInlets := 1 },
                 registration := some (.accessor .table deckName), handle := some (.store 0) },
          some { body := .device (.hostInput ⟨1⟩), ports := { streamOutlets := 1 } },
          some { body := .device (.delay { delay := 0 }),
                 ports := { messageInlets := 2, messageOutlets := 1 } } ]
      connections := [⟨⟨2⟩, 0, ⟨1⟩, 0⟩, ⟨⟨3⟩, 0, ⟨1⟩, 0⟩]
      names :=
        { blockSize := 8
          stores :=
            { slots := #[some { samples := #[0, 0, 0, 0], owners := [⟨0⟩], accessors := [⟨1⟩] }]
              index := [((.table, deckName), 0)] } }
      pool :=
        { blockSize := 8, buffers := #[#[0, 0, 0, 0, 0, 0, 0, 0]], readers := #[0], free := [0],
          acquired := 1, released := 1 }
      plan :=
        some { steps := #[.unit ⟨2⟩, .unit ⟨1⟩]
               bindings := #[{}, { inlets := #[.pooled 0] },
                 { outlets := #[.pooled 0], sources := #[.pooled] }, {}]
               buffers := 1 } }
  journal := #[.told ⟨⟨1⟩, 0, [1]⟩]

theorem roomy_tapeDeck : Roomy { smallBlocks with inputChannels := 1 } tapeDeck := by
  have hbuilt : build { smallBlocks with inputChannels := 1 }
      [ .addUnit none (.table ⟨deckName, 4⟩), .addUnit none (.tableWriter { name := deckName }),
        .addUnit none (.hostInput ⟨1⟩), .addUnit none (.delay { delay := 0 }),
        .connect ⟨⟨2⟩, 0, ⟨1⟩, 0⟩, .connect ⟨⟨3⟩, 0, ⟨1⟩, 0⟩, .compile ] = some tapeDeck := by cbv
  exact roomy_of_build hbuilt

/-- A bang comes in the middle of a block, and the table has room for some of the samples that are
left. -/
theorem session_records_deck : ∃ (e e' : Engine CatalogueUnit) (t t' : Tape) (bang : Message)
    (heard : Samples) (before after : List Beat),
    Roomy { smallBlocks with inputChannels := 1 } e ∧
    Session id ⟨1⟩ deckName 4 e [heard] (before ++ .told bang :: after) e' ∧ e.Loaded id ⟨1⟩ t ∧
    bang.isBangAt 0 = true ∧ (∀ b ∈ after, b.IsQuiet) ∧ heard = #[1, 2, 3, 4, 5, 6, 7, 8] ∧
    e'.Loaded id ⟨1⟩ t' ∧ (∀ i < 4, t'.table[i]? = heard[3 + i]?) ∧ t'.writer.position = none := by
  have hrun : ((tapeDeck.after (.schedule ⟨3⟩ 0 (.bang 2.5))).any fun e =>
      decide (tapeDeck.graph.HasRoom ∧ e.graph.HasRoom) &&
      (e.graph.nodes.all fun n => n.all Node.isGenuine) && e.graph.isOnlyWriter ⟨1⟩ &&
      decide ((e.graph.names.storeOf .table deckName).length = 4) &&
      ((e.graph.node? ⟨1⟩).any fun n => n.tableWriter? = some { name := deckName }) &&
      (e.after (.process #[1, 2, 3, 4, 5, 6, 7, 8] 0)).any fun e' =>
        decide (e.overheard #[1, 2, 3, 4, 5, 6, 7, 8] ⟨1⟩ = #[1, 2, 3, 4, 5, 6, 7, 8] ∧
          History.beats #[1, 2, 3, 4, 5, 6, 7, 8] ((e'.history ⟨1⟩).drop (e.history ⟨1⟩).length) =
            [.heard #[1, 2, 3], .told (.bang 2.5), .heard #[4, 5, 6, 7, 8]])) = true := by
    decide +kernel
  obtain ⟨e, he, hrun⟩ := (Option.any_eq_true ..).1 hrun
  simp only [Bool.and_eq_true, decide_eq_true_eq, Option.any_eq_true] at hrun
  obtain ⟨⟨⟨⟨⟨⟨hroom, hroom'⟩, hgenuine⟩, honly⟩, hlength⟩, n, hn, hwriter⟩, e', he', hheard, hbeats⟩ :=
    hrun
  have hroomy := roomy_tapeDeck.step hroom he
  have hhosts := Graph.hosts_of_all hgenuine hn (Node.body_of_tableWriter? hwriter)
  have hrecords : e.Records id ⟨1⟩ deckName 4 :=
    ⟨⟨_, rfl, hhosts⟩, Graph.leavesTables_of_all hgenuine honly deckName, hlength⟩
  have hsession := (Session.start hrecords).block hroom' he'
  rw [hheard, hbeats] at hsession
  obtain ⟨t, ht⟩ := hrecords.exists_loaded
  obtain ⟨hend, -, hsignal, htakes⟩ := session_records CatalogueUnit.steady CatalogueUnit.keepsBuses
    faithful_id hroomy (by decide) hsession ht
  have hquiet : ∀ b ∈ [Beat.heard #[4, 5, 6, 7, 8]], b.IsQuiet := by simp [Beat.IsQuiet]
  obtain ⟨hbang, -⟩ := htakes [.heard #[1, 2, 3]] (.bang 2.5) [.heard #[4, 5, 6, 7, 8]] [] rfl
  obtain ⟨htaken, -, hposition⟩ := hbang rfl hquiet
  rw [hsignal] at htaken
  refine ⟨e, e', t, _, .bang 2.5, _, [.heard #[1, 2, 3]], [.heard #[4, 5, 6, 7, 8]], hroomy, hsession, ht,
    rfl, hquiet, rfl, hend, fun i hi => htaken i hi, ?_⟩
  exact Option.not_isSome_iff_eq_none.1 fun h => absurd (hposition.1 h) (by decide)

end Engine
end Patchbay
