import Patchbay.Names
import Patchbay.Proofs.Names.Directory
import Patchbay.Proofs.Outcome

/-!
# Who is listed under a name

Every role puts a unit into one list of the registry: a **seat**. `seated` reads that list, and
`slot?` the handle that goes with it. Registering a unit adds it to one seat, taking it out removes
it from that seat, and neither touches another; the handle of a seat stays as long as anybody sits
there.
-/

namespace Patchbay

/-- The list of the registry that a role enters a unit into. -/
inductive Seat where
  | emitter (family : LinkFamily) (name : Symbol)
  | collector (family : LinkFamily) (name : Symbol)
  | receiver (name : Symbol)
  | owner (kind : StoreKind) (name : Symbol)
  | accessor (kind : StoreKind) (name : Symbol)
deriving DecidableEq

/-- The seat of a role. The length that an owner asks for does not matter to it. -/
def Registration.seat : Registration → Seat
  | .emitter family name => .emitter family name
  | .collector family name => .collector family name
  | .receiver name => .receiver name
  | .owner kind name _ => .owner kind name
  | .accessor kind name => .accessor kind name

/-- A link as it is kept: one that nobody uses is fresh. -/
def Link.kept (blockSize : Nat) (l : Link) : Link :=
  if l.isUnused then { bus := silence blockSize } else l

/-- A store as it is kept: one that nobody uses is fresh. -/
def Store.kept (s : Store) : Store := if s.isUnused then {} else s

@[simp]
theorem Link.emitters_kept (blockSize : Nat) (l : Link) : (l.kept blockSize).emitters = l.emitters := by
  unfold kept isUnused
  split <;> simp_all

@[simp]
theorem Link.collectors_kept (blockSize : Nat) (l : Link) :
    (l.kept blockSize).collectors = l.collectors := by
  unfold kept isUnused
  split <;> simp_all

@[simp]
theorem Store.owners_kept (s : Store) : s.kept.owners = s.owners := by
  unfold kept isUnused
  split <;> simp_all

@[simp]
theorem Store.accessors_kept (s : Store) : s.kept.accessors = s.accessors := by
  unfold kept isUnused
  split <;> simp_all

namespace Names

/-- The link of a name. A missing one is as one that nobody uses. -/
def linkOf (n : Names) (family : LinkFamily) (name : Symbol) : Link :=
  (n.links.lookup (family, name)).getD n.freshLink

/-- The store of a name. A missing one is as one that nobody uses. -/
def storeOf (n : Names) (kind : StoreKind) (name : Symbol) : Store :=
  (n.stores.lookup (kind, name)).getD {}

/-- The units at a seat, in the order of their registration. -/
def seated (n : Names) : Seat → List UnitId
  | .emitter family name => (n.linkOf family name).emitters
  | .collector family name => (n.linkOf family name).collectors
  | .receiver name => ((n.receiverLists.find? (·.1 = name)).map (·.2)).getD []
  | .owner kind name => (n.storeOf kind name).owners
  | .accessor kind name => (n.storeOf kind name).accessors

/-- The handle that goes with a seat. Receivers have none. -/
def slot? (n : Names) : Seat → Option Handle
  | .emitter family name | .collector family name => (n.links.find? (family, name)).map .link
  | .owner kind name | .accessor kind name => (n.stores.find? (kind, name)).map .store
  | .receiver _ => none

/-- That the directories of the registry are sound, and no name has two lists of receivers. -/
structure Sound (n : Names) : Prop where
  links : n.links.Sound
  stores : n.stores.Sound
  receivers : (n.receiverLists.map (·.1)).Nodup

theorem sound_fresh (blockSize : Nat) : Sound { blockSize } :=
  ⟨Directory.sound_empty, Directory.sound_empty, List.nodup_nil⟩

/-- That two registries list the same units under the same names, with the same handles. What is
on the buses and in the stores may differ. -/
structure SameSeats (n n' : Names) : Prop where
  sound : n.Sound → n'.Sound
  seated : ∀ s, n'.seated s = n.seated s
  slot? : ∀ s, n'.slot? s = n.slot? s

theorem SameSeats.refl (n : Names) : n.SameSeats n := ⟨id, fun _ => rfl, fun _ => rfl⟩

theorem SameSeats.trans {n n' n'' : Names} (h : n.SameSeats n') (h' : n'.SameSeats n'') :
    n.SameSeats n'' where
  sound hn := h'.sound (h.sound hn)
  seated s := (h'.seated s).trans (h.seated s)
  slot? s := (h'.slot? s).trans (h.slot? s)

theorem SameSeats.find?_link {n n' : Names} (h : n.SameSeats n') (key : LinkFamily × Symbol) :
    n'.links.find? key = n.links.find? key :=
  Option.map_injective (fun _ _ => Handle.link.inj) (h.slot? (.emitter key.1 key.2))

/-! ## Receivers -/

theorem mem_map_addReceiver {unit : UnitId} {name key : Symbol}
    {lists : List (Symbol × List UnitId)} :
    key ∈ (addReceiver unit name lists).map (·.1) ↔ key = name ∨ key ∈ lists.map (·.1) := by
  induction lists with
  | nil => simp [addReceiver]
  | cons p rest ih =>
    obtain ⟨k, units⟩ := p
    by_cases h : k = name
    · simp [addReceiver, h]
    · simp only [addReceiver, h, if_false, List.map_cons, List.mem_cons, ih]
      constructor
      · rintro (h | h | h) <;> simp [h]
      · rintro (h | h | h) <;> simp [h]

theorem nodup_addReceiver {unit : UnitId} {name : Symbol} {lists : List (Symbol × List UnitId)}
    (h : (lists.map (·.1)).Nodup) : ((addReceiver unit name lists).map (·.1)).Nodup := by
  induction lists with
  | nil => simp [addReceiver]
  | cons p rest ih =>
    obtain ⟨k, units⟩ := p
    rw [List.map_cons, List.nodup_cons] at h
    by_cases hk : k = name
    · rw [addReceiver, if_pos hk, List.map_cons, List.nodup_cons]
      exact h
    · rw [addReceiver, if_neg hk, List.map_cons, List.nodup_cons, mem_map_addReceiver]
      exact ⟨by simp [hk, h.1], ih h.2⟩

theorem find?_addReceiver {unit : UnitId} {name key : Symbol}
    {lists : List (Symbol × List UnitId)} :
    (((addReceiver unit name lists).find? (·.1 = key)).map (·.2)).getD [] =
      ((lists.find? (·.1 = key)).map (·.2)).getD [] ++ if key = name then [unit] else [] := by
  induction lists with
  | nil => by_cases h : key = name <;> simp [addReceiver, h, eq_comm]
  | cons p rest ih =>
    obtain ⟨k, units⟩ := p
    by_cases hk : k = name
    · by_cases h : key = name
      · simp [addReceiver, hk, h]
      · have : ¬ name = key := fun he => h he.symm
        simp [addReceiver, hk, h, this]
    · by_cases h : k = key
      · subst h
        simp [addReceiver, hk]
      · simp only [addReceiver, hk, if_false, List.find?_cons, h, decide_false]
        exact ih

theorem mem_of_mem_map_dropReceiver {unit : UnitId} {name key : Symbol}
    {lists : List (Symbol × List UnitId)} (h : key ∈ (dropReceiver unit name lists).map (·.1)) :
    key ∈ lists.map (·.1) := by
  induction lists with
  | nil => simp [dropReceiver] at h
  | cons p rest ih =>
    obtain ⟨k, units⟩ := p
    by_cases hk : k = name
    · simp only [dropReceiver, hk, if_true] at h
      split at h
      · exact List.mem_cons_of_mem _ h
      · simpa [hk] using h
    · simp only [dropReceiver, hk, if_false, List.map_cons, List.mem_cons] at h
      exact List.mem_cons.2 (h.imp id ih)

theorem nodup_dropReceiver {unit : UnitId} {name : Symbol} {lists : List (Symbol × List UnitId)}
    (h : (lists.map (·.1)).Nodup) : ((dropReceiver unit name lists).map (·.1)).Nodup := by
  induction lists with
  | nil => simp [dropReceiver]
  | cons p rest ih =>
    obtain ⟨k, units⟩ := p
    rw [List.map_cons, List.nodup_cons] at h
    by_cases hk : k = name
    · simp only [dropReceiver, hk, if_true]
      split
      · exact h.2
      · rw [List.map_cons, List.nodup_cons]
        exact ⟨hk ▸ h.1, h.2⟩
    · rw [dropReceiver, if_neg hk, List.map_cons, List.nodup_cons]
      exact ⟨fun hmem => h.1 (mem_of_mem_map_dropReceiver hmem), ih h.2⟩

theorem find?_dropReceiver {unit : UnitId} {name key : Symbol}
    {lists : List (Symbol × List UnitId)} (h : (lists.map (·.1)).Nodup) :
    (((dropReceiver unit name lists).find? (·.1 = key)).map (·.2)).getD [] =
      (((lists.find? (·.1 = key)).map (·.2)).getD []).filter
        (fun u => decide (key ≠ name ∨ u ≠ unit)) := by
  induction lists with
  | nil => simp [dropReceiver]
  | cons p rest ih =>
    obtain ⟨k, units⟩ := p
    rw [List.map_cons, List.nodup_cons] at h
    by_cases hk : k = name
    · subst hk
      by_cases hkey : k = key
      · subst hkey
        have hrest : rest.find? (·.1 = k) = none := by
          rw [List.find?_eq_none]
          intro p hp he
          exact h.1 (List.mem_map.2 ⟨p, hp, by simpa using he⟩)
        by_cases hempty : (units.filter (· ≠ unit)).isEmpty
        · simp only [dropReceiver, if_true, hempty, hrest]
          simpa using (List.isEmpty_iff.1 hempty).symm
        · simp only [dropReceiver, if_true, if_neg hempty]
          simp
      · have hne : ¬ key = k := fun he => hkey he.symm
        simp only [dropReceiver, if_true]
        split <;> simp [hkey, hne]
    · by_cases hkey : k = key
      · subst hkey
        simp [dropReceiver, hk]
      · simp only [dropReceiver, hk, if_false, List.find?_cons, hkey, decide_false]
        exact ih h.2

/-- A link that somebody uses is in its directory. -/
theorem link_isSome {n : Names} {family : LinkFamily} {name : Symbol}
    (h : (n.linkOf family name).emitters ≠ [] ∨ (n.linkOf family name).collectors ≠ []) :
    (n.links.find? (family, name)).isSome := by
  cases hl : n.links.find? (family, name) with
  | none => simp [linkOf, Directory.lookup, hl, freshLink] at h
  | some _ => rfl

/-- A store that somebody uses is in its directory. -/
theorem store_isSome {n : Names} {kind : StoreKind} {name : Symbol}
    (h : (n.storeOf kind name).owners ≠ [] ∨ (n.storeOf kind name).accessors ≠ []) :
    (n.stores.find? (kind, name)).isSome := by
  cases hs : n.stores.find? (kind, name) with
  | none => simp [storeOf, Directory.lookup, hs] at h
  | some _ => rfl

/-! ## Handles -/

/-- The handle of a link leads to those who are listed under its name. -/
theorem emitters_of_slot {n : Names} {family : LinkFamily} {name : Symbol} {slot : Nat}
    (h : n.slot? (.collector family name) = some (.link slot)) (hn : n.Sound) :
    n.emitters slot = n.seated (.emitter family name) := by
  obtain ⟨s, hs, he⟩ := Option.map_eq_some_iff.1 h
  cases he
  obtain ⟨l, hl⟩ := Option.isSome_iff_exists.1 (hn.links.isSome_of_find? hs)
  simp [emitters, seated, linkOf, hn.links.lookup_eq hs, hl]

/-- The handle of a store leads to those who are listed under its name. -/
theorem owners_of_slot {n : Names} {kind : StoreKind} {name : Symbol} {slot : Nat}
    (h : n.slot? (.accessor kind name) = some (.store slot)) (hn : n.Sound) :
    n.owners slot = n.seated (.owner kind name) := by
  obtain ⟨s, hs, he⟩ := Option.map_eq_some_iff.1 h
  cases he
  obtain ⟨l, hl⟩ := Option.isSome_iff_exists.1 (hn.stores.isSome_of_find? hs)
  simp [owners, seated, storeOf, hn.stores.lookup_eq hs, hl]

/-- Whoever collects from a link has a handle to it. -/
theorem slot?_collector {n : Names} {family : LinkFamily} {name : Symbol}
    (h : n.seated (.collector family name) ≠ []) :
    ∃ slot, n.slot? (.collector family name) = some (.link slot) := by
  obtain ⟨slot, hs⟩ := Option.isSome_iff_exists.1 (link_isSome (.inr h))
  exact ⟨slot, by simp [slot?, hs]⟩

/-- Whoever reads a store has a handle to it. -/
theorem slot?_accessor {n : Names} {kind : StoreKind} {name : Symbol}
    (h : n.seated (.accessor kind name) ≠ []) :
    ∃ slot, n.slot? (.accessor kind name) = some (.store slot) := by
  obtain ⟨slot, hs⟩ := Option.isSome_iff_exists.1 (store_isSome (.inr h))
  exact ⟨slot, by simp [slot?, hs]⟩

/-! ## Joining -/

/-- What joining a link does: the link of the name is changed, and nothing else. -/
theorem joinLink_eq {n n' : Names} (hn : n.Sound) {family : LinkFamily} {name : Symbol}
    {f : Link → Link} {h : Handle} (heq : n.joinLink family name f = .ok (h, n')) :
    n'.Sound ∧ (n'.links.find? (family, name)).map Handle.link = some h ∧
    (∀ family' name', n'.linkOf family' name' =
      if (family', name') = (family, name) then f (n.linkOf family' name')
      else n.linkOf family' name') ∧
    (∀ key, (n.links.find? key).isSome → n'.links.find? key = n.links.find? key) ∧
    n'.stores = n.stores ∧ n'.receiverLists = n.receiverLists := by
  obtain ⟨-, -, heq⟩ := bind_eq_ok.1 heq
  rcases he : n.links.enter (family, name) n.freshLink with ⟨slot, links⟩
  obtain ⟨hsound, hfind, hkeep, hlook⟩ := hn.links.enter he
  rw [he] at heq
  cases heq
  refine ⟨⟨hsound.modify _ _, hn.stores, hn.receivers⟩, by simp [hfind], ?_,
    fun key hkey => hkeep key (.inr hkey), rfl, rfl⟩
  intro family' name'
  simp only [linkOf, hsound.lookup_modify hfind, hlook]
  split <;> rfl

/-- What joining a store does: the store of the name is grown and changed, and nothing else. -/
theorem joinStore_eq {n n' : Names} (hn : n.Sound) {kind : StoreKind} {name : Symbol}
    {length : Nat} {f : Store → Store} {h : Handle}
    (heq : n.joinStore kind name length f = .ok (h, n')) :
    n'.Sound ∧ (n'.stores.find? (kind, name)).map Handle.store = some h ∧
    (∀ kind' name', n'.storeOf kind' name' =
      if (kind', name') = (kind, name) then f ((n.storeOf kind' name').growTo length)
      else n.storeOf kind' name') ∧
    (∀ key, (n.stores.find? key).isSome → n'.stores.find? key = n.stores.find? key) ∧
    n'.links = n.links ∧ n'.receiverLists = n.receiverLists ∧ n'.blockSize = n.blockSize := by
  obtain ⟨-, -, heq⟩ := bind_eq_ok.1 heq
  rcases he : n.stores.enter (kind, name) {} with ⟨slot, stores⟩
  obtain ⟨hsound, hfind, hkeep, hlook⟩ := hn.stores.enter he
  rw [he] at heq
  cases heq
  refine ⟨⟨hn.links, hsound.modify _ _, hn.receivers⟩, by simp [hfind], ?_,
    fun key hkey => hkeep key (.inr hkey), rfl, rfl, rfl⟩
  intro kind' name'
  simp only [storeOf, hsound.lookup_modify hfind, hlook]
  split <;> rfl

/-- Growing a store does not change who uses it. -/
@[simp]
theorem owners_growTo (s : Store) (length : Nat) : (s.growTo length).owners = s.owners := rfl

@[simp]
theorem accessors_growTo (s : Store) (length : Nat) :
    (s.growTo length).accessors = s.accessors := rfl

/-- Registering a unit puts it at the end of its seat, and leaves every other seat alone. Where
somebody sat before, the handle stays. -/
theorem register_eq {n n' : Names} (hn : n.Sound) {unit : UnitId} {role : Registration}
    {h : Option Handle} (heq : n.register unit role = .ok (h, n')) :
    n'.Sound ∧ n'.slot? role.seat = h ∧
    (∀ s, n'.seated s = n.seated s ++ if s = role.seat then [unit] else []) ∧
    ∀ s, n.seated s ≠ [] → n'.slot? s = n.slot? s := by
  cases role with
  | emitter family name =>
    obtain ⟨⟨_, _⟩, hjoin, heq⟩ := bind_eq_ok.1 heq
    cases heq
    obtain ⟨hn', hslot, hlink, hkeep, hstores, hreceivers⟩ := joinLink_eq hn hjoin
    refine ⟨hn', hslot, fun s => ?_, fun s hs => ?_⟩
    · cases s <;> simp [seated, storeOf, hstores, hreceivers, hlink, Registration.seat] <;>
        split <;> simp_all
    · cases s with
      | emitter family' name' =>
        exact congrArg (Option.map Handle.link) (hkeep _ (link_isSome (.inl hs)))
      | collector family' name' =>
        exact congrArg (Option.map Handle.link) (hkeep _ (link_isSome (.inr hs)))
      | owner kind' name' => simp [slot?, hstores]
      | accessor kind' name' => simp [slot?, hstores]
      | receiver name' => rfl
  | collector family name =>
    obtain ⟨⟨_, _⟩, hjoin, heq⟩ := bind_eq_ok.1 heq
    cases heq
    obtain ⟨hn', hslot, hlink, hkeep, hstores, hreceivers⟩ := joinLink_eq hn hjoin
    refine ⟨hn', hslot, fun s => ?_, fun s hs => ?_⟩
    · cases s <;> simp [seated, storeOf, hstores, hreceivers, hlink, Registration.seat] <;>
        split <;> simp_all
    · cases s with
      | emitter family' name' =>
        exact congrArg (Option.map Handle.link) (hkeep _ (link_isSome (.inl hs)))
      | collector family' name' =>
        exact congrArg (Option.map Handle.link) (hkeep _ (link_isSome (.inr hs)))
      | owner kind' name' => simp [slot?, hstores]
      | accessor kind' name' => simp [slot?, hstores]
      | receiver name' => rfl
  | receiver name =>
    cases heq
    refine ⟨⟨hn.links, hn.stores, nodup_addReceiver hn.receivers⟩, rfl, fun s => ?_, fun s _ => ?_⟩
    · cases s <;> simp [seated, linkOf, storeOf, freshLink, Registration.seat, find?_addReceiver]
    · cases s <;> rfl
  | owner kind name length =>
    obtain ⟨⟨_, _⟩, hjoin, heq⟩ := bind_eq_ok.1 heq
    cases heq
    obtain ⟨hn', hslot, hstore, hkeep, hlinks, hreceivers, hblock⟩ := joinStore_eq hn hjoin
    refine ⟨hn', hslot, fun s => ?_, fun s hs => ?_⟩
    · cases s <;> simp [seated, linkOf, freshLink, hlinks, hblock, hreceivers, hstore,
        Registration.seat] <;> split <;> simp_all
    · cases s with
      | owner kind' name' =>
        exact congrArg (Option.map Handle.store) (hkeep _ (store_isSome (.inl hs)))
      | accessor kind' name' =>
        exact congrArg (Option.map Handle.store) (hkeep _ (store_isSome (.inr hs)))
      | emitter family' name' => simp [slot?, hlinks]
      | collector family' name' => simp [slot?, hlinks]
      | receiver name' => rfl
  | accessor kind name =>
    obtain ⟨⟨_, _⟩, hjoin, heq⟩ := bind_eq_ok.1 heq
    cases heq
    obtain ⟨hn', hslot, hstore, hkeep, hlinks, hreceivers, hblock⟩ := joinStore_eq hn hjoin
    refine ⟨hn', hslot, fun s => ?_, fun s hs => ?_⟩
    · cases s <;> simp [seated, linkOf, freshLink, hlinks, hblock, hreceivers, hstore,
        Registration.seat] <;> split <;> simp_all
    · cases s with
      | owner kind' name' =>
        exact congrArg (Option.map Handle.store) (hkeep _ (store_isSome (.inl hs)))
      | accessor kind' name' =>
        exact congrArg (Option.map Handle.store) (hkeep _ (store_isSome (.inr hs)))
      | emitter family' name' => simp [slot?, hlinks]
      | collector family' name' => simp [slot?, hlinks]
      | receiver name' => rfl

/-! ## Leaving -/

/-- What leaving a link does: the link of the name is changed, and dropped if that leaves it
unused. -/
theorem leaveLink_eq {n : Names} (hn : n.Sound) (family : LinkFamily) (name : Symbol)
    {f : Link → Link} (hfresh : f n.freshLink = n.freshLink) :
    (n.leaveLink family name f).Sound ∧
    (∀ family' name', (n.leaveLink family name f).linkOf family' name' =
      if (family', name') = (family, name) then (f (n.linkOf family' name')).kept n.blockSize
      else n.linkOf family' name') ∧
    ∀ key, ((n.leaveLink family name f).links.find? key).isSome →
      (n.leaveLink family name f).links.find? key = n.links.find? key := by
  obtain ⟨hsound, hlook, hfind⟩ := hn.links.leave (family, name) f Link.isUnused
  refine ⟨⟨hsound, hn.stores, hn.receivers⟩, fun family' name' => ?_, hfind⟩
  by_cases hkey : (family', name') = (family, name)
  · simp only [linkOf, leaveLink, hlook, hkey, if_true]
    cases hl : n.links.lookup (family, name) with
    | none =>
      have hkept : n.freshLink.kept n.blockSize = n.freshLink := rfl
      simp only [Option.map_none, Option.filter_none, Option.getD_none, hfresh, hkept]
      rfl
    | some l => by_cases hu : (f l).isUnused = true <;> simp [Option.filter_some, hu, Link.kept, freshLink]
  · simp [linkOf, leaveLink, hlook, hkey, freshLink]

/-- What leaving a store does: the store of the name is changed, and dropped if that leaves it
unused. -/
theorem leaveStore_eq {n : Names} (hn : n.Sound) (kind : StoreKind) (name : Symbol)
    {f : Store → Store} (hfresh : f {} = {}) :
    (n.leaveStore kind name f).Sound ∧
    (∀ kind' name', (n.leaveStore kind name f).storeOf kind' name' =
      if (kind', name') = (kind, name) then (f (n.storeOf kind' name')).kept
      else n.storeOf kind' name') ∧
    ∀ key, ((n.leaveStore kind name f).stores.find? key).isSome →
      (n.leaveStore kind name f).stores.find? key = n.stores.find? key := by
  obtain ⟨hsound, hlook, hfind⟩ := hn.stores.leave (kind, name) f Store.isUnused
  refine ⟨⟨hn.links, hsound, hn.receivers⟩, fun kind' name' => ?_, hfind⟩
  by_cases hkey : (kind', name') = (kind, name)
  · simp only [storeOf, leaveStore, hlook, hkey, if_true]
    cases hs : n.stores.lookup (kind, name) with
    | none => simp [hfresh, Store.kept, Store.isUnused]
    | some s => by_cases hu : (f s).isUnused = true <;> simp [Option.filter_some, hu, Store.kept]
  · simp [storeOf, leaveStore, hlook, hkey]

/-- Taking a unit out of its role removes it from its seat, and leaves every other seat alone.
Where somebody still sits, the handle stays. -/
theorem unregister_eq {n : Names} (hn : n.Sound) (unit : UnitId) (role : Registration) :
    (n.unregister unit role).Sound ∧
    (∀ s, (n.unregister unit role).seated s =
      if s = role.seat then (n.seated s).filter (· ≠ unit) else n.seated s) ∧
    ∀ s, (n.unregister unit role).seated s ≠ [] →
      (n.unregister unit role).slot? s = n.slot? s := by
  cases role with
  | emitter family name =>
    obtain ⟨hsound, hlink, hfind⟩ := leaveLink_eq hn family name
      (f := fun l => { l with emitters := l.emitters.filter (· ≠ unit) }) (by simp [freshLink])
    refine ⟨hsound, fun s => ?_, fun s hs => ?_⟩
    · cases s <;> simp only [seated, unregister, hlink, Registration.seat] <;>
        first | rfl | (simp; done) | (split <;> simp_all)
    · cases s with
      | emitter family' name' =>
        exact congrArg (Option.map Handle.link) (hfind _ (link_isSome (.inl hs)))
      | collector family' name' =>
        exact congrArg (Option.map Handle.link) (hfind _ (link_isSome (.inr hs)))
      | _ => rfl
  | collector family name =>
    obtain ⟨hsound, hlink, hfind⟩ := leaveLink_eq hn family name
      (f := fun l => { l with collectors := l.collectors.filter (· ≠ unit) }) (by simp [freshLink])
    refine ⟨hsound, fun s => ?_, fun s hs => ?_⟩
    · cases s <;> simp only [seated, unregister, hlink, Registration.seat] <;>
        first | rfl | (simp; done) | (split <;> simp_all)
    · cases s with
      | emitter family' name' =>
        exact congrArg (Option.map Handle.link) (hfind _ (link_isSome (.inl hs)))
      | collector family' name' =>
        exact congrArg (Option.map Handle.link) (hfind _ (link_isSome (.inr hs)))
      | _ => rfl
  | receiver name =>
    refine ⟨⟨hn.links, hn.stores, nodup_dropReceiver hn.receivers⟩, fun s => ?_, fun s _ => ?_⟩
    · cases s with
      | receiver key =>
        simp only [seated, unregister, find?_dropReceiver hn.receivers, Registration.seat]
        by_cases hkey : key = name <;> simp [hkey]
      | _ => rfl
    · cases s <;> rfl
  | owner kind name length =>
    obtain ⟨hsound, hstore, hfind⟩ := leaveStore_eq hn kind name
      (f := fun s => { s with owners := s.owners.filter (· ≠ unit) }) rfl
    refine ⟨hsound, fun s => ?_, fun s hs => ?_⟩
    · cases s <;> simp only [seated, unregister, hstore, Registration.seat] <;>
        first | rfl | (simp; done) | (split <;> simp_all)
    · cases s with
      | owner kind' name' =>
        exact congrArg (Option.map Handle.store) (hfind _ (store_isSome (.inl hs)))
      | accessor kind' name' =>
        exact congrArg (Option.map Handle.store) (hfind _ (store_isSome (.inr hs)))
      | _ => rfl
  | accessor kind name =>
    obtain ⟨hsound, hstore, hfind⟩ := leaveStore_eq hn kind name
      (f := fun s => { s with accessors := s.accessors.filter (· ≠ unit) }) rfl
    refine ⟨hsound, fun s => ?_, fun s hs => ?_⟩
    · cases s <;> simp only [seated, unregister, hstore, Registration.seat] <;>
        first | rfl | (simp; done) | (split <;> simp_all)
    · cases s with
      | owner kind' name' =>
        exact congrArg (Option.map Handle.store) (hfind _ (store_isSome (.inl hs)))
      | accessor kind' name' =>
        exact congrArg (Option.map Handle.store) (hfind _ (store_isSome (.inr hs)))
      | _ => rfl

/-! ## Writing on buses and in stores -/

/-- What a lookup shows after the value in one slot has changed. -/
theorem lookup_modify_eq {κ α β : Type} [DecidableEq κ] {d : Directory κ α} (f : α → α) (view : α → β)
    (hf : ∀ a, view (f a) = view a) (slot : Nat) (key : κ) :
    ((d.modify slot f).lookup key).map view = (d.lookup key).map view := by
  cases h : d.find? key with
  | none => simp [Directory.lookup, h]
  | some s =>
    simp only [Directory.lookup, Directory.find?_modify, h, Option.bind_some, Directory.get?_modify]
    split
    · cases d.get? s <;> simp [hf]
    · rfl

/-- What is on a bus says nothing about who is registered. -/
theorem sameSeats_setBus (n : Names) (slot : Nat) (bus : Samples) : n.SameSeats (n.setBus slot bus) := by
  have hlink : ∀ {β : Type} (view : Link → β), (∀ l : Link, view { l with bus } = view l) →
      ∀ family name, view ((n.setBus slot bus).linkOf family name) = view (n.linkOf family name) := by
    intro β view hview family name
    have := lookup_modify_eq (d := n.links) (fun l : Link => { l with bus }) view hview slot
      (family, name)
    simp only [linkOf, setBus, freshLink]
    cases h : n.links.lookup (family, name) <;>
      cases h' : (n.links.modify slot fun l => { l with bus }).lookup (family, name) <;>
        simp_all
  refine ⟨fun h => ⟨h.links.modify slot _, h.stores, h.receivers⟩, fun s => ?_, fun s => ?_⟩
  · cases s with
    | emitter family name => exact hlink Link.emitters (fun _ => rfl) family name
    | collector family name => exact hlink Link.collectors (fun _ => rfl) family name
    | receiver name => rfl
    | owner kind name => rfl
    | accessor kind name => rfl
  · cases s <;> rfl

/-- What is in a store says nothing about who is registered. -/
theorem sameSeats_setStore (n : Names) (slot : Nat) (store : Store) :
    n.SameSeats (n.setStore slot store) := by
  have hstore : ∀ {β : Type} (view : Store → β),
      (∀ s : Store, view { store with owners := s.owners, accessors := s.accessors } = view s) →
      ∀ kind name, view ((n.setStore slot store).storeOf kind name) = view (n.storeOf kind name) := by
    intro β view hview kind name
    have := lookup_modify_eq (d := n.stores)
      (fun s : Store => { store with owners := s.owners, accessors := s.accessors }) view hview slot
      (kind, name)
    simp only [storeOf, setStore]
    cases h : n.stores.lookup (kind, name) <;>
      cases h' : (n.stores.modify slot fun s =>
          { store with owners := s.owners, accessors := s.accessors }).lookup (kind, name) <;>
        simp_all
  refine ⟨fun h => ⟨h.links, h.stores.modify slot _, h.receivers⟩, fun s => ?_, fun s => ?_⟩
  · cases s with
    | emitter family name => rfl
    | collector family name => rfl
    | receiver name => rfl
    | owner kind name => exact hstore Store.owners (fun _ => rfl) kind name
    | accessor kind name => exact hstore Store.accessors (fun _ => rfl) kind name
  · cases s <;> rfl

theorem sameSeats_clearBuses (n : Names) : n.SameSeats n.clearBuses := by
  have hlink : ∀ {β : Type} (view : Link → β),
      (∀ l : Link, view { l with bus := silence l.bus.size } = view l) →
      ∀ family name, view (n.clearBuses.linkOf family name) = view (n.linkOf family name) := by
    intro β view hview family name
    simp only [linkOf, clearBuses, freshLink, Directory.Sound.lookup_mapValues]
    cases n.links.lookup (family, name) <;> simp [hview]
  refine ⟨fun h => ⟨h.links.mapValues _, h.stores, h.receivers⟩, fun s => ?_, fun s => ?_⟩
  · cases s with
    | emitter family name => exact hlink Link.emitters (fun _ => rfl) family name
    | collector family name => exact hlink Link.collectors (fun _ => rfl) family name
    | receiver name => rfl
    | owner kind name => rfl
    | accessor kind name => rfl
  · cases s <;> rfl

end Names
end Patchbay
