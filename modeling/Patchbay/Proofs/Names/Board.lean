import Patchbay.Proofs.Names.Seats

/-!
# Names without slots

A `Board` is what the registry keeps without the slots that it keeps it in: a plain map from names to
links and stores, in which a name that nobody uses has a fresh one. Every operation on the registry
is an operation on the board (`board_register`, `board_unregister` and so on).
-/

namespace Patchbay

/-- What a role is about. -/
inductive Key where
  | link (family : LinkFamily) (name : Symbol)
  | store (kind : StoreKind) (name : Symbol)
  | receiver (name : Symbol)
deriving DecidableEq

/-- What a seat is at. -/
def Seat.key : Seat → Key
  | .emitter family name | .collector family name => .link family name
  | .receiver name => .receiver name
  | .owner kind name | .accessor kind name => .store kind name

/-- What is kept under each name. -/
structure Board where
  links : LinkFamily → Symbol → Link
  stores : StoreKind → Symbol → Store

namespace Board

/-- The board before anybody is registered. -/
def fresh (blockSize : Nat) : Board where
  links _ _ := { bus := silence blockSize }
  stores _ _ := {}

/-- Changes the link of a name. -/
def modifyLink (b : Board) (family : LinkFamily) (name : Symbol) (f : Link → Link) : Board :=
  { b with
    links := fun family' name' =>
      if (family', name') = (family, name) then f (b.links family' name')
      else b.links family' name' }

/-- Changes the store of a name. -/
def modifyStore (b : Board) (kind : StoreKind) (name : Symbol) (f : Store → Store) : Board :=
  { b with
    stores := fun kind' name' =>
      if (kind', name') = (kind, name) then f (b.stores kind' name') else b.stores kind' name' }

/-- Adds a unit in its role. An owner that asks for more samples than there are has silence added at
the end. -/
def register (b : Board) (unit : UnitId) : Registration → Board
  | .emitter family name =>
    b.modifyLink family name fun l => { l with emitters := l.emitters ++ [unit] }
  | .collector family name =>
    b.modifyLink family name fun l => { l with collectors := l.collectors ++ [unit] }
  | .receiver _ => b
  | .owner kind name length =>
    b.modifyStore kind name fun s =>
      { s with
        samples := s.samples ++ silence (length - s.length), owners := s.owners ++ [unit] }
  | .accessor kind name =>
    b.modifyStore kind name fun s => { s with accessors := s.accessors ++ [unit] }

/-- Takes a unit out of its role. -/
def unregister (b : Board) (blockSize : Nat) (unit : UnitId) : Registration → Board
  | .emitter family name =>
    b.modifyLink family name fun l =>
      { l with emitters := l.emitters.filter (· ≠ unit) }.kept blockSize
  | .collector family name =>
    b.modifyLink family name fun l =>
      { l with collectors := l.collectors.filter (· ≠ unit) }.kept blockSize
  | .receiver _ => b
  | .owner kind name _ =>
    b.modifyStore kind name fun s => { s with owners := s.owners.filter (· ≠ unit) }.kept
  | .accessor kind name =>
    b.modifyStore kind name fun s => { s with accessors := s.accessors.filter (· ≠ unit) }.kept

/-- Silences all buses. -/
def clear (b : Board) : Board :=
  { b with
    links := fun family name =>
      { b.links family name with bus := silence (b.links family name).bus.size } }

/-- Writes on the bus of a name. -/
def writeBus (b : Board) (bus : Samples) : Key → Board
  | .link family name => b.modifyLink family name fun l => { l with bus }
  | _ => b

/-- Writes the samples of a store, and moves its write position. -/
def writeStore (b : Board) (samples : Samples) (head : Nat) : Key → Board
  | .store kind name => b.modifyStore kind name fun s => { s with samples }.setHead head
  | _ => b

end Board

namespace Names

variable {n n' : Names}

/-- What a registry keeps under each name. -/
def board (n : Names) : Board := ⟨n.linkOf, n.storeOf⟩

theorem board_fresh (blockSize : Nat) : board { blockSize } = .fresh blockSize := rfl

/-- A store that is grown has silence added at its end. -/
theorem growTo_eq (s : Store) (length : Nat) :
    s.growTo length = { s with samples := s.samples ++ silence (length - s.length) } := by
  unfold Store.growTo
  split
  · next h =>
    have hempty : s.samples = #[] := Array.isEmpty_iff.1 h
    rw [Store.length, hempty]
    simp
  · rfl

theorem growTo_zero (s : Store) : s.growTo 0 = s := by
  rw [growTo_eq, Nat.zero_sub]
  simp [silence]

/-- Registering a unit adds it to the board. -/
theorem board_register (hn : n.Sound) {unit : UnitId} {role : Registration} {h : Option Handle}
    (heq : n.register unit role = .ok (h, n')) : n'.board = n.board.register unit role := by
  cases role with
  | emitter family name | collector family name =>
    obtain ⟨⟨_, _⟩, hjoin, heq⟩ := bind_eq_ok.1 heq
    cases heq
    obtain ⟨-, -, hlink, -, hstores, -⟩ := joinLink_eq hn hjoin
    refine Board.mk.injEq .. ▸ ⟨?_, ?_⟩
    · funext family' name'
      exact hlink family' name'
    · funext kind name'
      rw [storeOf, hstores]
      rfl
  | receiver name =>
    cases heq
    rfl
  | owner kind name length =>
    obtain ⟨⟨_, _⟩, hjoin, heq⟩ := bind_eq_ok.1 heq
    cases heq
    obtain ⟨-, -, hstore, -, hlinks, -, hblock⟩ := joinStore_eq hn hjoin
    refine Board.mk.injEq .. ▸ ⟨?_, ?_⟩
    · funext family name'
      rw [linkOf, hlinks, freshLink, hblock]
      rfl
    · funext kind' name'
      rw [hstore, growTo_eq]
      rfl
  | accessor kind name =>
    obtain ⟨⟨_, _⟩, hjoin, heq⟩ := bind_eq_ok.1 heq
    cases heq
    obtain ⟨-, -, hstore, -, hlinks, -, hblock⟩ := joinStore_eq hn hjoin
    refine Board.mk.injEq .. ▸ ⟨?_, ?_⟩
    · funext family name'
      rw [linkOf, hlinks, freshLink, hblock]
      rfl
    · funext kind' name'
      rw [hstore, growTo_zero]
      rfl

/-- Taking a unit out of its role takes it off the board. -/
theorem board_unregister (hn : n.Sound) (unit : UnitId) (role : Registration) :
    (n.unregister unit role).board = n.board.unregister n.blockSize unit role := by
  cases role with
  | emitter family name | collector family name =>
    refine Board.mk.injEq .. ▸ ⟨?_, rfl⟩
    funext family' name'
    exact (leaveLink_eq hn family name (by simp [freshLink])).2.1 family' name'
  | receiver name => rfl
  | owner kind name _ | accessor kind name =>
    refine Board.mk.injEq .. ▸ ⟨rfl, ?_⟩
    funext kind' name'
    exact (leaveStore_eq hn kind name rfl).2.1 kind' name'

theorem size_silence (length : Nat) : (silence length).size = length := Array.size_replicate

theorem board_clearBuses (n : Names) : n.clearBuses.board = n.board.clear := by
  refine Board.mk.injEq .. ▸ ⟨?_, rfl⟩
  funext family name
  simp only [linkOf, board, clearBuses, freshLink, Directory.Sound.lookup_mapValues]
  cases n.links.lookup (family, name) with
  | none => simp [size_silence]
  | some l => rfl

/-! ## Writing -/

/-- What is written on the bus in the slot of a name is on the bus of that name. -/
theorem board_setBus (hn : n.Sound) {family : LinkFamily} {name : Symbol} {slot : Nat}
    (h : n.links.find? (family, name) = some slot) (bus : Samples) :
    (n.setBus slot bus).board = n.board.writeBus bus (.link family name) := by
  obtain ⟨l, hl⟩ := Option.isSome_iff_exists.1 (hn.links.isSome_of_find? h)
  refine Board.mk.injEq .. ▸ ⟨?_, rfl⟩
  funext family' name'
  show ((n.setBus slot bus).links.lookup (family', name')).getD _ = _
  rw [setBus, hn.links.lookup_modify h]
  show _ = if (family', name') = (family, name) then _ else n.linkOf family' name'
  split
  · next hkey =>
    cases hkey
    simp [linkOf, hn.links.lookup_eq h, hl, board]
  · rfl

/-- A slot without a link has no bus to write on. -/
theorem board_setBus_of_none {slot : Nat} (h : n.links.get? slot = none) (bus : Samples) :
    (n.setBus slot bus).board = n.board := by
  refine Board.mk.injEq .. ▸ ⟨?_, rfl⟩
  funext family name
  have hget : ∀ t, (n.setBus slot bus).links.get? t = n.links.get? t := by
    intro t
    rw [setBus, Directory.get?_modify]
    split
    · next ht => rw [ht, h, Option.map_none]
    · rfl
  show ((n.links.find? (family, name)).bind _).getD _ = ((n.links.find? (family, name)).bind _).getD _
  cases n.links.find? (family, name) with
  | none => rfl
  | some t =>
    rw [Option.bind_some, Option.bind_some, hget]
    rfl

/-- What is written into the store in the slot of a name is in the store of that name. -/
theorem board_setStore (hn : n.Sound) {kind : StoreKind} {name : Symbol} {slot : Nat} {s : Store}
    (h : n.stores.find? (kind, name) = some slot) (hs : n.stores.get? slot = some s)
    (samples : Samples) (head : Nat) :
    (n.setStore slot ({ s with samples }.setHead head)).board =
      n.board.writeStore samples head (.store kind name) := by
  refine Board.mk.injEq .. ▸ ⟨rfl, ?_⟩
  funext kind' name'
  show ((n.setStore slot _).stores.lookup (kind', name')).getD _ = _
  rw [setStore, hn.stores.lookup_modify h]
  show _ = if (kind', name') = (kind, name) then _ else n.storeOf kind' name'
  split
  · next hkey =>
    cases hkey
    simp only [hn.stores.lookup_eq h, hs, Option.map_some, Option.getD_some, board, storeOf]
    rfl
  · rfl

/-! ## Names in use -/

/-- That nothing is kept under names that nobody uses. -/
structure InUse (n : Names) : Prop where
  links : ∀ key l, n.links.lookup key = some l → l.isUnused = false
  stores : ∀ key s, n.stores.lookup key = some s → s.isUnused = false

theorem inUse_fresh (blockSize : Nat) : InUse { blockSize } :=
  ⟨fun _ _ h => (by cases h), fun _ _ h => (by cases h)⟩

/-- What keeps who uses the links and stores keeps them in use. -/
theorem InUse.of_views (h : n.InUse)
    (hlinks : ∀ key, (n'.links.lookup key).map Link.isUnused =
      (n.links.lookup key).map Link.isUnused)
    (hstores : ∀ key, (n'.stores.lookup key).map Store.isUnused =
      (n.stores.lookup key).map Store.isUnused) : n'.InUse := by
  constructor
  · intro key l hl
    have hview := hlinks key
    rw [hl, Option.map_some, eq_comm, Option.map_eq_some_iff] at hview
    obtain ⟨l₀, hl₀, hsame⟩ := hview
    rw [← hsame, h.links key l₀ hl₀]
  · intro key s hs
    have hview := hstores key
    rw [hs, Option.map_some, eq_comm, Option.map_eq_some_iff] at hview
    obtain ⟨s₀, hs₀, hsame⟩ := hview
    rw [← hsame, h.stores key s₀ hs₀]

theorem inUse_joinLink (hn : n.Sound) (hu : n.InUse) {family : LinkFamily} {name : Symbol}
    {f : Link → Link} {h : Handle} (hf : ∀ l, (f l).isUnused = false)
    (heq : n.joinLink family name f = .ok (h, n')) : n'.InUse := by
  obtain ⟨-, -, heq⟩ := bind_eq_ok.1 heq
  rcases he : n.links.enter (family, name) n.freshLink with ⟨slot, links⟩
  obtain ⟨hsound, hfind, -, hlook⟩ := hn.links.enter he
  rw [he] at heq
  cases heq
  refine ⟨fun key l hl => ?_, hu.stores⟩
  rw [hsound.lookup_modify hfind, hlook] at hl
  split at hl
  · rw [Option.map_some, Option.some.injEq] at hl
    rw [← hl, hf]
  · exact hu.links key l hl

theorem inUse_joinStore (hn : n.Sound) (hu : n.InUse) {kind : StoreKind} {name : Symbol}
    {length : Nat} {f : Store → Store} {h : Handle} (hf : ∀ s, (f s).isUnused = false)
    (heq : n.joinStore kind name length f = .ok (h, n')) : n'.InUse := by
  obtain ⟨-, -, heq⟩ := bind_eq_ok.1 heq
  rcases he : n.stores.enter (kind, name) {} with ⟨slot, stores⟩
  obtain ⟨hsound, hfind, -, hlook⟩ := hn.stores.enter he
  rw [he] at heq
  cases heq
  refine ⟨hu.links, fun key s hs => ?_⟩
  rw [hsound.lookup_modify hfind, hlook] at hs
  split at hs
  · rw [Option.map_some, Option.some.injEq] at hs
    rw [← hs, hf]
  · exact hu.stores key s hs

theorem InUse.register (hu : n.InUse) (hn : n.Sound) {unit : UnitId} {role : Registration}
    {h : Option Handle} (heq : n.register unit role = .ok (h, n')) : n'.InUse := by
  cases role with
  | emitter family name | collector family name =>
    obtain ⟨⟨_, _⟩, hjoin, heq⟩ := bind_eq_ok.1 heq
    cases heq
    exact inUse_joinLink hn hu (fun l => by simp [Link.isUnused]) hjoin
  | receiver name =>
    cases heq
    exact ⟨hu.links, hu.stores⟩
  | owner kind name length | accessor kind name =>
    obtain ⟨⟨_, _⟩, hjoin, heq⟩ := bind_eq_ok.1 heq
    cases heq
    exact inUse_joinStore hn hu (fun s => by simp [Store.isUnused]) hjoin

theorem InUse.leaveLink (hu : n.InUse) (hn : n.Sound) (family : LinkFamily) (name : Symbol)
    (f : Link → Link) : (n.leaveLink family name f).InUse := by
  refine ⟨fun key l hl => ?_, hu.stores⟩
  rw [Names.leaveLink, (hn.links.leave (family, name) f Link.isUnused).2.1] at hl
  split at hl
  · simpa using (Option.filter_eq_some_iff.1 hl).2
  · exact hu.links key l hl

theorem InUse.leaveStore (hu : n.InUse) (hn : n.Sound) (kind : StoreKind) (name : Symbol)
    (f : Store → Store) : (n.leaveStore kind name f).InUse := by
  refine ⟨hu.links, fun key s hs => ?_⟩
  rw [Names.leaveStore, (hn.stores.leave (kind, name) f Store.isUnused).2.1] at hs
  split at hs
  · simpa using (Option.filter_eq_some_iff.1 hs).2
  · exact hu.stores key s hs

theorem InUse.unregister (hu : n.InUse) (hn : n.Sound) (unit : UnitId) (role : Registration) :
    (n.unregister unit role).InUse := by
  cases role with
  | emitter family name | collector family name => exact hu.leaveLink hn family name _
  | receiver name => exact ⟨hu.links, hu.stores⟩
  | owner kind name _ | accessor kind name => exact hu.leaveStore hn kind name _

theorem InUse.clearBuses (hu : n.InUse) : n.clearBuses.InUse := by
  refine hu.of_views (fun key => ?_) fun _ => rfl
  rw [Names.clearBuses, Directory.Sound.lookup_mapValues, Option.map_map]
  rfl

theorem InUse.setBus (hu : n.InUse) (slot : Nat) (bus : Samples) : (n.setBus slot bus).InUse :=
  hu.of_views (lookup_modify_eq (fun l : Link => { l with bus }) Link.isUnused (fun _ => rfl) slot)
    fun _ => rfl

theorem InUse.setStore (hu : n.InUse) (slot : Nat) (store : Store) : (n.setStore slot store).InUse :=
  hu.of_views (fun _ => rfl) (lookup_modify_eq
    (fun s : Store => { store with owners := s.owners, accessors := s.accessors }) Store.isUnused
    (fun _ => rfl) slot)

/-- The link of a name is there if, and only if, somebody uses it. -/
theorem InUse.isSome_link_iff (hu : n.InUse) (hn : n.Sound) (family : LinkFamily) (name : Symbol) :
    (n.links.find? (family, name)).isSome ↔
      n.seated (.emitter family name) ≠ [] ∨ n.seated (.collector family name) ≠ [] := by
  refine ⟨fun h => ?_, link_isSome⟩
  obtain ⟨slot, hslot⟩ := Option.isSome_iff_exists.1 h
  obtain ⟨l, hl⟩ := Option.isSome_iff_exists.1 (hn.links.isSome_of_find? hslot)
  have hlook : n.links.lookup (family, name) = some l := (hn.links.lookup_eq hslot).trans hl
  have hused := hu.links _ l hlook
  rw [Link.isUnused, Bool.and_eq_false_iff, List.isEmpty_eq_false_iff, List.isEmpty_eq_false_iff]
    at hused
  simpa [seated, linkOf, hlook] using hused

/-- The store of a name is there if, and only if, somebody uses it. -/
theorem InUse.isSome_store_iff (hu : n.InUse) (hn : n.Sound) (kind : StoreKind) (name : Symbol) :
    (n.stores.find? (kind, name)).isSome ↔
      n.seated (.owner kind name) ≠ [] ∨ n.seated (.accessor kind name) ≠ [] := by
  refine ⟨fun h => ?_, store_isSome⟩
  obtain ⟨slot, hslot⟩ := Option.isSome_iff_exists.1 h
  obtain ⟨s, hs⟩ := Option.isSome_iff_exists.1 (hn.stores.isSome_of_find? hslot)
  have hlook : n.stores.lookup (kind, name) = some s := (hn.stores.lookup_eq hslot).trans hs
  have hused := hu.stores _ s hlook
  rw [Store.isUnused, Bool.and_eq_false_iff, List.isEmpty_eq_false_iff, List.isEmpty_eq_false_iff]
    at hused
  simpa [seated, storeOf, hlook] using hused

end Names
end Patchbay
