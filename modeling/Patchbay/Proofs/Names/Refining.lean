import Patchbay.Proofs.Names.Board

/-!
# The registry refines a plain map

Slots are used again, and handles lead to them without a name. A `Roll` has neither slots nor
handles to them: it says who is registered, and what is kept under each name. Whatever is done to the
registry (`Names.Run`), the roll says what it has to show (`Names.Refines`); a handle leads to the name
that it was given out for as long as the unit that holds it is registered (`refines_of_run`).
-/

namespace Patchbay

/-- The family and the name of a link. -/
def Key.link? : Key → Option (LinkFamily × Symbol)
  | .link family name => some (family, name)
  | _ => none

/-- The kind and the name of a store. -/
def Key.store? : Key → Option (StoreKind × Symbol)
  | .store kind name => some (kind, name)
  | _ => none

/-- The lengths that a role asks for the store of a name. -/
def Registration.asks (kind : StoreKind) (name : Symbol) : Registration → List Nat
  | .owner kind' name' length => if (kind', name') = (kind, name) then [length] else []
  | _ => []

/-- A unit in its role, with the handle that it was given. -/
structure Member where
  unit : UnitId
  role : Registration
  handle : Option Handle

/-- Who is registered, oldest first, and what is kept under each name. -/
structure Roll where
  members : List Member := []
  /-- The lengths that owners have asked for since the store of a name was made. -/
  asked : StoreKind → Symbol → List Nat := fun _ _ => []
  board : Board

namespace Roll

/-- The units at a seat. -/
def seated (r : Roll) (s : Seat) : List UnitId :=
  (r.members.filter (·.role.seat = s)).map (·.unit)

/-- Whether somebody is registered under a name. -/
def Uses (r : Roll) (key : Key) : Prop := ∃ x ∈ r.members, x.role.seat.key = key

instance (r : Roll) (key : Key) : Decidable (r.Uses key) :=
  inferInstanceAs (Decidable (∃ x ∈ r.members, _))

/-- The names that somebody is registered under. -/
def keys (r : Roll) : List Key := r.members.map (·.role.seat.key)

/-- The name that a handle was given out for. -/
def key? (r : Roll) (h : Handle) : Option Key :=
  (r.members.find? (·.handle = some h)).map (·.role.seat.key)

/-- Adds a unit in its role. -/
def register (r : Roll) (unit : UnitId) (role : Registration) (handle : Option Handle) : Roll where
  members := r.members ++ [⟨unit, role, handle⟩]
  asked kind name := r.asked kind name ++ role.asks kind name
  board := r.board.register unit role

/-- The members without a unit. -/
def without (r : Roll) (unit : UnitId) : Roll :=
  { r with members := r.members.filter (·.unit ≠ unit) }

/-- Takes a unit out of its role. -/
def unregister (r : Roll) (blockSize : Nat) (unit : UnitId) (role : Registration) : Roll where
  members := (r.without unit).members
  asked kind name := if (r.without unit).Uses (.store kind name) then r.asked kind name else []
  board := r.board.unregister blockSize unit role

/-- Silences all buses. -/
def clear (r : Roll) : Roll := { r with board := r.board.clear }

/-- Writes on the bus that a slot leads to. -/
def writeBus (r : Roll) (slot : Nat) (bus : Samples) : Roll :=
  { r with board := (r.key? (.link slot)).elim r.board (r.board.writeBus bus) }

/-- Writes into the store that a slot leads to. -/
def writeStore (r : Roll) (slot : Nat) (samples : Samples) (head : Nat) : Roll :=
  { r with board := (r.key? (.store slot)).elim r.board (r.board.writeStore samples head) }

end Roll

namespace Names

/-- The registries that work on names leads to, each with its roll. A unit plays one role at a time
and is taken out of the role that it plays; and nothing that is written on a bus or into a store
changes its length. -/
inductive Run (blockSize : Nat) : Names → Roll → Prop
  | fresh : Run blockSize { blockSize } { board := .fresh blockSize }
  | registered {n n' : Names} {r : Roll} {unit : UnitId} {role : Registration}
      {handle : Option Handle} : Run blockSize n r → (∀ x ∈ r.members, x.unit ≠ unit) →
      n.register unit role = .ok (handle, n') → Run blockSize n' (r.register unit role handle)
  | unregistered {n : Names} {r : Roll} {x : Member} : Run blockSize n r → x ∈ r.members →
      Run blockSize (n.unregister x.unit x.role) (r.unregister blockSize x.unit x.role)
  | cleared {n : Names} {r : Roll} : Run blockSize n r → Run blockSize n.clearBuses r.clear
  | busWritten {n : Names} {r : Roll} {slot : Nat} {bus : Samples} : Run blockSize n r →
      bus.size = (n.bus slot).size → Run blockSize (n.setBus slot bus) (r.writeBus slot bus)
  | storeWritten {n : Names} {r : Roll} {slot : Nat} {s : Store} {samples : Samples} (head : Nat) :
      Run blockSize n r → n.stores.get? slot = some s → samples.size = s.length →
      Run blockSize (n.setStore slot ({ s with samples }.setHead head))
        (r.writeStore slot samples head)

end Names

/-! ## What becomes of the board -/

namespace Board

variable {b : Board} {family : LinkFamily} {kind : StoreKind} {name : Symbol}

theorem bus_register (b : Board) (unit : UnitId) (role : Registration) (family : LinkFamily)
    (name : Symbol) : ((b.register unit role).links family name).bus = (b.links family name).bus := by
  cases role <;> simp only [register, modifyLink, modifyStore]
  all_goals split <;> rfl

theorem head_register (b : Board) (unit : UnitId) (role : Registration) (kind : StoreKind)
    (name : Symbol) :
    ((b.register unit role).stores kind name).head = (b.stores kind name).head := by
  cases role <;> simp only [register, modifyLink, modifyStore]
  all_goals split <;> rfl

/-- A unit that is registered adds silence to a store if it asks for more samples than there are. -/
theorem samples_register (b : Board) (unit : UnitId) (role : Registration) (kind : StoreKind)
    (name : Symbol) : ((b.register unit role).stores kind name).samples =
      (b.stores kind name).samples ++
        silence ((role.asks kind name).foldl max (b.stores kind name).length -
          (b.stores kind name).length) := by
  have hnone : ∀ xs : Samples, xs ++ silence (xs.size - xs.size) = xs := fun xs => by
    simp [silence]
  cases role with
  | owner kind' name' length =>
    simp only [register, modifyStore, Registration.asks]
    by_cases hkey : (kind', name') = (kind, name)
    · rw [if_pos hkey.symm, if_pos hkey, List.foldl_cons, List.foldl_nil]
      show _ ++ silence _ = _ ++ silence _
      congr 2
      omega
    · rw [if_neg fun h => hkey h.symm, if_neg hkey]
      exact (hnone _).symm
  | accessor kind' name' =>
    simp only [register, modifyStore]
    split <;> exact (hnone _).symm
  | emitter | collector | receiver => exact (hnone _).symm

/-- What is taken off the board leaves a store as it was, or drops it. -/
theorem store_unregister (b : Board) (blockSize : Nat) (unit : UnitId) (role : Registration)
    (kind : StoreKind) (name : Symbol) :
    (b.unregister blockSize unit role).stores kind name = {} ∨
      ((b.unregister blockSize unit role).stores kind name).samples =
          (b.stores kind name).samples ∧
        ((b.unregister blockSize unit role).stores kind name).head = (b.stores kind name).head := by
  cases role with
  | owner | accessor =>
    simp only [unregister, modifyStore, Store.kept]
    split
    · split
      · exact .inl rfl
      · exact .inr ⟨rfl, rfl⟩
    · exact .inr ⟨rfl, rfl⟩
  | emitter | collector | receiver => exact .inr ⟨rfl, rfl⟩

theorem bus_unregister (b : Board) (blockSize : Nat) (unit : UnitId) (role : Registration)
    (h : (b.links family name).bus.size = blockSize) :
    ((b.unregister blockSize unit role).links family name).bus.size = blockSize := by
  cases role with
  | emitter | collector =>
    simp only [unregister, modifyLink, Link.kept]
    split
    · split
      · exact Names.size_silence _
      · exact h
    · exact h
  | owner | accessor | receiver => exact h

end Board

namespace Names

variable {n n' : Names} {blockSize : Nat} {r : Roll}

/-! ## The roll is kept -/

/-- That a registry and a roll agree. -/
structure Tracks (n : Names) (blockSize : Nat) (r : Roll) : Prop where
  sound : n.Sound
  inUse : n.InUse
  size : n.blockSize = blockSize
  once : (r.members.map (·.unit)).Nodup
  seated : ∀ s, n.seated s = r.seated s
  handle : ∀ x ∈ r.members, n.slot? x.role.seat = x.handle
  board : n.board = r.board
  buses : ∀ family name, (r.board.links family name).bus.size = blockSize
  lengths : ∀ kind name, (r.board.stores kind name).length = (r.asked kind name).foldl max 0
  heads : ∀ kind name, (r.board.stores kind name).head < (r.board.stores kind name).length ∨
    (r.board.stores kind name).head = 0 ∧ (r.board.stores kind name).length = 0

theorem seated_ne_nil {x : Member} (hx : x ∈ r.members) : r.seated x.role.seat ≠ [] := by
  refine List.ne_nil_of_mem (a := x.unit) (List.mem_map.2 ⟨x, List.mem_filter.2 ⟨hx, ?_⟩, rfl⟩)
  exact decide_eq_true rfl

theorem tracks_fresh (blockSize : Nat) :
    Tracks { blockSize } blockSize { board := .fresh blockSize } where
  sound := sound_fresh blockSize
  inUse := inUse_fresh blockSize
  size := rfl
  once := List.nodup_nil
  seated s := by cases s <;> rfl
  handle x hx := by cases hx
  board := board_fresh blockSize
  buses _ _ := size_silence blockSize
  lengths _ _ := rfl
  heads _ _ := .inr ⟨rfl, rfl⟩

theorem blockSize_register {unit : UnitId} {role : Registration} {handle : Option Handle}
    (heq : n.register unit role = .ok (handle, n')) : n'.blockSize = n.blockSize := by
  cases role with
  | receiver name =>
    cases heq
    rfl
  | emitter | collector | owner | accessor =>
    obtain ⟨⟨_, _⟩, hjoin, heq⟩ := bind_eq_ok.1 heq
    cases heq
    obtain ⟨-, -, hjoin⟩ := bind_eq_ok.1 hjoin
    cases hjoin
    rfl

theorem blockSize_unregister (n : Names) (unit : UnitId) (role : Registration) :
    (n.unregister unit role).blockSize = n.blockSize := by cases role <;> rfl

theorem Tracks.register (ht : n.Tracks blockSize r) {unit : UnitId} {role : Registration}
    {handle : Option Handle} (hnew : ∀ x ∈ r.members, x.unit ≠ unit)
    (heq : n.register unit role = .ok (handle, n')) :
    n'.Tracks blockSize (r.register unit role handle) := by
  obtain ⟨hsound, hslot, hseated, hkept⟩ := register_eq ht.sound heq
  have hboard := (board_register ht.sound heq).trans (congrArg (·.register unit role) ht.board)
  have hlength : ∀ kind name, ((r.board.register unit role).stores kind name).length =
      (role.asks kind name).foldl max (r.board.stores kind name).length := by
    intro kind name
    have hle : ∀ (l : List Nat) (a : Nat), a ≤ l.foldl max a := fun l => by
      induction l with
      | nil => exact fun a => le_rfl
      | cons x l ih => exact fun a => (le_max_left a x).trans (ih _)
    rw [Store.length, Board.samples_register, Array.size_append, size_silence]
    exact Nat.add_sub_of_le (hle _ _)
  refine
    { sound := hsound
      inUse := ht.inUse.register ht.sound heq
      size := (blockSize_register heq).trans ht.size
      once := ?_
      seated := fun s => ?_
      handle := fun x hx => ?_
      board := hboard
      buses := fun family name => ?_
      lengths := fun kind name => ?_
      heads := fun kind name => ?_ }
  · rw [Roll.register, List.map_append, List.nodup_append]
    refine ⟨ht.once, List.nodup_singleton _, fun a ha b hb => ?_⟩
    obtain ⟨x, hx, rfl⟩ := List.mem_map.1 ha
    rw [List.map_singleton, List.mem_singleton] at hb
    exact hb ▸ hnew x hx
  · rw [hseated, ht.seated, Roll.seated, Roll.seated, Roll.register, List.filter_append,
      List.map_append]
    by_cases hs : s = role.seat
    · rw [if_pos hs, List.filter_cons_of_pos (by simpa using hs.symm)]
      rfl
    · rw [if_neg hs, List.filter_cons_of_neg (by simpa using fun h => hs h.symm)]
      rfl
  · rcases List.mem_append.1 hx with hx | hx
    · rw [hkept _ (ht.seated _ ▸ seated_ne_nil hx), ht.handle x hx]
    · cases List.mem_singleton.1 hx
      exact hslot
  · show ((r.board.register unit role).links family name).bus.size = _
    rw [Board.bus_register, ht.buses]
  · show ((r.board.register unit role).stores kind name).length = _
    rw [hlength, ht.lengths, Roll.register, List.foldl_append]
  · show ((r.board.register unit role).stores kind name).head < _ ∨
      ((r.board.register unit role).stores kind name).head = 0 ∧ _
    have hle : (r.board.stores kind name).length ≤
        ((r.board.register unit role).stores kind name).length := by
      rw [Store.length, Store.length, Board.samples_register, Array.size_append]
      omega
    rw [Board.head_register]
    rcases ht.heads kind name with h | ⟨h, -⟩
    · exact .inl (h.trans_le hle)
    · show _ < ((r.board.register unit role).stores kind name).length ∨
        _ ∧ ((r.board.register unit role).stores kind name).length = 0
      omega

theorem Tracks.unregister (ht : n.Tracks blockSize r) {x : Member} (hx : x ∈ r.members) :
    (n.unregister x.unit x.role).Tracks blockSize (r.unregister blockSize x.unit x.role) := by
  obtain ⟨hsound, hseated, hkept⟩ := unregister_eq ht.sound x.unit x.role
  have hinUse := ht.inUse.unregister ht.sound x.unit x.role
  have hboard : (n.unregister x.unit x.role).board =
      (r.unregister blockSize x.unit x.role).board := by
    rw [board_unregister ht.sound, ht.board, ht.size]
    rfl
  -- A unit is registered once, so it is missed at no other seat.
  have hseated' : ∀ s, (n.unregister x.unit x.role).seated s = (r.without x.unit).seated s := by
    intro s
    have hfilter : (r.without x.unit).seated s = (r.seated s).filter (· ≠ x.unit) := by
      rw [Roll.seated, Roll.seated, Roll.without, List.filter_map, List.filter_filter,
        List.filter_filter]
      congr 1
      refine List.filter_congr fun y _ => ?_
      exact Bool.and_comm _ _
    rw [hseated, ht.seated, hfilter]
    split
    · rfl
    · next hs =>
      refine (List.filter_eq_self.2 fun u hu => ?_).symm
      obtain ⟨y, hy, rfl⟩ := List.mem_map.1 hu
      obtain ⟨hy, hseat⟩ := List.mem_filter.1 hy
      refine decide_eq_true fun he => hs ?_
      have hyx : y = x := List.inj_on_of_nodup_map ht.once hy hx he
      rw [← of_decide_eq_true hseat, hyx]
  have hmembers : ∀ y ∈ (r.without x.unit).members, y ∈ r.members :=
    fun y hy => (List.mem_filter.1 hy).1
  -- A store that nobody uses any more is fresh.
  have hgone : ∀ kind name, ¬ (r.without x.unit).Uses (.store kind name) →
      (r.unregister blockSize x.unit x.role).board.stores kind name = {} := by
    intro kind name hno
    have hnobody : ∀ s : Seat, s.key = .store kind name →
        (n.unregister x.unit x.role).seated s = [] := by
      intro s hs
      rw [hseated', Roll.seated, List.map_eq_nil_iff, List.filter_eq_nil_iff]
      intro y hy hseat
      exact hno ⟨y, hy, by rw [of_decide_eq_true hseat, hs]⟩
    have hnone : (n.unregister x.unit x.role).stores.find? (kind, name) = none := by
      refine Option.not_isSome_iff_eq_none.1 fun h => ?_
      rcases (hinUse.isSome_store_iff hsound kind name).1 h with h | h
      · exact h (hnobody _ rfl)
      · exact h (hnobody _ rfl)
    rw [← hboard]
    show ((n.unregister x.unit x.role).stores.lookup (kind, name)).getD {} = {}
    rw [Directory.lookup, hnone]
    rfl
  -- One that somebody uses is as it was.
  have hstays : ∀ kind name, (r.without x.unit).Uses (.store kind name) →
      ((r.unregister blockSize x.unit x.role).board.stores kind name).samples =
          (r.board.stores kind name).samples ∧
        ((r.unregister blockSize x.unit x.role).board.stores kind name).head =
          (r.board.stores kind name).head := by
    rintro kind name ⟨y, hy, hkey⟩
    refine (r.board.store_unregister blockSize x.unit x.role kind name).resolve_left fun hfresh => ?_
    have hstore : (n.unregister x.unit x.role).storeOf kind name = {} :=
      (congrArg (·.stores kind name) hboard).trans hfresh
    refine seated_ne_nil hy ((hseated' _).symm.trans ?_)
    cases hs : y.role.seat with
    | owner kind' name' | accessor kind' name' =>
      rw [hs] at hkey
      cases hkey
      rw [Names.seated, hstore]
    | emitter | collector | receiver =>
      rw [hs] at hkey
      cases hkey
  refine
    { sound := hsound
      inUse := hinUse
      size := (blockSize_unregister n x.unit x.role).trans ht.size
      once := (List.filter_sublist.map _).nodup ht.once
      seated := hseated'
      handle := fun y hy => ?_
      board := hboard
      buses := fun family name => r.board.bus_unregister blockSize x.unit x.role (ht.buses family name)
      lengths := fun kind name => ?_
      heads := fun kind name => ?_ }
  · rw [hkept _ (hseated' _ ▸ seated_ne_nil hy), ht.handle y (hmembers y hy)]
  · have hasked : (r.unregister blockSize x.unit x.role).asked kind name =
        if (r.without x.unit).Uses (.store kind name) then r.asked kind name else [] := rfl
    by_cases hu : (r.without x.unit).Uses (.store kind name)
    · rw [Store.length, (hstays kind name hu).1, hasked, if_pos hu]
      exact ht.lengths kind name
    · rw [hgone kind name hu, hasked, if_neg hu]
      rfl
  · by_cases hu : (r.without x.unit).Uses (.store kind name)
    · rw [Store.length, (hstays kind name hu).1, (hstays kind name hu).2]
      exact ht.heads kind name
    · rw [hgone kind name hu]
      exact .inr ⟨rfl, rfl⟩

/-- What changes neither who is registered nor how long a bus or a store is. -/
theorem Tracks.of_board (ht : n.Tracks blockSize r) (hsame : n.SameSeats n') (hu : n'.InUse)
    (hsize : n'.blockSize = n.blockSize) {b : Board} (hboard : n'.board = b)
    (hbuses : ∀ family name, (b.links family name).bus.size = (r.board.links family name).bus.size)
    (hlengths : ∀ kind name, (b.stores kind name).length = (r.board.stores kind name).length)
    (hheads : ∀ kind name, (b.stores kind name).head = (r.board.stores kind name).head ∨
      (b.stores kind name).head < (b.stores kind name).length ∨ (b.stores kind name).head = 0) :
    n'.Tracks blockSize { r with board := b } where
  sound := hsame.sound ht.sound
  inUse := hu
  size := hsize.trans ht.size
  once := ht.once
  seated s := (hsame.seated s).trans (ht.seated s)
  handle x hx := (hsame.slot? _).trans (ht.handle x hx)
  board := hboard
  buses family name := (hbuses family name).trans (ht.buses family name)
  lengths kind name := (hlengths kind name).trans (ht.lengths kind name)
  heads kind name := by
    have hold := ht.heads kind name
    have hnew := hheads kind name
    have hlength := hlengths kind name
    show (b.stores kind name).head < (b.stores kind name).length ∨
      (b.stores kind name).head = 0 ∧ (b.stores kind name).length = 0
    omega

theorem Tracks.clear (ht : n.Tracks blockSize r) : n.clearBuses.Tracks blockSize r.clear :=
  ht.of_board (sameSeats_clearBuses n) ht.inUse.clearBuses rfl
    ((board_clearBuses n).trans (congrArg Board.clear ht.board))
    (fun _ _ => size_silence _) (fun _ _ => rfl) fun _ _ => .inl rfl

/-! ## Handles -/

/-- Whoever has the slot of a link is at the name of the link. -/
theorem key_of_link (hn : n.Sound) {family : LinkFamily} {name : Symbol} {slot : Nat} {s : Seat}
    (h : n.links.find? (family, name) = some slot) (hs : n.slot? s = some (.link slot)) :
    s.key = .link family name := by
  cases s with
  | emitter family' name' | collector family' name' =>
    obtain ⟨t, ht, hts⟩ := Option.map_eq_some_iff.1 hs
    cases hts
    cases hn.links.key_eq ht h
    rfl
  | owner | accessor =>
    obtain ⟨t, -, hts⟩ := Option.map_eq_some_iff.1 hs
    cases hts
  | receiver => cases hs

/-- Whoever has the slot of a store is at the name of the store. -/
theorem key_of_store (hn : n.Sound) {kind : StoreKind} {name : Symbol} {slot : Nat} {s : Seat}
    (h : n.stores.find? (kind, name) = some slot) (hs : n.slot? s = some (.store slot)) :
    s.key = .store kind name := by
  cases s with
  | owner kind' name' | accessor kind' name' =>
    obtain ⟨t, ht, hts⟩ := Option.map_eq_some_iff.1 hs
    cases hts
    cases hn.stores.key_eq ht h
    rfl
  | emitter | collector =>
    obtain ⟨t, -, hts⟩ := Option.map_eq_some_iff.1 hs
    cases hts
  | receiver => cases hs

/-- The roll knows the name that a handle leads to. -/
theorem Tracks.key?_eq (ht : n.Tracks blockSize r) {h : Handle} {key : Key} {s : Seat}
    (hkey : ∀ s, n.slot? s = some h → s.key = key) (hs : n.slot? s = some h)
    (hseated : n.seated s ≠ []) : r.key? h = some key := by
  obtain ⟨u, hu⟩ := List.exists_mem_of_ne_nil _ (ht.seated s ▸ hseated)
  obtain ⟨x, hx, -⟩ := List.mem_map.1 hu
  obtain ⟨hx, hseat⟩ := List.mem_filter.1 hx
  have hhandle : x.handle = some h := by rw [← ht.handle x hx, of_decide_eq_true hseat, hs]
  rw [Roll.key?]
  cases hf : r.members.find? (·.handle = some h) with
  | none => exact absurd hhandle (by simpa using List.find?_eq_none.1 hf x hx)
  | some y =>
    have hy : y.handle = some h := by simpa using List.find?_some hf
    exact congrArg some (hkey _ ((ht.handle y (List.mem_of_find?_eq_some hf)).trans hy))

/-- The roll knows no name for a handle that nobody has. -/
theorem Tracks.key?_eq_none (ht : n.Tracks blockSize r) {h : Handle}
    (hnone : ∀ s, n.slot? s ≠ some h) : r.key? h = none := by
  rw [Roll.key?, Option.map_eq_none_iff, List.find?_eq_none]
  intro x hx hhandle
  exact hnone x.role.seat ((ht.handle x hx).trans (of_decide_eq_true hhandle))

theorem Tracks.key?_link (ht : n.Tracks blockSize r) {family : LinkFamily} {name : Symbol}
    {slot : Nat} (h : n.links.find? (family, name) = some slot) :
    r.key? (.link slot) = some (.link family name) := by
  have hslot : (n.links.find? (family, name)).map Handle.link = some (.link slot) := by rw [h]; rfl
  have hkey : ∀ s, n.slot? s = some (.link slot) → s.key = .link family name :=
    fun s => key_of_link ht.sound h
  rcases (ht.inUse.isSome_link_iff ht.sound family name).1 (by rw [h]; rfl) with hs | hs
  · exact ht.key?_eq hkey (by exact hslot) hs
  · exact ht.key?_eq hkey (by exact hslot) hs

theorem Tracks.key?_store (ht : n.Tracks blockSize r) {kind : StoreKind} {name : Symbol}
    {slot : Nat} (h : n.stores.find? (kind, name) = some slot) :
    r.key? (.store slot) = some (.store kind name) := by
  have hslot : (n.stores.find? (kind, name)).map Handle.store = some (.store slot) := by
    rw [h]
    rfl
  have hkey : ∀ s, n.slot? s = some (.store slot) → s.key = .store kind name :=
    fun s => key_of_store ht.sound h
  rcases (ht.inUse.isSome_store_iff ht.sound kind name).1 (by rw [h]; rfl) with hs | hs
  · exact ht.key?_eq hkey (by exact hslot) hs
  · exact ht.key?_eq hkey (by exact hslot) hs

/-- Nobody has the slot of a link that is not there. -/
theorem slot?_ne_link (hn : n.Sound) {slot : Nat} (h : n.links.get? slot = none) (s : Seat) :
    n.slot? s ≠ some (.link slot) := by
  intro hs
  cases s with
  | emitter family name | collector family name =>
    obtain ⟨t, ht, hts⟩ := Option.map_eq_some_iff.1 hs
    cases hts
    have hsome := hn.links.isSome_of_find? ht
    rw [h] at hsome
    cases hsome
  | owner | accessor =>
    obtain ⟨t, -, hts⟩ := Option.map_eq_some_iff.1 hs
    cases hts
  | receiver => cases hs

/-! ## Writing -/

theorem Tracks.writeBus (ht : n.Tracks blockSize r) {slot : Nat} {bus : Samples}
    (hsize : bus.size = (n.bus slot).size) :
    (n.setBus slot bus).Tracks blockSize (r.writeBus slot bus) := by
  cases hl : n.links.get? slot with
  | none =>
    rw [Roll.writeBus, ht.key?_eq_none (slot?_ne_link ht.sound hl)]
    exact ht.of_board (sameSeats_setBus n slot bus) (ht.inUse.setBus slot bus) rfl
      ((board_setBus_of_none hl bus).trans ht.board) (fun _ _ => rfl) (fun _ _ => rfl)
      fun _ _ => .inl rfl
  | some l =>
    obtain ⟨⟨family, name⟩, hkey⟩ :=
      ht.sound.links.exists_key (by rw [hl]; rfl : (n.links.get? slot).isSome)
    have hbus : n.bus slot = (r.board.links family name).bus := by
      rw [← ht.board]
      show ((n.links.get? slot).map Link.bus).getD #[] = (n.linkOf family name).bus
      rw [linkOf, ht.sound.links.lookup_eq hkey, hl]
      rfl
    rw [Roll.writeBus, ht.key?_link hkey]
    refine ht.of_board (sameSeats_setBus n slot bus) (ht.inUse.setBus slot bus) rfl
      ((board_setBus ht.sound hkey bus).trans (by rw [ht.board]; rfl)) (fun family' name' => ?_)
      (fun _ _ => rfl) fun _ _ => .inl rfl
    show (if (family', name') = (family, name) then { r.board.links family' name' with bus }
      else r.board.links family' name').bus.size = _
    split
    · next heq =>
      cases heq
      rw [hsize, hbus]
    · rfl

theorem Tracks.writeStore (ht : n.Tracks blockSize r) {slot : Nat} {s : Store}
    (hs : n.stores.get? slot = some s) {samples : Samples} (hsize : samples.size = s.length)
    (head : Nat) : (n.setStore slot ({ s with samples }.setHead head)).Tracks blockSize
      (r.writeStore slot samples head) := by
  obtain ⟨⟨kind, name⟩, hkey⟩ :=
    ht.sound.stores.exists_key (by rw [hs]; rfl : (n.stores.get? slot).isSome)
  have hstore : s = r.board.stores kind name := by
    rw [← ht.board]
    show s = n.storeOf kind name
    rw [storeOf, ht.sound.stores.lookup_eq hkey, hs]
    rfl
  rw [Roll.writeStore, ht.key?_store hkey]
  have hif : ∀ kind' name', (r.board.writeStore samples head (.store kind name)).stores kind' name' =
      if (kind', name') = (kind, name) then { r.board.stores kind' name' with samples }.setHead head
      else r.board.stores kind' name' := fun _ _ => rfl
  refine ht.of_board (sameSeats_setStore n slot _) (ht.inUse.setStore slot _) rfl
    ((board_setStore ht.sound hkey hs samples head).trans (by rw [ht.board]; rfl)) (fun _ _ => rfl)
    (fun kind' name' => ?_) fun kind' name' => ?_
  · show ((r.board.writeStore samples head (.store kind name)).stores kind' name').length = _
    rw [hif]
    split
    · next heq =>
      cases heq
      exact hsize.trans (congrArg Store.length hstore)
    · rfl
  · show ((r.board.writeStore samples head (.store kind name)).stores kind' name').head = _ ∨
      ((r.board.writeStore samples head (.store kind name)).stores kind' name').head <
        ((r.board.writeStore samples head (.store kind name)).stores kind' name').length ∨
      ((r.board.writeStore samples head (.store kind name)).stores kind' name').head = 0
    rw [hif]
    split
    · right
      show (if samples.size = 0 then 0 else head % samples.size) < samples.size ∨
        (if samples.size = 0 then 0 else head % samples.size) = 0
      split
      · exact .inr rfl
      · next hne => exact .inl (Nat.mod_lt _ (Nat.pos_of_ne_zero hne))
    · exact .inl rfl

/-- Whatever is done to the registry, its roll is kept. -/
theorem tracks_of_run (h : Run blockSize n r) : n.Tracks blockSize r := by
  induction h with
  | fresh => exact tracks_fresh blockSize
  | registered _ hnew heq ih => exact ih.register hnew heq
  | unregistered _ hx ih => exact ih.unregister hx
  | cleared _ ih => exact ih.clear
  | busWritten _ hsize ih => exact ih.writeBus hsize
  | storeWritten head _ hs hsize ih => exact ih.writeStore hs hsize head

/-! ## What the registry shows -/

/-- That a registry shows what its roll says. -/
structure Refines (n : Names) (blockSize : Nat) (r : Roll) : Prop where
  /-- There is a link under a name if, and only if, somebody is registered there. -/
  link : ∀ family name, (n.link? family name).isSome ↔ r.Uses (.link family (.ofString name))
  store : ∀ kind name, (n.store? kind name).isSome ↔ r.Uses (.store kind (.ofString name))
  /-- A link lists exactly those who are registered there, oldest first. -/
  linked : ∀ family name slot, n.link? family name = some slot →
    n.emitters slot = r.seated (.emitter family (.ofString name)) ∧
    n.collectors slot = r.seated (.collector family (.ofString name))
  stored : ∀ kind name slot, n.store? kind name = some slot →
    n.owners slot = r.seated (.owner kind (.ofString name))
  /-- No two names share a link. -/
  linkOnce : ∀ family name family' name' slot, n.links.find? (family, name) = some slot →
    n.links.find? (family', name') = some slot → family = family' ∧ name = name'
  storeOnce : ∀ kind name kind' name' slot, n.stores.find? (kind, name) = some slot →
    n.stores.find? (kind', name') = some slot → kind = kind' ∧ name = name'
  linkCount : n.links.size = (r.keys.filterMap Key.link?).dedup.length
  storeCount : n.stores.size = (r.keys.filterMap Key.store?).dedup.length
  /-- The handle that a unit was given leads to what is kept under its name. -/
  linkHandle : ∀ x ∈ r.members, ∀ family name, x.role.seat.key = .link family name →
    ∃ slot, x.handle = some (.link slot) ∧ n.links.find? (family, name) = some slot ∧
      n.links.get? slot = some (r.board.links family name)
  storeHandle : ∀ x ∈ r.members, ∀ kind name, x.role.seat.key = .store kind name →
    ∃ slot, x.handle = some (.store slot) ∧ n.stores.find? (kind, name) = some slot ∧
      n.stores.get? slot = some (r.board.stores kind name)
  /-- Nothing is left of what was kept under a name that nobody uses. -/
  unusedLink : ∀ family name, ¬ r.Uses (.link family name) →
    r.board.links family name = { bus := silence blockSize }
  unusedStore : ∀ kind name, ¬ r.Uses (.store kind name) → r.board.stores kind name = {}
  bus : ∀ family name, (r.board.links family name).bus.size = blockSize
  /-- A store is as long as any owner has asked for since it was made. -/
  length : ∀ kind name, (r.board.stores kind name).length = (r.asked kind name).foldl max 0
  head : ∀ kind name, (r.board.stores kind name).head < (r.board.stores kind name).length ∨
    (r.board.stores kind name).head = 0 ∧ (r.board.stores kind name).length = 0

theorem mem_filterMap_link {family : LinkFamily} {name : Symbol} :
    (family, name) ∈ r.keys.filterMap Key.link? ↔ r.Uses (.link family name) := by
  rw [List.mem_filterMap]
  constructor
  · rintro ⟨key, hkey, hlink⟩
    obtain ⟨x, hx, rfl⟩ := List.mem_map.1 hkey
    refine ⟨x, hx, ?_⟩
    cases hk : x.role.seat.key with
    | link family' name' =>
      rw [hk] at hlink
      cases hlink
      rfl
    | store | receiver =>
      rw [hk] at hlink
      cases hlink
  · rintro ⟨x, hx, hkey⟩
    exact ⟨_, List.mem_map.2 ⟨x, hx, hkey⟩, rfl⟩

theorem mem_filterMap_store {kind : StoreKind} {name : Symbol} :
    (kind, name) ∈ r.keys.filterMap Key.store? ↔ r.Uses (.store kind name) := by
  rw [List.mem_filterMap]
  constructor
  · rintro ⟨key, hkey, hstore⟩
    obtain ⟨x, hx, rfl⟩ := List.mem_map.1 hkey
    refine ⟨x, hx, ?_⟩
    cases hk : x.role.seat.key with
    | store kind' name' =>
      rw [hk] at hstore
      cases hstore
      rfl
    | link | receiver =>
      rw [hk] at hstore
      cases hstore
  · rintro ⟨x, hx, hkey⟩
    exact ⟨_, List.mem_map.2 ⟨x, hx, hkey⟩, rfl⟩

/-- Somebody is registered under a name if, and only if, somebody is listed there. -/
theorem uses_iff {key : Key} : r.Uses key ↔ ∃ s : Seat, s.key = key ∧ r.seated s ≠ [] := by
  constructor
  · rintro ⟨x, hx, hkey⟩
    exact ⟨x.role.seat, hkey, seated_ne_nil hx⟩
  · rintro ⟨s, hkey, hs⟩
    obtain ⟨u, hu⟩ := List.exists_mem_of_ne_nil _ hs
    obtain ⟨x, hx, -⟩ := List.mem_map.1 hu
    obtain ⟨hx, hseat⟩ := List.mem_filter.1 hx
    exact ⟨x, hx, by rw [of_decide_eq_true hseat, hkey]⟩

theorem Tracks.isSome_link_iff (ht : n.Tracks blockSize r) (family : LinkFamily) (name : Symbol) :
    (n.links.find? (family, name)).isSome ↔ r.Uses (.link family name) := by
  rw [ht.inUse.isSome_link_iff ht.sound, ht.seated, ht.seated, uses_iff]
  constructor
  · rintro (h | h)
    · exact ⟨_, rfl, h⟩
    · exact ⟨_, rfl, h⟩
  · rintro ⟨s, hkey, hs⟩
    cases s <;> cases hkey
    · exact .inl hs
    · exact .inr hs

theorem Tracks.isSome_store_iff (ht : n.Tracks blockSize r) (kind : StoreKind) (name : Symbol) :
    (n.stores.find? (kind, name)).isSome ↔ r.Uses (.store kind name) := by
  rw [ht.inUse.isSome_store_iff ht.sound, ht.seated, ht.seated, uses_iff]
  constructor
  · rintro (h | h)
    · exact ⟨_, rfl, h⟩
    · exact ⟨_, rfl, h⟩
  · rintro ⟨s, hkey, hs⟩
    cases s <;> cases hkey
    · exact .inl hs
    · exact .inr hs

/-- What the slot of a link holds is what is kept under its name. -/
theorem Tracks.get?_link (ht : n.Tracks blockSize r) {family : LinkFamily} {name : Symbol} {slot : Nat}
    (h : n.links.find? (family, name) = some slot) :
    n.links.get? slot = some (r.board.links family name) := by
  obtain ⟨l, hl⟩ := Option.isSome_iff_exists.1 (ht.sound.links.isSome_of_find? h)
  rw [← ht.board]
  show n.links.get? slot = some (n.linkOf family name)
  rw [linkOf, ht.sound.links.lookup_eq h, hl]
  rfl

theorem Tracks.get?_store (ht : n.Tracks blockSize r) {kind : StoreKind} {name : Symbol} {slot : Nat}
    (h : n.stores.find? (kind, name) = some slot) :
    n.stores.get? slot = some (r.board.stores kind name) := by
  obtain ⟨s, hs⟩ := Option.isSome_iff_exists.1 (ht.sound.stores.isSome_of_find? h)
  rw [← ht.board]
  show n.stores.get? slot = some (n.storeOf kind name)
  rw [storeOf, ht.sound.stores.lookup_eq h, hs]
  rfl

theorem Tracks.refines (ht : n.Tracks blockSize r) : n.Refines blockSize r where
  link family name := ht.isSome_link_iff family _
  store kind name := ht.isSome_store_iff kind _
  linked family name slot h := by
    have hget := ht.get?_link h
    rw [emitters, collectors, hget, ← ht.seated, ← ht.seated, ← ht.board]
    exact ⟨rfl, rfl⟩
  stored kind name slot h := by
    have hget := ht.get?_store h
    rw [owners, hget, ← ht.seated, ← ht.board]
    rfl
  linkOnce family name family' name' slot h h' := Prod.mk.inj (ht.sound.links.key_eq h h')
  storeOnce kind name kind' name' slot h h' := Prod.mk.inj (ht.sound.stores.key_eq h h')
  linkCount := ht.sound.links.size_eq fun key =>
    (ht.isSome_link_iff key.1 key.2).trans mem_filterMap_link.symm
  storeCount := ht.sound.stores.size_eq fun key =>
    (ht.isSome_store_iff key.1 key.2).trans mem_filterMap_store.symm
  linkHandle x hx family name hkey := by
    obtain ⟨slot, hslot⟩ :=
      Option.isSome_iff_exists.1 ((ht.isSome_link_iff family name).2 ⟨x, hx, hkey⟩)
    refine ⟨slot, (ht.handle x hx).symm.trans ?_, hslot, ht.get?_link hslot⟩
    cases hs : x.role.seat <;> rw [hs] at hkey <;> cases hkey
    · rw [slot?, hslot]
      rfl
    · rw [slot?, hslot]
      rfl
  storeHandle x hx kind name hkey := by
    obtain ⟨slot, hslot⟩ :=
      Option.isSome_iff_exists.1 ((ht.isSome_store_iff kind name).2 ⟨x, hx, hkey⟩)
    refine ⟨slot, (ht.handle x hx).symm.trans ?_, hslot, ht.get?_store hslot⟩
    cases hs : x.role.seat <;> rw [hs] at hkey <;> cases hkey
    · rw [slot?, hslot]
      rfl
    · rw [slot?, hslot]
      rfl
  unusedLink family name hno := by
    have hnone := Option.not_isSome_iff_eq_none.1 fun h => hno ((ht.isSome_link_iff family name).1 h)
    rw [← ht.board]
    show (n.links.lookup (family, name)).getD n.freshLink = _
    rw [Directory.lookup, hnone, freshLink, ht.size]
    rfl
  unusedStore kind name hno := by
    have hnone := Option.not_isSome_iff_eq_none.1 fun h => hno ((ht.isSome_store_iff kind name).1 h)
    rw [← ht.board]
    show (n.stores.lookup (kind, name)).getD {} = _
    rw [Directory.lookup, hnone]
    rfl
  bus := ht.buses
  length := ht.lengths
  head := ht.heads

/-- The registry refines a plain map. Whatever is done to it, it shows what the roll says, and a
handle leads to the name of the unit that was given it. What is made for a new name is fresh even in
a slot that was used before, and a store that grows keeps its samples and its write position. -/
theorem refines_of_run (h : Run blockSize n r) : n.Refines blockSize r ∧
    ∀ unit role handle n', n.register unit role = .ok (handle, n') →
      (∀ family name, role.seat.key = .link family name → ¬ r.Uses (.link family name) →
        (n'.linkOf family name).emitters ++ (n'.linkOf family name).collectors = [unit] ∧
        (n'.linkOf family name).bus = silence blockSize) ∧
      (∀ kind name, role.seat.key = .store kind name → ¬ r.Uses (.store kind name) →
        (n'.storeOf kind name).owners ++ (n'.storeOf kind name).accessors = [unit] ∧
        (n'.storeOf kind name).samples = silence ((role.asks kind name).foldl max 0) ∧
        (n'.storeOf kind name).head = 0) ∧
      ∀ kind name, (n'.storeOf kind name).head = (n.storeOf kind name).head ∧
        ∃ more, (n'.storeOf kind name).samples = (n.storeOf kind name).samples ++ silence more := by
  have ht := tracks_of_run h
  have hrefines := ht.refines
  refine ⟨hrefines, fun unit role handle n' heq => ?_⟩
  have hboard := (board_register ht.sound heq).trans (congrArg (·.register unit role) ht.board)
  have hlink : ∀ family name, n'.linkOf family name =
      (r.board.register unit role).links family name := fun family name =>
    congrArg (·.links family name) hboard
  have hstore : ∀ kind name, n'.storeOf kind name =
      (r.board.register unit role).stores kind name := fun kind name =>
    congrArg (·.stores kind name) hboard
  have hold : ∀ kind name, n.storeOf kind name = r.board.stores kind name := fun kind name =>
    congrArg (·.stores kind name) ht.board
  refine ⟨fun family name hkey hno => ?_, fun kind name hkey hno => ?_, fun kind name => ?_⟩
  · rw [hlink, Board.bus_register, hrefines.unusedLink family name hno]
    refine ⟨?_, rfl⟩
    cases role <;> cases hkey
    · simp [Board.register, Board.modifyLink, hrefines.unusedLink family name hno]
    · simp [Board.register, Board.modifyLink, hrefines.unusedLink family name hno]
  · rw [hstore, Board.samples_register, Board.head_register, hrefines.unusedStore kind name hno]
    refine ⟨?_, by simp [Store.length], rfl⟩
    cases role <;> cases hkey
    · simp [Board.register, Board.modifyStore, hrefines.unusedStore kind name hno]
    · simp [Board.register, Board.modifyStore, hrefines.unusedStore kind name hno]
  · rw [hstore, hold, Board.head_register, Board.samples_register]
    exact ⟨rfl, _, rfl⟩

/-- A slot that a name has left is used for another one. -/
theorem refines_of_run_reused : ∃ n r, Run 2 n r ∧ n.link? .send "b" = some 0 ∧
    r.keys = [.link .send (.ofString "b")] ∧ n.Refines 2 r := by
  have hfirst : Run 2 _ _ := .registered .fresh (fun _ h => by cases h)
    (rfl : register { blockSize := 2 } ⟨0⟩ (.emitter .throw (.ofString "a")) = .ok (_, _))
  have hleft : Run 2 _ _ := hfirst.unregistered (List.mem_singleton.2 rfl)
  have hsecond : Run 2 _ _ := hleft.registered (fun _ h => by cases h)
    (rfl : register _ ⟨1⟩ (.emitter .send (.ofString "b")) = .ok (_, _))
  exact ⟨_, _, hsecond, by decide +kernel, by decide +kernel, (refines_of_run hsecond).1⟩

end Names
end Patchbay
