import Patchbay.Proofs.Names.Seats

/-!
# The sizes of buses and stores

Every bus has the samples of a block, and every store is written at a place that it has
(`Names.Sized`). Registering a unit may make a store longer, and nothing makes one shorter as long as
it is there (`Names.Follows`), so a place in a store stays in it (`Follows.room?`).
-/

namespace Patchbay

namespace Directory

variable {κ α : Type} {d d' : Directory κ α} {r : α → α → Prop} {new p : α → Prop}

/-- Whether every value has a property. -/
def All (d : Directory κ α) (p : α → Prop) : Prop := ∀ s v, d.get? s = some v → p v

/-- That every value has come from the one that was in its slot, or else is new there. -/
def From (r : α → α → Prop) (new : α → Prop) (d d' : Directory κ α) : Prop :=
  ∀ s v', d'.get? s = some v' → (∃ v, d.get? s = some v ∧ r v v') ∨ d.get? s = none ∧ new v'

theorem From.refl (hr : ∀ v, r v v) (d : Directory κ α) : d.From r new d :=
  fun _ v h => .inl ⟨v, h, hr v⟩

theorem From.all (h : d.From r new d') (hr : ∀ v v', r v v' → p v → p v') (hnew : ∀ v, new v → p v)
    (hd : d.All p) : d'.All p := by
  intro s v' hv'
  rcases h s v' hv' with ⟨v, hv, hvv'⟩ | ⟨-, hn⟩
  · exact hr v v' hvv' (hd s v hv)
  · exact hnew v' hn

/-- Changing a value makes nothing new. -/
theorem from_modify {f : α → α} (hr : ∀ v, r v v) (s : Nat) (hf : ∀ v, d.get? s = some v → r v (f v)) :
    d.From r new (d.modify s f) := by
  intro t v' hv'
  rw [get?_modify] at hv'
  split at hv'
  · next hts =>
    subst hts
    obtain ⟨v, hv, rfl⟩ := Option.map_eq_some_iff.1 hv'
    exact .inl ⟨v, hv, hf v hv⟩
  · exact .inl ⟨v', hv', hr v'⟩

theorem from_mapValues {f : α → α} (hf : ∀ v, r v (f v)) : d.From r new (d.mapValues f) := by
  intro s v' hv'
  rw [get?_mapValues] at hv'
  obtain ⟨v, hv, rfl⟩ := Option.map_eq_some_iff.1 hv'
  exact .inl ⟨v, hv, hf v⟩

variable [DecidableEq κ]

/-- Entering a key and changing its value makes one new, in a slot that had none, or no new one. -/
theorem from_join (hd : d.Sound) (hr : ∀ v, r v v) {f : α → α} (hf : ∀ v, r v (f v)) (key : κ)
    {fresh : α} (hfresh : new (f fresh)) :
    d.From r new ((d.enter key fresh).2.modify (d.enter key fresh).1 f) := by
  cases h : d.find? key with
  | some s =>
    rw [Sound.enter_of_find? h]
    exact from_modify hr s fun v _ => hf v
  | none =>
    obtain ⟨s, d', heq, -, -, hget, hunused, hother⟩ := hd.enter_new h fresh
    rw [heq]
    intro t v' hv'
    rw [get?_modify] at hv'
    split at hv'
    · next hts =>
      subst hts
      rw [hget] at hv'
      cases hv'
      refine .inr ⟨?_, hfresh⟩
      -- a slot with a value is that of a key
      by_contra hsome
      obtain ⟨p, hp, hslot⟩ := List.mem_map.1 (hd.keyed t (Option.isSome_iff_ne_none.2 hsome))
      exact hunused p hp hslot
    · next hts =>
      rw [hother t hts] at hv'
      exact .inl ⟨v', hv', hr v'⟩

/-- Leaving a key makes nothing new. -/
theorem from_leave (hr : ∀ v, r v v) (key : κ) {f : α → α} (hf : ∀ v, r v (f v)) (unused : α → Bool) :
    d.From r new (d.leave key f unused) := by
  unfold leave
  split
  · exact .refl hr d
  · next s _ =>
    split
    · exact .refl hr d
    · next value _ =>
      split
      · intro t v' hv'
        have ht : d.get? t = some v' := by
          rw [get?_eq, Array.getElem?_setIfInBounds] at hv'
          split at hv'
          · split at hv' <;> cases hv'
          · exact hv'
        exact .inl ⟨v', ht, hr v'⟩
      · exact from_modify hr s fun v _ => hf v

end Directory

/-! ## Links and stores -/

/-- That a link has become another, with a bus as long as before. -/
def Link.SameBus (l l' : Link) : Prop := l'.bus.size = l.bus.size

theorem Link.SameBus.refl (l : Link) : l.SameBus l := rfl

/-- That a store can be as long as it is, and is written next at a place that it has, if any. -/
structure Store.Proper (s : Store) : Prop where
  head : s.head = 0 ∨ s.head < s.length
  room : s.length * sampleBytes < addressable

/-- That a store has become another, which is no shorter. -/
def Store.Lengthens (s s' : Store) : Prop := s.length ≤ s'.length ∧ (s.Proper → s'.Proper)

namespace Store

variable {s s' : Store}

theorem Lengthens.refl (s : Store) : s.Lengthens s := ⟨Nat.le_refl _, id⟩

theorem Lengthens.of_eq (hs : s'.samples = s.samples) (hh : s'.head = s.head) : s.Lengthens s' := by
  have hlength : s'.length = s.length := congrArg Array.size hs
  exact ⟨hlength.ge, fun h => ⟨by rw [hh, hlength]; exact h.head, by rw [hlength]; exact h.room⟩⟩

theorem Lengthens.trans {s'' : Store} (h : s.Lengthens s') (h' : s'.Lengthens s'') : s.Lengthens s'' :=
  ⟨h.1.trans h'.1, h'.2 ∘ h.2⟩

theorem length_growTo (s : Store) (length : Nat) : (s.growTo length).length = max s.length length := by
  unfold growTo Store.length
  by_cases h : s.samples.isEmpty = true
  · have hempty : s.samples.size = 0 := by simpa using h
    simp [h, silence, hempty]
  · simp [h, silence]
    omega

theorem lengthens_growTo (s : Store) {length : Nat} (h : length * sampleBytes < addressable) :
    s.Lengthens (s.growTo length) := by
  have hlength := s.length_growTo length
  refine ⟨by omega, fun hs => ⟨?_, ?_⟩⟩
  · rcases hs.head with h0 | hlt
    · exact .inl h0
    · exact .inr (lt_of_lt_of_le hlt (by omega))
  · rcases Nat.le_total s.length length with hle | hle
    · rw [hlength, Nat.max_eq_right hle]
      exact h
    · rw [hlength, Nat.max_eq_left hle]
      exact hs.room

theorem proper_empty : Proper {} := ⟨.inl rfl, by decide⟩

end Store

/-! ## Names -/

namespace Names

variable {n n' : Names} {size : Nat} {fresh : Prop}

/-- That every bus has the samples of a block, and every store is in order. -/
structure Sized (size : Nat) (n : Names) : Prop where
  blockSize : n.blockSize = size
  buses : n.links.All fun l => l.bus.size = size
  stores : n.stores.All Store.Proper

theorem sized_fresh (blockSize : Nat) : Sized blockSize { blockSize } := by
  refine ⟨rfl, fun s l h => ?_, fun s store h => ?_⟩
  · cases h
  · cases h

/-- That no bus has got longer or shorter, and no store shorter. A link or a store may be new if
`fresh` holds. -/
structure Follows (fresh : Prop) (n n' : Names) : Prop where
  blockSize : n'.blockSize = n.blockSize
  links : n.links.From Link.SameBus (fun l => fresh ∧ l.bus.size = n.blockSize) n'.links
  stores : n.stores.From Store.Lengthens (fun s => fresh ∧ s.Proper) n'.stores

theorem Follows.refl (fresh : Prop) (n : Names) : n.Follows fresh n :=
  ⟨rfl, .refl .refl _, .refl .refl _⟩

theorem Follows.of_directories (hsize : n'.blockSize = n.blockSize) (hl : n'.links = n.links)
    (hs : n'.stores = n.stores) : n.Follows fresh n' :=
  ⟨hsize, hl ▸ .refl .refl _, hs ▸ .refl .refl _⟩

theorem Follows.sized (h : n.Follows fresh n') (hn : n.Sized size) : n'.Sized size where
  blockSize := h.blockSize.trans hn.blockSize
  buses := h.links.all (p := fun l => l.bus.size = size) (fun _ _ he hs => he.trans hs)
    (fun _ he => he.2.trans hn.blockSize) hn.buses
  stores := h.stores.all (fun _ _ hl => hl.2) (fun _ hp => hp.2) hn.stores

/-- The length of the store that a handle leads to. -/
def room? (n : Names) : Option Handle → Option Nat
  | some (.store slot) => (n.stores.get? slot).map Store.length
  | _ => none

/-- Whether a handle leads to a store, if to nothing else. -/
def Leads (n : Names) (handle : Option Handle) : Prop :=
  ∀ slot, handle = some (.store slot) → (n.stores.get? slot).isSome

/-- The store that a handle leads to has not got shorter. -/
theorem Follows.room? (h : n.Follows fresh n') {handle : Option Handle} (hlive : fresh → n.Leads handle)
    {length' : Nat} (hl : n'.room? handle = some length') :
    ∃ length, n.room? handle = some length ∧ length ≤ length' := by
  cases handle with
  | none => cases hl
  | some handle =>
    cases handle with
    | link slot => cases hl
    | store slot =>
      obtain ⟨s', hs', rfl⟩ := Option.map_eq_some_iff.1 hl
      rcases h.stores slot s' hs' with ⟨s, hs, hle, -⟩ | ⟨hnone, hfresh, -⟩
      · exact ⟨s.length, by rw [Names.room?, hs]; rfl, hle⟩
      · have := hlive hfresh slot rfl
        rw [hnone] at this
        cases this

/-! ### Registering -/

theorem checkRoom_eq_ok {count bytes : Nat} {a : PUnit} (h : checkRoom count bytes = .ok a) :
    count * bytes < addressable := by
  unfold checkRoom at h
  split at h
  · assumption
  · cases h

theorem follows_joinLink (hn : n.Sound) {family : LinkFamily} {name : Symbol} {f : Link → Link}
    {h : Handle} (heq : n.joinLink family name f = .ok (h, n')) (hf : ∀ l, (f l).bus = l.bus) :
    n.Follows True n' := by
  obtain ⟨_, -, heq⟩ := bind_eq_ok.1 heq
  cases heq
  refine ⟨rfl, ?_, .refl .refl _⟩
  have hfresh : (f n.freshLink).bus.size = n.blockSize := by simp [hf, freshLink, silence]
  exact Directory.from_join hn.links .refl (fun l => congrArg Array.size (hf l)) _ ⟨⟨⟩, hfresh⟩

theorem follows_joinStore (hn : n.Sound) {kind : StoreKind} {name : Symbol} {length : Nat}
    {f : Store → Store} {h : Handle} (heq : n.joinStore kind name length f = .ok (h, n'))
    (hsamples : ∀ s, (f s).samples = s.samples) (hhead : ∀ s, (f s).head = s.head) :
    n.Follows True n' := by
  obtain ⟨_, hroom, heq⟩ := bind_eq_ok.1 heq
  have hroom := checkRoom_eq_ok hroom
  cases heq
  refine ⟨rfl, .refl .refl _, ?_⟩
  have hf : ∀ s : Store, s.Lengthens (f (s.growTo length)) := fun s =>
    (s.lengthens_growTo hroom).trans (.of_eq (hsamples _) (hhead _))
  exact Directory.from_join hn.stores .refl hf _ ⟨⟨⟩, (hf {}).2 Store.proper_empty⟩

/-- Registering a unit makes no bus longer or shorter, and no store shorter. -/
theorem follows_register (hn : n.Sound) {unit : UnitId} {role : Registration} {h : Option Handle}
    (heq : n.register unit role = .ok (h, n')) : n.Follows True n' := by
  cases role with
  | receiver name =>
    cases heq
    exact .of_directories rfl rfl rfl
  | emitter | collector =>
    obtain ⟨⟨_, _⟩, hjoin, heq⟩ := bind_eq_ok.1 heq
    cases heq
    exact follows_joinLink hn hjoin fun _ => rfl
  | owner | accessor =>
    obtain ⟨⟨_, _⟩, hjoin, heq⟩ := bind_eq_ok.1 heq
    cases heq
    exact follows_joinStore hn hjoin (fun _ => rfl) fun _ => rfl

theorem follows_leaveLink (n : Names) (family : LinkFamily) (name : Symbol) {f : Link → Link}
    (hf : ∀ l, (f l).bus = l.bus) : n.Follows False (n.leaveLink family name f) := by
  have hsame : ∀ l : Link, l.SameBus (f l) := fun l => congrArg Array.size (hf l)
  exact ⟨rfl, Directory.from_leave .refl _ hsame _, .refl .refl _⟩

theorem follows_leaveStore (n : Names) (kind : StoreKind) (name : Symbol) {f : Store → Store}
    (hsamples : ∀ s, (f s).samples = s.samples) (hhead : ∀ s, (f s).head = s.head) :
    n.Follows False (n.leaveStore kind name f) := by
  have hsame : ∀ s : Store, s.Lengthens (f s) := fun s => .of_eq (hsamples s) (hhead s)
  exact ⟨rfl, .refl .refl _, Directory.from_leave .refl _ hsame _⟩

/-- Neither does taking one out of its role, and nothing is new after that. -/
theorem follows_unregister (n : Names) (unit : UnitId) (role : Registration) :
    n.Follows False (n.unregister unit role) := by
  cases role with
  | receiver name => exact .of_directories rfl rfl rfl
  | emitter | collector => exact n.follows_leaveLink _ _ fun _ => rfl
  | owner | accessor => exact n.follows_leaveStore _ _ (fun _ => rfl) fun _ => rfl

/-! ### Writing -/

theorem follows_clearBuses (n : Names) : n.Follows False n.clearBuses :=
  ⟨rfl, Directory.from_mapValues fun l => by simp [Link.SameBus, silence], .refl .refl _⟩

theorem follows_setBus {slot : Nat} {bus : Samples}
    (h : ∀ l, n.links.get? slot = some l → bus.size = l.bus.size) : n.Follows False (n.setBus slot bus) :=
  ⟨rfl, Directory.from_modify .refl slot h, .refl .refl _⟩

theorem follows_setStore {slot : Nat} {store : Store}
    (h : ∀ s, n.stores.get? slot = some s → s.Lengthens store) :
    n.Follows False (n.setStore slot store) :=
  ⟨rfl, .refl .refl _, Directory.from_modify .refl slot fun s hs => (h s hs).trans (.of_eq rfl rfl)⟩

end Names
end Patchbay
