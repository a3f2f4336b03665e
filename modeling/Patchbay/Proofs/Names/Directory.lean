import Mathlib
import Patchbay.Names.Directory

/-!
# A directory is a map

`lookup` finds the value of a key, and every operation on a directory is an operation on `lookup`:
the numbers of slots, and that slots are used again, do not show. What makes this true is `Sound`: no
two keys share a slot, the slot of a key holds a value, and a free slot holds none.
-/

namespace Patchbay
namespace Directory

variable {κ α : Type}

/-- The value of a key. -/
def lookup [DecidableEq κ] (d : Directory κ α) (key : κ) : Option α := (d.find? key).bind d.get?

/-- That the slots of a directory are used by one key each, or free. -/
structure Sound (d : Directory κ α) : Prop where
  keys : (d.index.map (·.1)).Nodup
  slots : (d.index.map (·.2)).Nodup
  filled : ∀ p ∈ d.index, (d.get? p.2).isSome
  /-- Every value has a key. -/
  keyed : ∀ s, (d.get? s).isSome → s ∈ d.index.map (·.2)
  free : ∀ s ∈ d.free, s < d.slots.size ∧ d.get? s = none
  freeOnce : d.free.Nodup

theorem sound_empty : Sound ({} : Directory κ α) :=
  ⟨List.nodup_nil, List.nodup_nil, by simp, by simp [get?], by simp, List.nodup_nil⟩

/-! ## Slots -/

theorem get?_eq (d : Directory κ α) (s : Nat) : d.get? s = (d.slots[s]?).getD none := rfl

theorem lt_of_get?_isSome {d : Directory κ α} {s : Nat} (h : (d.get? s).isSome) :
    s < d.slots.size := by
  by_cases hs : s < d.slots.size
  · exact hs
  · simp [get?_eq, hs] at h

theorem get?_modify (d : Directory κ α) (s t : Nat) (f : α → α) :
    (d.modify s f).get? t = if t = s then (d.get? t).map f else d.get? t := by
  simp only [get?_eq, modify, Array.getElem?_modify]
  by_cases h : t = s
  · subst h
    cases d.slots[t]? <;> simp
  · simp [h, Ne.symm h]

theorem get?_mapValues (d : Directory κ α) (s : Nat) (f : α → α) :
    (d.mapValues f).get? s = (d.get? s).map f := by
  simp only [get?_eq, mapValues, Array.getElem?_map]
  cases d.slots[s]? <;> simp

variable [DecidableEq κ]

@[simp]
theorem find?_modify (d : Directory κ α) (s : Nat) (f : α → α) (key : κ) :
    (d.modify s f).find? key = d.find? key := rfl

@[simp]
theorem find?_mapValues (d : Directory κ α) (f : α → α) (key : κ) :
    (d.mapValues f).find? key = d.find? key := rfl

/-! ## Keys -/

theorem mem_index_of_find? {d : Directory κ α} {key : κ} {s : Nat} (h : d.find? key = some s) :
    (key, s) ∈ d.index := by
  obtain ⟨p, hp, rfl⟩ := Option.map_eq_some_iff.1 h
  have hkey : p.1 = key := by simpa using List.find?_some hp
  exact hkey ▸ List.mem_of_find?_eq_some hp

theorem Sound.find?_of_mem {d : Directory κ α} (hd : d.Sound) {key : κ} {s : Nat}
    (h : (key, s) ∈ d.index) : d.find? key = some s := by
  cases hf : d.find? key with
  | none =>
    have hnone := Option.map_eq_none_iff.1 hf
    exact absurd (List.find?_eq_none.1 hnone (key, s) h) (by simp)
  | some t =>
    have heq := List.inj_on_of_nodup_map hd.keys (mem_index_of_find? hf) h rfl
    exact congrArg (fun p : κ × Nat => some p.2) heq

/-- Whatever has a value belongs to a key. -/
theorem Sound.exists_key {d : Directory κ α} (hd : d.Sound) {s : Nat} (h : (d.get? s).isSome) :
    ∃ key, d.find? key = some s := by
  obtain ⟨p, hp, rfl⟩ := List.mem_map.1 (hd.keyed s h)
  exact ⟨p.1, hd.find?_of_mem hp⟩

theorem find?_eq_none_iff {d : Directory κ α} {key : κ} :
    d.find? key = none ↔ ∀ p ∈ d.index, p.1 ≠ key := by
  simp [find?]

theorem mem_keys_iff {d : Directory κ α} {key : κ} :
    key ∈ d.index.map (·.1) ↔ (d.find? key).isSome := by
  rw [find?, Option.isSome_map, List.find?_isSome]
  simp

namespace Sound

variable {d : Directory κ α}

/-- A directory has as many entries as there are keys. -/
theorem size_eq (hd : d.Sound) {keys : List κ} (h : ∀ key, (d.find? key).isSome ↔ key ∈ keys) :
    d.size = keys.dedup.length := by
  rw [size, ← List.length_map (·.1)]
  refine ((List.perm_ext_iff_of_nodup hd.keys (List.nodup_dedup keys)).2 fun key => ?_).length_eq
  rw [mem_keys_iff, h, List.mem_dedup]

theorem isSome_of_find? (hd : d.Sound) {key : κ} {s : Nat} (h : d.find? key = some s) :
    (d.get? s).isSome := hd.filled _ (mem_index_of_find? h)

/-- Two keys do not share a slot. -/
theorem key_eq (hd : d.Sound) {key key' : κ} {s : Nat} (h : d.find? key = some s)
    (h' : d.find? key' = some s) : key = key' := by
  have hinj := List.inj_on_of_nodup_map hd.slots (mem_index_of_find? h) (mem_index_of_find? h') rfl
  exact congrArg Prod.fst hinj

theorem lookup_eq (_ : d.Sound) {key : κ} {s : Nat} (h : d.find? key = some s) :
    d.lookup key = d.get? s := by simp [lookup, h]

/-! ## Changing values -/

omit [DecidableEq κ] in
theorem modify (hd : d.Sound) (s : Nat) (f : α → α) : (d.modify s f).Sound where
  keys := hd.keys
  slots := hd.slots
  filled p hp := by
    rw [get?_modify]
    split <;> simp [hd.filled p hp]
  keyed t ht := by
    rw [get?_modify] at ht
    refine hd.keyed t ?_
    split at ht
    · simpa using ht
    · exact ht
  free t ht := by
    obtain ⟨hlt, hnone⟩ := hd.free t ht
    refine ⟨by simpa [Directory.modify] using hlt, ?_⟩
    rw [get?_modify, hnone]
    split <;> rfl
  freeOnce := hd.freeOnce

omit [DecidableEq κ] in
theorem mapValues (hd : d.Sound) (f : α → α) : (d.mapValues f).Sound where
  keys := hd.keys
  slots := hd.slots
  filled p hp := by simp [get?_mapValues, hd.filled p hp]
  keyed t ht := hd.keyed t (by simpa [get?_mapValues] using ht)
  free t ht := by
    obtain ⟨hlt, hnone⟩ := hd.free t ht
    exact ⟨by simpa [Directory.mapValues] using hlt, by simp [get?_mapValues, hnone]⟩
  freeOnce := hd.freeOnce

theorem lookup_modify (hd : d.Sound) {key : κ} {s : Nat} (h : d.find? key = some s) (f : α → α)
    (key' : κ) :
    (d.modify s f).lookup key' = if key' = key then (d.lookup key').map f else d.lookup key' := by
  cases h' : d.find? key' with
  | none =>
    have hne : key' ≠ key := fun he => by simp [he, h] at h'
    simp [lookup, h', hne]
  | some t =>
    have hts : t = s ↔ key' = key := by
      constructor
      · rintro rfl
        exact hd.key_eq h' h
      · rintro rfl
        exact Option.some.inj (h'.symm.trans h)
    simp [lookup, h', get?_modify, hts]

theorem lookup_mapValues (f : α → α) (key : κ) :
    (d.mapValues f).lookup key = (d.lookup key).map f := by
  cases h : d.find? key <;> simp [lookup, h, get?_mapValues]

/-! ## Entering a key -/

/-- Entering a key that is there changes nothing. -/
theorem enter_of_find? {key : κ} {s : Nat} (h : d.find? key = some s) (fresh : α) :
    d.enter key fresh = (s, d) := by simp [enter, h]

/-- Entering a new key puts the fresh value into a slot that no key uses. -/
theorem enter_new (hd : d.Sound) {key : κ} (h : d.find? key = none) (fresh : α) :
    ∃ s d', d.enter key fresh = (s, d') ∧ d'.Sound ∧ d'.index = d.index ++ [(key, s)] ∧
      d'.get? s = some fresh ∧ (∀ p ∈ d.index, p.2 ≠ s) ∧ ∀ t, t ≠ s → d'.get? t = d.get? t := by
  have hkeys : ∀ s : Nat, ((d.index ++ [(key, s)]).map (·.1)).Nodup := by
    intro s
    rw [List.map_append, List.nodup_append]
    refine ⟨hd.keys, by simp, ?_⟩
    intro a ha b hb
    obtain ⟨p, hp, rfl⟩ := List.mem_map.1 ha
    have hb : b = key := by simpa using hb
    exact hb ▸ find?_eq_none_iff.1 h p hp
  have hslots : ∀ s : Nat, (∀ p ∈ d.index, p.2 ≠ s) →
      ((d.index ++ [(key, s)]).map (·.2)).Nodup := by
    intro s hs
    rw [List.map_append, List.nodup_append]
    refine ⟨hd.slots, by simp, ?_⟩
    intro a ha b hb
    obtain ⟨p, hp, rfl⟩ := List.mem_map.1 ha
    have hb : b = s := by simpa using hb
    exact hb ▸ hs p hp
  cases hfree : d.free with
  | nil =>
    have hunused : ∀ p ∈ d.index, p.2 ≠ d.slots.size := fun p hp he =>
      absurd (lt_of_get?_isSome (hd.filled p hp)) (by omega)
    have hget : ∀ t, (Array.push d.slots (some fresh))[t]?.getD none =
        if t = d.slots.size then some fresh else d.get? t := by
      intro t
      rw [Array.getElem?_push, get?_eq]
      split <;> rfl
    refine ⟨d.slots.size,
      { d with
        slots := d.slots.push (some fresh)
        index := d.index ++ [(key, d.slots.size)] },
      by simp only [Directory.enter, h, hfree],
      ⟨hkeys _, hslots _ hunused, ?_, ?_, by simp [hfree], by simp [hfree]⟩, rfl, ?_, hunused, ?_⟩
    · intro p hp
      rw [get?_eq, hget]
      split
      · rfl
      · rcases List.mem_append.1 hp with hp | hp
        · exact hd.filled p hp
        · simp_all
    · intro t ht
      rw [get?_eq, hget] at ht
      rw [List.map_append, List.mem_append]
      split at ht
      · next he => exact .inr (by simp [he])
      · exact .inl (hd.keyed t ht)
    · rw [get?_eq, hget]
      simp
    · intro t ht
      rw [get?_eq, hget]
      simp [ht]
  | cons s rest =>
    obtain ⟨hlt, hnone⟩ := hd.free s (by simp [hfree])
    have hunused : ∀ p ∈ d.index, p.2 ≠ s := fun p hp he => by
      simpa [he, hnone] using hd.filled p hp
    have hget : ∀ t, (d.slots.setIfInBounds s (some fresh))[t]?.getD none =
        if t = s then some fresh else d.get? t := by
      intro t
      rw [Array.getElem?_setIfInBounds, get?_eq]
      by_cases hts : t = s
      · simp [hts, hlt]
      · simp [hts, Ne.symm hts]
    have honce := hd.freeOnce
    rw [hfree, List.nodup_cons] at honce
    refine ⟨s,
      { slots := d.slots.setIfInBounds s (some fresh)
        free := rest
        index := d.index ++ [(key, s)] },
      by simp only [Directory.enter, h, hfree], ⟨hkeys _, hslots _ hunused, ?_, ?_, ?_, honce.2⟩,
      rfl, ?_, hunused, ?_⟩
    · intro p hp
      rw [get?_eq, hget]
      split
      · rfl
      · rcases List.mem_append.1 hp with hp | hp
        · exact hd.filled p hp
        · simp_all
    · intro t ht
      rw [get?_eq, hget] at ht
      rw [List.map_append, List.mem_append]
      split at ht
      · next he => exact .inr (by simp [he])
      · exact .inl (hd.keyed t ht)
    · intro t ht
      have hts : t ≠ s := fun he => honce.1 (he ▸ ht)
      obtain ⟨htlt, htnone⟩ := hd.free t (by simp [hfree, ht])
      refine ⟨by simpa using htlt, ?_⟩
      rw [get?_eq, hget]
      simp [hts, htnone]
    · rw [get?_eq, hget]
      simp
    · intro t ht
      rw [get?_eq, hget]
      simp [ht]

/-- What entering a key does to the map: the key has a value then, and nothing else changes. -/
theorem enter (hd : d.Sound) {key : κ} {fresh : α} {s : Nat} {d' : Directory κ α}
    (heq : d.enter key fresh = (s, d')) :
    d'.Sound ∧ d'.find? key = some s ∧
    (∀ key', key' ≠ key ∨ (d.find? key').isSome → d'.find? key' = d.find? key') ∧
    ∀ key', d'.lookup key' =
      if key' = key then some ((d.lookup key').getD fresh) else d.lookup key' := by
  cases h : d.find? key with
  | some t =>
    rw [enter_of_find? h] at heq
    cases heq
    obtain ⟨v, hv⟩ := Option.isSome_iff_exists.1 (hd.isSome_of_find? h)
    refine ⟨hd, h, fun _ _ => rfl, fun key' => ?_⟩
    split
    · next hkey =>
      subst hkey
      simp [lookup, h, hv]
    · rfl
  | none =>
    obtain ⟨t, e, heq', hd', hindex, hget, hunused, hother⟩ := hd.enter_new h fresh
    rw [heq'] at heq
    cases heq
    have hnew : d'.find? key = some s := by
      have : d.index.find? (·.1 = key) = none := by simpa [find?] using h
      simp [find?, hindex, List.find?_append, this]
    have hold : ∀ key', key' ≠ key → d'.find? key' = d.find? key' := by
      intro key' hne
      simp [find?, hindex, List.find?_append, hne.symm]
    refine ⟨hd', hnew, ?_, fun key' => ?_⟩
    · rintro key' (hne | hsome)
      · exact hold key' hne
      · exact hold key' fun he => by simp [he, h] at hsome
    · split
      · next hkey =>
        subst hkey
        simp [lookup, hnew, hget, h]
      · next hne =>
        cases hk : d.find? key' with
        | none => simp [lookup, hold key' hne, hk]
        | some u =>
          have hu : u ≠ s := hunused _ (mem_index_of_find? hk)
          simp [lookup, hold key' hne, hk, hother u hu]

/-! ## Leaving a key -/

/-- Leaving a key drops it, with its value, if that leaves it unused, and otherwise changes the
value. Other keys do not notice. -/
theorem leave (hd : d.Sound) (key : κ) (f : α → α) (unused : α → Bool) :
    (d.leave key f unused).Sound ∧
    (∀ key', (d.leave key f unused).lookup key' =
      if key' = key then ((d.lookup key').map f).filter (fun v => !unused v)
      else d.lookup key') ∧
    ∀ key', ((d.leave key f unused).find? key').isSome →
      (d.leave key f unused).find? key' = d.find? key' := by
  cases h : d.find? key with
  | none =>
    have heq : d.leave key f unused = d := by simp only [Directory.leave, h]
    rw [heq]
    refine ⟨hd, fun key' => ?_, fun _ _ => rfl⟩
    split
    · next hkey =>
      subst hkey
      simp [lookup, h]
    · rfl
  | some s =>
    obtain ⟨v, hv⟩ := Option.isSome_iff_exists.1 (hd.isSome_of_find? h)
    have hlook : d.lookup key = some v := by simp [lookup, h, hv]
    by_cases hu : unused (f v) = true
    · -- the key goes, and its slot becomes free
      have hlt := lt_of_get?_isSome (hd.isSome_of_find? h)
      have hnotfree : s ∉ d.free := fun hs => by simp [(hd.free s hs).2] at hv
      have hgone : ∀ p ∈ d.index.filter (·.1 ≠ key), p.2 ≠ s := by
        intro p hp he
        obtain ⟨hp, hne⟩ := List.mem_filter.1 hp
        have := List.inj_on_of_nodup_map hd.slots hp (mem_index_of_find? h) he
        simp [this] at hne
      have hget : ∀ t, (d.slots.setIfInBounds s none)[t]?.getD none =
          if t = s then none else d.get? t := by
        intro t
        rw [Array.getElem?_setIfInBounds, get?_eq]
        by_cases hts : t = s
        · simp [hts, hlt]
        · simp [hts, Ne.symm hts]
      have hself : (d.index.filter (·.1 ≠ key)).find? (·.1 = key) = none := by
        simp
      have hother : ∀ key', key' ≠ key →
          (d.index.filter (·.1 ≠ key)).find? (·.1 = key') = d.index.find? (·.1 = key') := by
        intro key' hne
        rw [List.find?_filter]
        congr 1
        funext p
        by_cases hp : p.1 = key' <;> simp [hp, hne]
      have heq : d.leave key f unused =
          { slots := d.slots.setIfInBounds s none, free := s :: d.free
            index := d.index.filter (·.1 ≠ key) } := by
        simp only [Directory.leave, h, hv, hu, if_true]
      rw [heq]
      refine ⟨⟨?_, ?_, ?_, ?_, ?_, List.nodup_cons.2 ⟨hnotfree, hd.freeOnce⟩⟩, fun key' => ?_, ?_⟩
      · exact (List.filter_sublist.map _).nodup hd.keys
      · exact (List.filter_sublist.map _).nodup hd.slots
      · intro p hp
        rw [get?_eq, hget]
        simp [hgone p hp, hd.filled p (List.mem_filter.1 hp).1]
      · intro t ht
        rw [get?_eq, hget] at ht
        split at ht
        · cases ht
        · next hts =>
          obtain ⟨p, hp, rfl⟩ := List.mem_map.1 (hd.keyed t ht)
          refine List.mem_map.2 ⟨p, List.mem_filter.2 ⟨hp, ?_⟩, rfl⟩
          have hne : p.1 ≠ key := fun he =>
            hts (congrArg Prod.snd (List.inj_on_of_nodup_map hd.keys hp (mem_index_of_find? h) he))
          simpa using hne
      · intro t ht
        rw [get?_eq, hget]
        rcases List.mem_cons.1 ht with rfl | ht
        · simpa using hlt
        · obtain ⟨htlt, htnone⟩ := hd.free t ht
          refine ⟨by simpa using htlt, ?_⟩
          split <;> simp [htnone]
      · split
        · next hkey =>
          subst hkey
          rw [hlook]
          simp only [lookup, find?, hself]
          simp [Option.filter_some, hu]
        · next hne =>
          simp only [lookup, find?, hother key' hne]
          cases hk : d.index.find? (·.1 = key') with
          | none => rfl
          | some p =>
            have hp : p.2 ≠ s := by
              refine hgone p (List.mem_filter.2 ⟨List.mem_of_find?_eq_some hk, ?_⟩)
              have : p.1 = key' := by simpa using List.find?_some hk
              simpa [this] using hne
            simp only [Option.map_some, Option.bind_some]
            rw [get?_eq, hget]
            simp [hp]
      · intro key' hsome
        by_cases hne : key' = key
        · subst hne
          simp only [find?, hself] at hsome
          simp at hsome
        · simp only [find?, hother key' hne]
    · have heq : d.leave key f unused = d.modify s f := by
        simp only [Directory.leave, h, hv, if_neg hu]
      rw [heq]
      refine ⟨hd.modify s f, fun key' => ?_, fun _ _ => rfl⟩
      rw [hd.lookup_modify h]
      split
      · next hkey =>
        subst hkey
        rw [hlook]
        simp [Option.filter_some, hu]
      · rfl

end Sound
end Directory
end Patchbay
