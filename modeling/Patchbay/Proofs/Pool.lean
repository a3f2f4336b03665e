import Mathlib.Data.List.Perm.Subperm
import Patchbay.Pool
import Patchbay.Proofs.Outcome

/-!
# The books of the pool

`Balances` compares the pool with a list of the buffers that are held, each as often as it has
readers. Handing out, reserving and giving back add to the list and take from it, and none of them
meets a fault as long as only what is held is given back (`acquire_spec`, `reserve_spec`,
`release_spec`). Silence may be held any number of times.
-/

namespace Patchbay

/-- Whether a buffer is one of a number of buffers, or silence. -/
def BufferId.Below (size : Nat) (b : BufferId) : Prop := ∀ i, b = .pooled i → i < size

theorem BufferId.Below.mono {size size' : Nat} {b : BufferId} (h : b.Below size)
    (hle : size ≤ size') : b.Below size' := fun i hi => Nat.lt_of_lt_of_le (h i hi) hle

namespace Pool

/-- That a pool has the same buffers as another, and silent ones behind them. -/
structure Extends (p q : Pool) : Prop where
  blockSize : q.blockSize = p.blockSize
  buffers : ∃ n, q.buffers = p.buffers ++ Array.replicate n (silence p.blockSize)

namespace Extends

variable {p q r : Pool}

theorem of_buffers (hs : q.blockSize = p.blockSize) (hb : q.buffers = p.buffers) : p.Extends q :=
  ⟨hs, 0, by simp [hb]⟩

theorem refl (p : Pool) : p.Extends p := .of_buffers rfl rfl

theorem trans (h : p.Extends q) (h' : q.Extends r) : p.Extends r := by
  obtain ⟨n, hn⟩ := h.buffers
  obtain ⟨n', hn'⟩ := h'.buffers
  refine ⟨h'.blockSize.trans h.blockSize, n + n', ?_⟩
  rw [hn', hn, h.blockSize, Array.append_assoc, Array.replicate_append_replicate]

theorem size_le (h : p.Extends q) : p.size ≤ q.size := by
  obtain ⟨n, hn⟩ := h.buffers
  simp [size, hn]

end Extends

/-- That the counts of a pool are those of the buffers held. -/
structure Balances (p : Pool) (held : List BufferId) : Prop where
  size : p.readers.size = p.buffers.size
  count : ∀ i, (p.readers[i]?).getD 0 = held.count (.pooled i)
  free : ∀ i, i ∈ p.free ↔ i < p.readers.size ∧ held.count (.pooled i) = 0
  once : p.free.Nodup
  books : p.acquired = p.released + p.readers.countP (0 < ·)

namespace Balances

variable {p : Pool} {held : List BufferId}

/-- Only the number of times that each buffer is held matters. -/
theorem congr (h : p.Balances held) {held' : List BufferId}
    (hc : ∀ i, held'.count (.pooled i) = held.count (.pooled i)) : p.Balances held' where
  size := h.size
  count i := by rw [hc, h.count]
  free i := by rw [hc, h.free]
  once := h.once
  books := h.books

theorem perm (h : p.Balances held) {held' : List BufferId} (hp : held.Perm held') :
    p.Balances held' := h.congr fun _ => (hp.count_eq _).symm

theorem readers_eq (h : p.Balances held) {i : Nat} (hi : i < p.readers.size) :
    p.readers[i] = held.count (.pooled i) := by
  rw [← h.count]
  simp [hi]

/-- A buffer that is held exists. -/
theorem lt_size (h : p.Balances held) {i : Nat} (hi : .pooled i ∈ held) : i < p.readers.size := by
  by_contra hlt
  have := h.count i
  rw [Array.getElem?_eq_none (by omega)] at this
  exact absurd (List.count_pos_iff.2 hi) (by simp at this; omega)

theorem below (h : p.Balances held) {b : BufferId} (hb : b ∈ held) : b.Below p.size :=
  fun _ hi => Nat.lt_of_lt_of_eq (h.lt_size (hi ▸ hb)) h.size

/-- When nothing is held, every buffer that was handed out is free again. -/
theorem stats_eq (h : p.Balances held) (hzero : ∀ b ∈ held, b = .zero) :
    p.stats.live = 0 ∧ p.stats.acquired = p.stats.released := by
  have hcount : ∀ i, held.count (.pooled i) = 0 := fun i =>
    List.count_eq_zero.2 fun hi => by cases hzero _ hi
  have hlive : p.readers.countP (0 < ·) = 0 := by
    rw [Array.countP_eq_zero]
    intro n hn
    obtain ⟨i, hi, rfl⟩ := Array.mem_iff_getElem.1 hn
    simp [h.readers_eq hi, hcount]
  exact ⟨hlive, by simpa [stats, hlive] using h.books⟩

end Balances

/-- A pool without readers holds nothing. -/
theorem balances_reset (p : Pool) : p.reset.Balances [] where
  size := by simp [reset, size]
  count i := by
    simp only [reset, Array.getElem?_replicate]
    split <;> simp
  free i := by simp [reset]
  once := List.nodup_range
  books := by
    have : (Array.replicate p.size 0).countP (0 < ·) = 0 := by simp [Array.countP_replicate]
    simpa [reset] using this.symm

theorem setIfInBounds_eq {α : Type} {xs : Array α} {i : Nat} (h : i < xs.size) (a : α) :
    xs.setIfInBounds i a = xs.set i a := by simp [Array.setIfInBounds, h]

/-- The books after the count of one buffer has changed. -/
theorem countP_setIfInBounds {xs : Array Nat} {i n : Nat} (h : i < xs.size) :
    (xs.setIfInBounds i n).countP (0 < ·) + (if 0 < xs[i] then 1 else 0) =
      xs.countP (0 < ·) + (if 0 < n then 1 else 0) := by
  have hle : (if 0 < xs[i] then 1 else 0) ≤ xs.countP (0 < ·) := by
    split
    · next hpos => exact Array.countP_pos_iff.2 ⟨xs[i], Array.getElem_mem h, by simpa using hpos⟩
    · exact Nat.zero_le _
  rw [setIfInBounds_eq h, Array.countP_set]
  simp only [decide_eq_true_eq]
  omega

/-- Taking a free buffer: it was not held, and it is no longer free. -/
theorem takeFree_spec {p : Pool} {held : List BufferId} (h : p.Balances held) :
    ∃ i p', p.takeFree = (i, p') ∧ .pooled i ∉ held ∧ i < p'.readers.size ∧
      p'.readers.size = p'.buffers.size ∧
      (∀ j, (p'.readers[j]?).getD 0 = held.count (.pooled j)) ∧
      (∀ j, j ∈ p'.free ↔ j < p'.readers.size ∧ held.count (.pooled j) = 0 ∧ j ≠ i) ∧
      p'.free.Nodup ∧ p'.acquired = p'.released + p'.readers.countP (0 < ·) ∧
      p.Extends p' := by
  cases hf : p.free with
  | nil =>
    have hnot : .pooled p.readers.size ∉ held := fun hi => by
      have := h.lt_size hi
      omega
    have hnone : ∀ j, j < p.readers.size → held.count (.pooled j) ≠ 0 := fun j hj hc => by
      have := (h.free j).2 ⟨hj, hc⟩
      simp [hf] at this
    refine ⟨p.readers.size, p.allocate, by simp [takeFree, hf, size, h.size], hnot, by simp [allocate],
      by simp [allocate, h.size], fun j => ?_, fun j => ?_, by simp [allocate, hf], ?_,
      ⟨rfl, 1, by simp [allocate, Array.replicate_succ]⟩⟩
    · rw [← h.count j]
      simp only [allocate, Array.getElem?_push]
      split
      · next hj => simp [hj]
      · rfl
    · simp only [allocate, hf, List.not_mem_nil, Array.size_push, false_iff, not_and, not_not]
      intro hj hc
      by_contra hne
      exact hnone j (by omega) hc
    · simpa [allocate, Array.countP_push] using h.books
  | cons i rest =>
    obtain ⟨hlt, hcount⟩ := (h.free i).1 (by simp [hf])
    have honce := h.once
    rw [hf, List.nodup_cons] at honce
    refine ⟨i, { p with free := rest }, by simp [takeFree, hf], List.count_eq_zero.1 hcount, hlt,
      h.size, h.count, fun j => ?_, honce.2, h.books, .of_buffers rfl rfl⟩
    have := h.free j
    rw [hf, List.mem_cons] at this
    constructor
    · intro hj
      obtain ⟨h₁, h₂⟩ := this.1 (.inr hj)
      exact ⟨h₁, h₂, fun he => honce.1 (he ▸ hj)⟩
    · rintro ⟨h₁, h₂, h₃⟩
      exact (this.2 ⟨h₁, h₂⟩).resolve_left h₃

/-- Handing out a buffer: it was not held before, and is then held by all its readers. -/
theorem acquire_spec {p : Pool} {held : List BufferId} (h : p.Balances held) {n : Nat} (hn : 0 < n)
    (hlt : n < halfWordSize) :
    ∃ i p', p.acquire n = (.pooled i, p') ∧ .pooled i ∉ held ∧
      p'.Balances (List.replicate n (.pooled i) ++ held) ∧ p.Extends p' := by
  obtain ⟨i, q, htake, hnot, hi, hsize, hcount, hfree, honce, hbooks, hext⟩ := takeFree_spec h
  have hzero : held.count (.pooled i) = 0 := List.count_eq_zero.2 hnot
  have hq : q.readers[i] = 0 := by
    rw [← hzero, ← hcount]
    simp [hi]
  have heq : p.acquire n = (.pooled i,
      { q with acquired := q.acquired + 1, readers := q.readers.setIfInBounds i n }) := by
    simp [acquire, htake, Nat.ne_of_gt hn, Nat.mod_eq_of_lt hlt]
  refine ⟨i, _, heq, hnot, ⟨by simpa using hsize, fun j => ?_, fun j => ?_, honce, ?_⟩,
    hext.blockSize, hext.buffers⟩
  · rw [List.count_append, List.count_replicate, Array.getElem?_setIfInBounds]
    by_cases hj : i = j
    · subst hj
      simp [hi, hzero]
    · simp [hj, hcount]
  · simp only [hfree, Array.size_setIfInBounds, List.count_append, List.count_replicate]
    by_cases hj : i = j
    · subst hj
      simp
      omega
    · simp [hj, Ne.symm hj]
  · have := countP_setIfInBounds (n := n) hi
    simp only [hq, hn, if_true, Nat.lt_irrefl, if_false] at this
    simp only
    omega

/-- Reserving a buffer that is held adds readers to it. -/
theorem reserve_spec {p : Pool} {held : List BufferId} (h : p.Balances held) {b : BufferId} {n : Nat}
    (hb : n ≠ 0 → b ≠ .zero → b ∈ held) (hlt : b ≠ .zero → held.count b + n < halfWordSize) :
    ∃ p', p.reserve b n = .ok p' ∧ p'.Balances (List.replicate n b ++ held) ∧ p.Extends p' ∧
      p'.size = p.size := by
  cases b with
  | zero =>
    exact ⟨p, rfl, h.congr fun i => by simp [List.count_append, List.count_replicate], .refl p, rfl⟩
  | pooled i =>
    by_cases hn : n = 0
    · subst hn
      exact ⟨p, by simp [reserve], by simpa using h, .refl p, rfl⟩
    · have hmem := hb hn (by simp)
      have hlt := hlt (by simp)
      have hi := h.lt_size hmem
      have hpos := List.count_pos_iff.2 hmem
      have hread : p.readersOf (.pooled i) = .ok (held.count (.pooled i)) := by
        simp [readersOf, hi, h.readers_eq hi]
      have hmod : n % halfWordSize = n := Nat.mod_eq_of_lt (by omega)
      have heq : p.reserve (.pooled i) n = .ok
          { p with readers := p.readers.setIfInBounds i (held.count (.pooled i) + n) } := by
        have hne : held.count (.pooled i) ≠ 0 := by omega
        have hle : ¬ halfWordSize ≤ held.count (.pooled i) + n := by omega
        simp only [reserve, hn, if_false, hread, hmod]
        simp [bind, Except.bind, hne, hle, pure, Except.pure]
      refine ⟨_, heq, ⟨by simpa using h.size, fun j => ?_, fun j => ?_, h.once, ?_⟩,
        .of_buffers rfl rfl, rfl⟩
      · rw [List.count_append, List.count_replicate, Array.getElem?_setIfInBounds, ← h.count j]
        by_cases hj : i = j
        · subst hj
          simp [hi, h.readers_eq hi]
          omega
        · simp [hj]
      · simp only [h.free, Array.size_setIfInBounds, List.count_append, List.count_replicate]
        by_cases hj : i = j
        · subst hj
          simp
          omega
        · simp [hj]
      · have := countP_setIfInBounds (n := held.count (.pooled i) + n) hi
        have h₁ : 0 < p.readers[i] := by rw [h.readers_eq hi]; exact hpos
        have h₂ : 0 < held.count (.pooled i) + n := by omega
        have := h.books
        simp only [h₁, h₂, if_true] at *
        omega

/-- Giving back a buffer that is held takes one reader from it. -/
theorem release_spec {p : Pool} {b : BufferId} {held : List BufferId} (h : p.Balances (b :: held)) :
    ∃ p', p.release b = .ok p' ∧ p'.Balances held ∧ p.Extends p' ∧ p'.size = p.size := by
  cases b with
  | zero =>
    exact ⟨p, rfl, h.congr fun i => by simp, .refl p, rfl⟩
  | pooled i =>
    have hi := h.lt_size List.mem_cons_self
    have hcount : (BufferId.pooled i :: held).count (.pooled i) = held.count (.pooled i) + 1 := by
      simp
    have hread : p.readersOf (.pooled i) = .ok (held.count (.pooled i) + 1) := by
      simp [readersOf, hi, h.readers_eq hi]
    have hbooks := countP_setIfInBounds (n := held.count (.pooled i)) hi
    have hpos : 0 < p.readers[i] := by rw [h.readers_eq hi]; omega
    have hcount' : ∀ j, ((p.readers.setIfInBounds i (held.count (.pooled i)))[j]?).getD 0 =
        held.count (.pooled j) := by
      intro j
      rw [Array.getElem?_setIfInBounds]
      by_cases hj : i = j
      · subst hj
        simp [hi]
      · have := h.count j
        rw [List.count_cons] at this
        simpa [hj] using this
    have hfree : ∀ j, j ∈ p.free ↔ j < p.readers.size ∧ held.count (.pooled j) = 0 ∧ j ≠ i := by
      intro j
      rw [h.free, List.count_cons]
      by_cases hj : i = j
      · simp [hj]
      · simp [hj, Ne.symm hj]
    by_cases hlast : held.count (.pooled i) = 0
    · have heq : p.release (.pooled i) = .ok { p with
          readers := p.readers.setIfInBounds i (held.count (.pooled i))
          free := i :: p.free, released := p.released + 1 } := by
        simp [release, hread, hlast, bind, Except.bind, pure, Except.pure]
      refine ⟨_, heq, ⟨by simpa using h.size, hcount', fun j => ?_, ?_, ?_⟩, .of_buffers rfl rfl,
        rfl⟩
      · simp only [List.mem_cons, hfree, Array.size_setIfInBounds]
        by_cases hj : j = i
        · subst hj
          simp [hi, hlast]
        · simp [hj]
      · exact List.nodup_cons.2 ⟨fun hmem => ((hfree i).1 hmem).2.2 rfl, h.once⟩
      · have := h.books
        simp only [hlast, hpos, if_true, Nat.lt_irrefl, if_false] at hbooks ⊢
        omega
    · have heq : p.release (.pooled i) = .ok { p with
          readers := p.readers.setIfInBounds i (held.count (.pooled i)) } := by
        simp [release, hread, hlast, bind, Except.bind, pure, Except.pure]
      refine ⟨_, heq, ⟨by simpa using h.size, hcount', fun j => ?_, h.once, ?_⟩,
        .of_buffers rfl rfl, rfl⟩
      · simp only [hfree, Array.size_setIfInBounds]
        constructor
        · exact fun ⟨h₁, h₂, _⟩ => ⟨h₁, h₂⟩
        · rintro ⟨h₁, h₂⟩
          exact ⟨h₁, h₂, fun he => hlast (he ▸ h₂)⟩
      · have := h.books
        have hpos' : 0 < held.count (.pooled i) := by omega
        simp only [hpos, hpos', if_true] at hbooks ⊢
        omega

/-- Giving back several buffers that are held. -/
theorem releaseAll_spec {held : List BufferId} (l : List BufferId) {p : Pool}
    (h : p.Balances (l ++ held)) :
    ∃ p', l.foldlM release p = .ok p' ∧ p'.Balances held ∧ p.Extends p' ∧ p'.size = p.size := by
  induction l generalizing p with
  | nil => exact ⟨p, rfl, h, .refl p, rfl⟩
  | cons b l ih =>
    obtain ⟨q, hq, hbal, hext, hsize⟩ := release_spec h
    obtain ⟨r, hr, hbal', hext', hsize'⟩ := ih hbal
    exact ⟨r, by simp [List.foldlM_cons, hq, bind, Except.bind, hr], hbal', hext.trans hext',
      hsize'.trans hsize⟩

end Pool
end Patchbay
