import Patchbay.Proofs.Pool

/-!
# Two pools side by side

A pool that has been used keeps its buffers, so it is **ahead** of a fresh one: behind what is free in
the fresh pool it has spare buffers. Both hand out buffers under the same numbers, since the fresh pool
makes a new buffer exactly where the other takes its first spare one.

`Tracks` compares the results of the same work on both sides. Two faults of the first side are left
aside, which no work on a whole plan meets.
-/

namespace Patchbay

variable {α α' β β' : Type}

/-! ## The same work on two sides -/

/-- That work did not end, or looked for what is not there. -/
def Fault.Lost (f : Fault) : Prop := f = .endless ∨ f = .outOfBounds

/-- That work on two sides has led to related results or to the same fault, unless it got lost on the
first side. -/
inductive Tracks (rel : α → α' → Prop) : Except Fault α → Except Fault α' → Prop
  | ok {a : α} {a' : α'} : rel a a' → Tracks rel (.ok a) (.ok a')
  | fault (f : Fault) : Tracks rel (.error f) (.error f)
  | lost {f : Fault} (h : f.Lost) (x : Except Fault α') : Tracks rel (.error f) x

namespace Tracks

variable {rel : α → α' → Prop} {rel' : β → β' → Prop} {x : Except Fault α} {x' : Except Fault α'}

theorem bind {f : α → Except Fault β} {f' : α' → Except Fault β'} (h : Tracks rel x x')
    (hf : ∀ a a', rel a a' → Tracks rel' (f a) (f' a')) : Tracks rel' (x >>= f) (x' >>= f') := by
  cases h with
  | ok h => exact hf _ _ h
  | fault f => exact .fault f
  | lost h => exact .lost h _

/-- What each step of a loop keeps related, the loop keeps related. -/
theorem foldlM {γ : Type} {f : α → γ → Except Fault α} {f' : α' → γ → Except Fault α'} (l : List γ)
    (step : ∀ c ∈ l, ∀ a a', rel a a' → Tracks rel (f a c) (f' a' c)) {a : α} {a' : α'}
    (h : rel a a') : Tracks rel (l.foldlM f a) (l.foldlM f' a') := by
  induction l generalizing a a' with
  | nil => exact .ok h
  | cons c l ih =>
    rw [List.foldlM_cons, List.foldlM_cons]
    exact (step c List.mem_cons_self a a' h).bind fun a a' h =>
      ih (fun c hc => step c (List.mem_cons_of_mem _ hc)) h

/-- Work that does not get lost comes to the same on both sides. -/
theorem cases_of_outcome {faulty : Fault → Prop} {good : α → Prop} (h : Tracks rel x x')
    (ho : Outcome faulty good x) (hlost : ∀ f, f.Lost → ¬ faulty f) :
    (∃ a a', x = .ok a ∧ x' = .ok a' ∧ rel a a') ∨ ∃ f, x = .error f ∧ x' = .error f := by
  cases h with
  | ok h => exact .inl ⟨_, _, rfl, rfl, h⟩
  | fault f => exact .inr ⟨f, rfl, rfl⟩
  | lost h => exact absurd ho (hlost _ h)

end Tracks

namespace Pool

variable {p q : Pool} {i n : Nat}

/-! ## Reserving and releasing, by the readers there are -/

theorem reserve_eq (hn : p.readers[i]? = some n) (additional : Nat) :
    p.reserve (.pooled i) additional =
      if additional = 0 then .ok p
      else if n = 0 then .error (.reserveFree (.pooled i))
      else if halfWordSize ≤ n + additional % halfWordSize then .error .overflow
      else .ok { p with
        readers := p.readers.setIfInBounds i (n + additional % halfWordSize) } := by
  simp only [reserve, readersOf, hn, ok_bind]
  split_ifs <;> rfl

theorem release_eq (hn : p.readers[i]? = some n) :
    p.release (.pooled i) =
      if n = 0 then .error (.underflow (.pooled i))
      else if n = 1 then .ok { p with
        readers := p.readers.setIfInBounds i (n - 1)
        free := i :: p.free, released := p.released + 1 }
      else .ok { p with readers := p.readers.setIfInBounds i (n - 1) } := by
  simp only [release, readersOf, hn, ok_bind]
  split_ifs <;> rfl

/-! ## What is free exists -/

/-- That a pool counts the readers of its own buffers, and has those that are free. -/
structure Regular (p : Pool) : Prop where
  counted : p.readers.size = p.size
  free : ∀ i ∈ p.free, i < p.size

theorem regular_reset (p : Pool) : p.reset.Regular where
  counted := by simp [reset, size]
  free i hi := List.mem_range.1 hi

namespace Regular

variable (h : p.Regular)
include h

theorem readers (hi : i < p.size) : ∃ n, p.readers[i]? = some n :=
  ⟨_, Array.getElem?_eq_getElem (h.counted.symm ▸ hi)⟩

theorem takeFree : p.takeFree.2.Regular ∧ p.takeFree.1 < p.takeFree.2.size ∧
    p.size ≤ p.takeFree.2.size := by
  unfold Pool.takeFree
  split
  · next index rest hf =>
    have hin := h.free
    rw [hf] at hin
    exact ⟨⟨h.counted, fun i hi => hin i (List.mem_cons_of_mem _ hi)⟩, hin _ List.mem_cons_self,
      le_refl _⟩
  · next hf =>
    have hsize : p.allocate.size = p.size + 1 := by simp [allocate, size]
    refine ⟨⟨?_, fun i hi => ?_⟩, ?_, ?_⟩
    · rw [hsize, ← h.counted]
      simp [allocate]
    · have hfree : p.allocate.free = [] := hf
      rw [hfree] at hi
      cases hi
    · simp [hsize]
    · simp [hsize]

theorem acquire (n : Nat) : (p.acquire n).2.Regular ∧ (p.acquire n).1.Below (p.acquire n).2.size ∧
    p.size ≤ (p.acquire n).2.size := by
  obtain ⟨hreg, hlt, hle⟩ := h.takeFree
  have hfree : ∀ i ∈ p.takeFree.1 :: p.takeFree.2.free, i < p.takeFree.2.size := fun i hi => by
    rcases List.mem_cons.1 hi with rfl | hi
    · exact hlt
    · exact hreg.free i hi
  unfold Pool.acquire
  dsimp only
  split
  · refine ⟨⟨hreg.counted, hfree⟩, fun i hi => ?_, hle⟩
    cases hi
    exact hlt
  · refine ⟨⟨by simpa [size] using hreg.counted, hreg.free⟩, fun i hi => ?_, hle⟩
    cases hi
    exact hlt

theorem reserve {b : BufferId} (hb : b.Below p.size) (n : Nat) :
    Outcome (¬ ·.Lost) (fun q => q.Regular ∧ q.size = p.size) (p.reserve b n) := by
  cases b with
  | zero => exact ⟨h, rfl⟩
  | pooled i =>
    obtain ⟨count, hcount⟩ := h.readers (hb i rfl)
    rw [reserve_eq hcount]
    split_ifs
    · exact ⟨h, rfl⟩
    · rintro (h | h) <;> cases h
    · rintro (h | h) <;> cases h
    · exact ⟨⟨by simpa [size] using h.counted, h.free⟩, rfl⟩

theorem release {b : BufferId} (hb : b.Below p.size) :
    Outcome (¬ ·.Lost) (fun q => q.Regular ∧ q.size = p.size) (p.release b) := by
  cases b with
  | zero => exact ⟨h, rfl⟩
  | pooled i =>
    have hi := hb i rfl
    obtain ⟨count, hcount⟩ := h.readers hi
    rw [release_eq hcount]
    split_ifs
    · rintro (h | h) <;> cases h
    · refine ⟨⟨by simpa [size] using h.counted, fun j hj => ?_⟩, rfl⟩
      rcases List.mem_cons.1 hj with rfl | hj
      · exact hi
      · exact h.free j hj
    · exact ⟨⟨by simpa [size] using h.counted, h.free⟩, rfl⟩

end Regular

/-! ## A pool that is ahead of another -/

/-- That a pool has `spare` more buffers than another, all of them free and behind what is free in
both. -/
structure AheadBy (spare : Nat) (p q : Pool) : Prop where
  regular : p.Regular
  size : q.size = p.size + spare
  readers : q.readers = p.readers ++ Array.replicate spare 0
  free : q.free = p.free ++ List.range' p.size spare

/-- That a pool hands out the same buffers as another. -/
def Ahead (p q : Pool) : Prop := ∃ spare, AheadBy spare p q

/-- However much a pool has been used, it is ahead of a fresh one when it is used anew. -/
theorem ahead_reset (blockSize : Nat) (q : Pool) : (reset { blockSize }).Ahead q.reset := by
  refine ⟨q.size, regular_reset _, ?_, ?_, ?_⟩
  · simp [reset, size]
  · simp [reset, size]
  · exact List.range_eq_range'

namespace Ahead

/-- Both pools take the same buffer next. -/
theorem takeFree (h : p.Ahead q) :
    q.takeFree.1 = p.takeFree.1 ∧ p.takeFree.2.Ahead q.takeFree.2 := by
  obtain ⟨spare, h⟩ := h
  have hreg := h.regular.takeFree.1
  cases hp : p.free with
  | cons i rest =>
    have hq : q.free = i :: (rest ++ List.range' p.size spare) := by rw [h.free, hp]; rfl
    have hp' : p.takeFree = (i, { p with free := rest }) := by simp [Pool.takeFree, hp]
    rw [hp'] at hreg
    simp only [Pool.takeFree, hp, hq, true_and]
    exact ⟨spare, hreg, h.size, h.readers, rfl⟩
  | nil =>
    have hp' : p.takeFree = (p.size, p.allocate) := by simp [Pool.takeFree, hp]
    rw [hp'] at hreg ⊢
    have hsize : p.allocate.size = p.size + 1 := by simp [allocate, Pool.size]
    have hq := h.free
    rw [hp, List.nil_append] at hq
    cases spare with
    | zero =>
      -- neither has a free buffer, and both make a new one
      have hq' : q.takeFree = (q.size, q.allocate) := by simp [Pool.takeFree, hq]
      rw [hq']
      refine ⟨h.size, 0, hreg, ?_, ?_, ?_⟩
      · rw [hsize, ← Nat.add_zero p.size, ← h.size]
        simp [allocate, Pool.size]
      · simp [allocate, h.readers]
      · simp [allocate, hp, hq]
    | succ spare =>
      rw [List.range'_succ] at hq
      have hq' : q.takeFree = (p.size, { q with free := List.range' (p.size + 1) spare }) := by
        simp [Pool.takeFree, hq]
      rw [hq']
      refine ⟨rfl, spare, hreg, ?_, ?_, ?_⟩
      · rw [hsize]
        exact h.size.trans (by omega)
      · simp [allocate, h.readers, Array.replicate_succ']
      · rw [hsize]
        simp [allocate, hp]

end Ahead

namespace AheadBy

variable {spare : Nat} (h : p.AheadBy spare q)
include h

/-- Both pools may count. -/
theorem count (acquired released acquired' released' : Nat) :
    AheadBy spare { p with acquired, released } { q with
      acquired := acquired', released := released' } :=
  ⟨⟨h.regular.counted, h.regular.free⟩, h.size, h.readers, h.free⟩

/-- The readers of a buffer may change in both pools. -/
theorem setReaders (hi : i < p.size) (n : Nat) :
    AheadBy spare { p with readers := p.readers.setIfInBounds i n }
      { q with readers := q.readers.setIfInBounds i n } where
  regular := ⟨by simpa [Pool.size] using h.regular.counted, h.regular.free⟩
  size := h.size
  readers := by
    have hi' : i < p.readers.size := h.regular.counted.symm ▸ hi
    simp [h.readers, Array.setIfInBounds_append_left hi']
  free := h.free

/-- A buffer may become free in both pools. -/
theorem giveBack (hi : i < p.size) :
    AheadBy spare { p with free := i :: p.free } { q with free := i :: q.free } where
  regular := ⟨h.regular.counted, fun j hj => by
    rcases List.mem_cons.1 hj with rfl | hj
    · exact hi
    · exact h.regular.free j hj⟩
  size := h.size
  readers := h.readers
  free := by rw [h.free]; rfl

theorem readers_eq (hi : i < p.size) : q.readers[i]? = p.readers[i]? := by
  have hi' : i < p.readers.size := h.regular.counted.symm ▸ hi
  rw [h.readers, Array.getElem?_append_left hi']

end AheadBy

namespace Ahead

theorem acquire (h : p.Ahead q) (n : Nat) :
    (q.acquire n).1 = (p.acquire n).1 ∧ (p.acquire n).2.Ahead (q.acquire n).2 := by
  have hreg : p.Regular := h.elim fun _ h => h.regular
  have hlt := hreg.takeFree.2.1
  obtain ⟨hindex, spare, h⟩ := h.takeFree
  unfold Pool.acquire
  dsimp only
  rw [hindex]
  split
  · exact ⟨rfl, spare, (h.giveBack hlt).count ..⟩
  · exact ⟨rfl, spare, (h.setReaders hlt _).count ..⟩

theorem reserve (h : p.Ahead q) (b : BufferId) (n : Nat) :
    Tracks Ahead (p.reserve b n) (q.reserve b n) := by
  cases b with
  | zero => exact .ok h
  | pooled i =>
    obtain ⟨spare, h⟩ := h
    by_cases hi : i < p.size
    · obtain ⟨count, hcount⟩ := h.regular.readers hi
      rw [reserve_eq hcount, reserve_eq ((h.readers_eq hi).trans hcount)]
      split_ifs
      · exact .ok ⟨spare, h⟩
      · exact .fault _
      · exact .fault _
      · exact .ok ⟨spare, h.setReaders hi _⟩
    · have hnone : p.readers[i]? = none :=
        Array.getElem?_eq_none (h.regular.counted.symm ▸ Nat.le_of_not_lt hi)
      by_cases hn : n = 0
      · simp only [Pool.reserve, hn, if_true]
        exact .ok ⟨spare, h⟩
      · simp only [Pool.reserve, hn, if_false, readersOf, hnone]
        exact .lost (.inr rfl) _

theorem release (h : p.Ahead q) (b : BufferId) : Tracks Ahead (p.release b) (q.release b) := by
  cases b with
  | zero => exact .ok h
  | pooled i =>
    obtain ⟨spare, h⟩ := h
    by_cases hi : i < p.size
    · obtain ⟨count, hcount⟩ := h.regular.readers hi
      rw [release_eq hcount, release_eq ((h.readers_eq hi).trans hcount)]
      split_ifs
      · exact .fault _
      · exact .ok ⟨spare, ((h.setReaders hi _).giveBack hi).count ..⟩
      · exact .ok ⟨spare, h.setReaders hi _⟩
    · have hnone : p.readers[i]? = none :=
        Array.getElem?_eq_none (h.regular.counted.symm ▸ Nat.le_of_not_lt hi)
      simp only [Pool.release, readersOf, hnone]
      exact .lost (.inr rfl) _

end Ahead
end Pool
end Patchbay
