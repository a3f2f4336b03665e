import Patchbay.Proofs.Planning.Pooling

/-!
# The books of a pool over its past

A pool keeps counts, a list of free buffers and two totals, but no record of what was asked of it. A run
(`Pool.Runs`) has that record, and from it follows how many readers a buffer has: those that were
charged to it since it was last handed out, less those that have been released (`outstanding`). The
counts, the free list and the totals are three ways of writing this down, and they agree after
whatever has been asked (`keeps_books`). So no buffer is handed out that somebody still reads, and
a call fails only if it is about a reader that a buffer does not have.
-/

namespace Patchbay.Pool

/-- What may be asked of a pool. -/
inductive Call where
  | acquire (readers : Nat)
  | reserve (id : BufferId) (additional : Nat)
  | release (id : BufferId)
  | reset

/-- What has been done by a pool. -/
inductive Deed where
  /-- A buffer has been handed out. -/
  | acquired (id : BufferId) (readers : Nat)
  | reserved (id : BufferId) (additional : Nat)
  | released (id : BufferId)
  | reset
deriving DecidableEq

/-- Does what is asked. -/
def carryOut (p : Pool) : Call → Except Fault (Deed × Pool)
  | .acquire readers => .ok (.acquired (p.acquire readers).1 readers, (p.acquire readers).2)
  | .reserve id additional => do return (.reserved id additional, ← p.reserve id additional)
  | .release id => do return (.released id, ← p.release id)
  | .reset => .ok (.reset, p.reset)

/-! ## Readers by the past -/

namespace Deed

/-- The readers that a deed charges to a buffer. -/
def charge (i : Nat) : Deed → Nat
  | acquired id n | reserved id n => if id = .pooled i then n else 0
  | released _ | reset => 0

/-- The readers of a buffer that a deed releases. -/
def repay (i : Nat) : Deed → Nat
  | released id => if id = .pooled i then 1 else 0
  | acquired _ _ | reserved _ _ | reset => 0

/-- Whether the readers of a buffer are counted afresh from a deed on. -/
def opens (i : Nat) : Deed → Bool
  | acquired id _ => id = .pooled i
  | reset => true
  | reserved _ _ | released _ => false

end Deed

/-- What has been done since a buffer was last handed out, that included. The latest comes first. -/
def since (i : Nat) : List Deed → List Deed
  | [] => []
  | d :: past => if d.opens i then [d] else d :: since i past

/-- The readers charged to a buffer since it was last handed out. -/
def charged (i : Nat) (past : List Deed) : Nat := ((since i past).map (Deed.charge i)).sum

/-- The readers of a buffer released since it was last handed out. -/
def repaid (i : Nat) (past : List Deed) : Nat := ((since i past).map (Deed.repay i)).sum

/-- The readers that a buffer still has. -/
def outstanding (i : Nat) (past : List Deed) : Nat := charged i past - repaid i past

namespace Call

/-- That no buffer gets more readers by a call than can be counted. -/
def Fits (past : List Deed) : Call → Prop
  | acquire n => n < halfWordSize
  | reserve (.pooled i) n => outstanding i past + n < halfWordSize
  | reserve .zero _ | release _ | reset => True

/-- That a call is about readers that nobody can have: it adds some to a buffer that has none, or
takes one from it. -/
def Unbacked (past : List Deed) : Call → Prop
  | reserve (.pooled i) n => 0 < n ∧ outstanding i past = 0
  | release (.pooled i) => outstanding i past = 0
  | acquire _ | reserve .zero _ | release .zero | reset => False

end Call

instance (past : List Deed) : DecidablePred (Call.Fits past)
  | .acquire n => inferInstanceAs (Decidable (n < halfWordSize))
  | .reserve (.pooled i) n => inferInstanceAs (Decidable (outstanding i past + n < halfWordSize))
  | .reserve .zero _ | .release _ | .reset => inferInstanceAs (Decidable True)

/-- Where calls lead to that do not fail, and what has been done on the way. -/
inductive Runs (start : Pool) : List Deed → Pool → Prop
  | start : Runs start [] start
  | step {past p c d p'} : Runs start past p → c.Fits past → p.carryOut c = .ok (d, p') →
      Runs start (d :: past) p'

/-- That what a pool has written down is what its past comes to. -/
structure Accounts (p : Pool) (past : List Deed) : Prop where
  /-- Every free buffer exists and has no readers, and every other one has some. -/
  free : ∀ i, i ∈ p.free ↔ i < p.size ∧ outstanding i past = 0
  once : p.free.Nodup
  /-- No more readers have been released than were charged. -/
  solvent : ∀ i, repaid i past ≤ charged i past
  readers : ∀ i < p.size, p.readersOf (.pooled i) = .ok (outstanding i past)
  totals : p.stats.acquired = p.stats.released + p.stats.live

/-- How a buffer that is not free becomes free by a deed: nobody is to read it, its last reader is gone,
or all buffers are free. -/
def Deed.Frees (p : Pool) (past : List Deed) (i : Nat) : Deed → Prop
  | acquired id n => id = .pooled i ∧ n = 0
  | released id => id = .pooled i ∧ outstanding i past = 1
  | reset => i < p.size
  | reserved _ _ => False

/-! ## One call -/

section Readers

variable {i : Nat} {past : List Deed}

theorem charged_cons (d : Deed) : charged i (d :: past) =
    d.charge i + if d.opens i then 0 else charged i past := by
  unfold charged
  rw [since]
  split
  · simp
  · simp

theorem repaid_cons (d : Deed) : repaid i (d :: past) =
    d.repay i + if d.opens i then 0 else repaid i past := by
  unfold repaid
  rw [since]
  split
  · simp
  · simp

end Readers

section Acquire

variable (p : Pool) (n : Nat)

theorem acquire_fst : (p.acquire n).1 = .pooled p.takeFree.1 := by
  unfold acquire
  dsimp only
  split
  · rfl
  · rfl

/-- Adding readers to a buffer frees none. -/
theorem free_reserve {p q : Pool} {id : BufferId} {n : Nat} (h : p.reserve id n = .ok q) :
    q.free = p.free := by
  cases id with
  | zero =>
    cases h
    rfl
  | pooled i =>
    cases hread : p.readers[i]? with
    | none =>
      by_cases hn : n = 0
      · rw [reserve, if_pos hn] at h
        cases h
        rfl
      · rw [reserve, if_neg hn, readersOf, hread] at h
        cases h
    | some count =>
      rw [reserve_eq hread] at h
      split_ifs at h
      · cases h
        rfl
      · cases h
        rfl

/-- A buffer is free again when its last reader is gone. -/
theorem free_release {p q : Pool} {i : Nat} (h : p.release (.pooled i) = .ok q) :
    ∃ count, p.readers[i]? = some count ∧ q.free = if count = 1 then i :: p.free else p.free := by
  cases hread : p.readers[i]? with
  | none =>
    rw [release, readersOf, hread] at h
    cases h
  | some count =>
    refine ⟨count, rfl, ?_⟩
    rw [release_eq hread] at h
    split_ifs at h with hnone hlast
    · cases h
      rw [if_pos hlast]
    · cases h
      rw [if_neg hlast]

/-- The free buffers after one has been handed out: it is back among them if nobody reads it. -/
theorem free_acquire :
    (p.acquire n).2.free = if n = 0 then p.takeFree.1 :: p.free.tail else p.free.tail := by
  have htail : p.takeFree.2.free = p.free.tail := by
    unfold takeFree
    split
    · next h => rw [h, List.tail_cons]
    · next h => rw [allocate, h, List.tail_nil]
  unfold acquire
  dsimp only
  split
  · rw [htail]
  · exact htail

end Acquire

section Balances

variable {p : Pool} {held : List BufferId}

/-- A buffer that nobody is to read is handed out and is free again. -/
theorem acquire_zero (h : p.Balances held) :
    (p.acquire 0).2.Balances held ∧ p.Extends (p.acquire 0).2 := by
  obtain ⟨i, q, htake, hnot, hi, hsize, hcount, hfree, honce, hbooks, hext⟩ := takeFree_spec h
  -- the buffer is the one that was taken off the list, and it is put back on it
  have hzero : held.count (.pooled i) = 0 := List.count_eq_zero.2 hnot
  have heq : (p.acquire 0).2 = { q with
      acquired := q.acquired + 1, free := i :: q.free, released := q.released + 1 } := by
    simp [acquire, htake]
  rw [heq]
  refine ⟨⟨hsize, hcount, fun j => ?_, ?_, ?_⟩, hext.trans (.of_buffers rfl rfl)⟩
  · show j ∈ i :: q.free ↔ _
    rw [List.mem_cons, hfree]
    constructor
    · intro hj
      rcases hj with hj | hj
      · rw [hj]
        exact ⟨hi, hzero⟩
      · exact ⟨hj.1, hj.2.1⟩
    · intro hj
      by_cases hij : j = i
      · exact .inl hij
      · exact .inr ⟨hj.1, hj.2, hij⟩
  · apply List.nodup_cons.2
    exact ⟨fun hmem => ((hfree i).1 hmem).2.2 rfl, honce⟩
  · show q.acquired + 1 = q.released + 1 + q.readers.countP (0 < ·)
    omega

/-- Handing out a buffer: nobody held it before, and all its readers do then. -/
theorem acquire_balances (h : p.Balances held) {n : Nat} (hn : n < halfWordSize) :
    ∃ i, (p.acquire n).1 = .pooled i ∧ .pooled i ∉ held ∧
      (p.acquire n).2.Balances (List.replicate n (.pooled i) ++ held) ∧
      p.Extends (p.acquire n).2 := by
  by_cases hzero : n = 0
  · obtain ⟨i, q, htake, hnot, -⟩ := takeFree_spec h
    refine ⟨i, ?_, hnot, ?_⟩
    · rw [acquire_fst, htake]
    · rw [hzero]
      exact acquire_zero h
  · obtain ⟨i, q, heq, hnot, hbal, hext⟩ := acquire_spec h (Nat.pos_of_ne_zero hzero) hn
    rw [heq]
    exact ⟨i, rfl, hnot, hbal, hext⟩

/-- A buffer that nobody holds has no readers, or does not exist. -/
theorem readersOf_of_not_mem (h : p.Balances held) {i : Nat} (hi : .pooled i ∉ held) :
    p.readersOf (.pooled i) = .ok 0 ∨ p.readersOf (.pooled i) = .error .outOfBounds := by
  by_cases hlt : i < p.readers.size
  · left
    have hcount : held.count (.pooled i) = 0 := List.count_eq_zero.2 hi
    simp [readersOf, hlt, h.readers_eq hlt, hcount]
  · right
    simp [readersOf, Nat.le_of_not_lt hlt]

end Balances

/-- That the books of a pool balance with its past. -/
def Tallies (p : Pool) (past : List Deed) : Prop :=
  ∃ held, p.Balances held ∧ ∀ i, repaid i past + held.count (.pooled i) = charged i past

namespace Tallies

variable {p p' : Pool} {past : List Deed} {c : Call} {d : Deed}

theorem count_eq {held : List BufferId}
    (h : ∀ i, repaid i past + held.count (.pooled i) = charged i past) (i : Nat) :
    held.count (.pooled i) = outstanding i past := by
  have := h i
  unfold outstanding
  omega

theorem readers_eq (h : p.Tallies past) {i count : Nat} (hread : p.readers[i]? = some count) :
    count = outstanding i past := by
  obtain ⟨held, hbal, hheld⟩ := h
  have hcount := hbal.count i
  rw [hread, count_eq hheld] at hcount
  exact hcount

theorem accounts (h : p.Tallies past) : p.Accounts past := by
  obtain ⟨held, hbal, hheld⟩ := h
  have hcount := count_eq hheld
  refine ⟨fun i => ?_, hbal.once, fun i => ?_, fun i hi => ?_, hbal.books⟩
  · rw [hbal.free, hcount, hbal.size]
    rfl
  · have := hheld i
    omega
  · have hlt : i < p.readers.size := hbal.size.symm ▸ hi
    simp [readersOf, hlt, hbal.readers_eq hlt, hcount]

/-- No buffer is handed out that still has readers. -/
theorem exists_acquire (h : p.Tallies past) (n : Nat) :
    ∃ i, (p.acquire n).1 = .pooled i ∧ outstanding i past = 0 := by
  obtain ⟨held, hbal, hheld⟩ := h
  obtain ⟨i, q, htake, hnot, -⟩ := takeFree_spec hbal
  refine ⟨i, ?_, ?_⟩
  · rw [acquire_fst, htake]
  · rw [← count_eq hheld]
    exact List.count_eq_zero.2 hnot

/-- A call about readers that nobody has fails. -/
theorem fails (h : p.Tallies past) (hc : c.Unbacked past) : ∃ how, p.carryOut c = .error how := by
  obtain ⟨held, hbal, hheld⟩ := h
  have hnot : ∀ i, outstanding i past = 0 → .pooled i ∉ held := by
    intro i hi
    apply List.count_eq_zero.1
    rw [count_eq hheld, hi]
  cases c with
  | acquire n => exact hc.elim
  | reset => exact hc.elim
  | reserve id n =>
    cases id with
    | zero => exact hc.elim
    | pooled i =>
      obtain ⟨hpos, hnone⟩ := hc
      have hne : n ≠ 0 := Nat.ne_of_gt hpos
      rcases readersOf_of_not_mem hbal (hnot i hnone) with hread | hread
      · exact ⟨_, by simp only [carryOut, reserve, if_neg hne, hread]; rfl⟩
      · exact ⟨_, by simp only [carryOut, reserve, if_neg hne, hread]; rfl⟩
  | release id =>
    cases id with
    | zero => exact hc.elim
    | pooled i =>
      rcases readersOf_of_not_mem hbal (hnot i hc) with hread | hread
      · exact ⟨_, by simp only [carryOut, release, hread]; rfl⟩
      · exact ⟨_, by simp only [carryOut, release, hread]; rfl⟩

/-- Any other call is done, and the books balance again. -/
theorem carryOut (h : p.Tallies past) (hfits : c.Fits past) (hc : ¬ c.Unbacked past) :
    ∃ d p', p.carryOut c = .ok (d, p') ∧ p'.Tallies (d :: past) ∧ p.Extends p' := by
  obtain ⟨held, hbal, hheld⟩ := h
  have hcount := count_eq hheld
  cases c with
  | acquire n =>
    obtain ⟨i, hbuffer, hnot, hbal', hext⟩ := acquire_balances hbal hfits
    refine ⟨_, _, rfl, ⟨_, hbal', fun j => ?_⟩, hext⟩
    -- the readers of the buffer are counted afresh, which loses none, since nobody held it
    have hzero : held.count (.pooled i) = 0 := List.count_eq_zero.2 hnot
    rw [charged_cons, repaid_cons, hbuffer, List.count_append, List.count_replicate]
    by_cases hj : i = j
    · subst hj
      simp [Deed.charge, Deed.repay, Deed.opens, hzero]
    · simp [Deed.charge, Deed.repay, Deed.opens, hj, hheld j]
  | reserve id n =>
    -- only somebody who holds a buffer may add readers to it, unless it adds none
    have hmem : n ≠ 0 → id ≠ .zero → id ∈ held := by
      intro hne hid
      cases id with
      | zero => exact absurd rfl hid
      | pooled i =>
        by_contra hnot
        apply hc
        exact ⟨Nat.pos_of_ne_zero hne, by rw [← hcount, List.count_eq_zero.2 hnot]⟩
    have hlt : id ≠ .zero → held.count id + n < halfWordSize := by
      intro hid
      cases id with
      | zero => exact absurd rfl hid
      | pooled i =>
        rw [hcount]
        exact hfits
    obtain ⟨q, hq, hbal', hext, -⟩ := reserve_spec hbal hmem hlt
    refine ⟨.reserved id n, q, by rw [Pool.carryOut, hq]; rfl, ⟨_, hbal', fun j => ?_⟩, hext⟩
    have := hheld j
    rw [charged_cons, repaid_cons, List.count_append, List.count_replicate]
    by_cases hj : id = .pooled j
    · simp [Deed.charge, Deed.repay, Deed.opens, hj]
      omega
    · simp [Deed.charge, Deed.repay, Deed.opens, hj, this]
  | release id =>
    cases id with
    | zero =>
      refine ⟨.released .zero, p, rfl, ⟨held, hbal, fun j => ?_⟩, .refl p⟩
      rw [charged_cons, repaid_cons]
      simpa [Deed.charge, Deed.repay, Deed.opens] using hheld j
    | pooled i =>
      have hmem : .pooled i ∈ held := by
        by_contra hnot
        apply hc
        show outstanding i past = 0
        rw [← hcount, List.count_eq_zero.2 hnot]
      obtain ⟨q, hq, hbal', hext, -⟩ := release_spec (hbal.perm (List.perm_cons_erase hmem))
      refine ⟨.released (.pooled i), q, by rw [Pool.carryOut, hq]; rfl, ⟨_, hbal', fun j => ?_⟩,
        hext⟩
      have := hheld j
      rw [charged_cons, repaid_cons]
      by_cases hj : i = j
      · subst hj
        have hpos := List.count_pos_iff.2 hmem
        simp [Deed.charge, Deed.repay, Deed.opens]
        omega
      · simp [Deed.charge, Deed.repay, Deed.opens, hj, Ne.symm hj, List.count_erase_of_ne, this]
  | reset =>
    refine ⟨.reset, p.reset, rfl, ⟨[], balances_reset p, fun j => ?_⟩, .of_buffers rfl rfl⟩
    rw [charged_cons, repaid_cons]
    simp [Deed.charge, Deed.repay, Deed.opens]

/-- What has been done leaves the books in balance, and what is in the buffers. -/
theorem step (h : p.Tallies past) (hfits : c.Fits past) (hdone : p.carryOut c = .ok (d, p')) :
    p'.Tallies (d :: past) ∧ p.Extends p' := by
  have hc : ¬ c.Unbacked past := by
    intro hc
    obtain ⟨how, hfails⟩ := h.fails hc
    rw [hdone] at hfails
    cases hfails
  obtain ⟨d', q, hdone', htallies, hext⟩ := h.carryOut hfits hc
  rw [hdone] at hdone'
  cases hdone'
  exact ⟨htallies, hext⟩

/-- A call fails exactly if it is about readers that nobody has. -/
theorem fails_iff (h : p.Tallies past) (hfits : c.Fits past) :
    (∃ how, p.carryOut c = .error how) ↔ c.Unbacked past := by
  constructor
  · intro hfails
    by_contra hc
    obtain ⟨how, hfails⟩ := hfails
    obtain ⟨d, q, hdone, -⟩ := h.carryOut hfits hc
    rw [hfails] at hdone
    cases hdone
  · exact h.fails

/-- A buffer becomes free when nobody is left to read it, and only then. -/
theorem mem_free_iff (h : p.Tallies past) (hdone : p.carryOut c = .ok (d, p')) {i : Nat}
    (hi : i ∉ p.free) : i ∈ p'.free ↔ d.Frees p past i := by
  have htail : i ∉ p.free.tail := fun hmem => hi (List.mem_of_mem_tail hmem)
  cases c with
  | acquire n =>
    cases hdone
    show _ ↔ (p.acquire n).1 = .pooled i ∧ n = 0
    rw [free_acquire, acquire_fst]
    split
    · next hzero => simp [hzero, htail, eq_comm]
    · next hne => simp [hne, htail]
  | reserve id n =>
    obtain ⟨q, hq, hpure⟩ := bind_eq_ok.1 hdone
    cases hpure
    rw [free_reserve hq]
    exact iff_of_false hi not_false
  | release id =>
    obtain ⟨q, hq, hpure⟩ := bind_eq_ok.1 hdone
    cases hpure
    show _ ↔ id = .pooled i ∧ outstanding i past = 1
    cases id with
    | zero =>
      cases hq
      exact iff_of_false hi (by simp)
    | pooled j =>
      obtain ⟨count, hread, hfree⟩ := free_release hq
      rw [hfree, h.readers_eq hread]
      split
      · next hlast =>
        rw [List.mem_cons, or_iff_left hi]
        constructor
        · intro hij
          rw [hij]
          exact ⟨rfl, hlast⟩
        · intro hij
          cases hij.1
          rfl
      · next hmore =>
        apply iff_of_false hi
        intro hij
        cases hij.1
        exact hmore hij.2
  | reset =>
    cases hdone
    show i ∈ List.range p.size ↔ i < p.size
    exact List.mem_range

end Tallies

/-! ## Runs -/

/-- In a new pool all buffers are free. -/
theorem tallies_withCapacity {blockSize count : Nat} {start : Pool}
    (h : withCapacity blockSize count = .ok start) :
    start.Tallies [] ∧ start.blockSize = blockSize := by
  have hallocate : ∀ n, (Nat.repeat allocate n { blockSize }).blockSize = blockSize := by
    intro n
    induction n with
    | zero => rfl
    | succ n ih => exact ih
  obtain ⟨_, -, h⟩ := bind_eq_ok.1 h
  obtain ⟨_, -, h⟩ := bind_eq_ok.1 h
  cases h
  exact ⟨⟨[], balances_reset _, fun i => rfl⟩, hallocate count⟩

theorem tallies_of_runs {start p : Pool} {past : List Deed} (hstart : start.Tallies [])
    (h : start.Runs past p) : p.Tallies past ∧ start.Extends p := by
  induction h with
  | start => exact ⟨hstart, .refl start⟩
  | step _ hfits hdone ih =>
    obtain ⟨htallies, hext⟩ := ih.1.step hfits hdone
    exact ⟨htallies, ih.2.trans hext⟩

end Patchbay.Pool
