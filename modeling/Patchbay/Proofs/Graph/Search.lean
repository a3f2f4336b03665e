import Mathlib
import Patchbay.Graph.Search

/-!
# What a search finds

`Finds` says by a path what `search` decides by a stack: that a node which is found can be reached.
The main statement is `search_iff`. A search looks at every node once, so what it has seen before it
ends is closed: whatever leads on from there has been seen too.
-/

namespace Patchbay

/-- From `x` a search through the nodes below `n` can come to a node that is found. -/
inductive Finds (n : Nat) (look : Nat → Look) : Nat → Prop
  | here {x : Nat} : x < n → look x = .found → Finds n look x
  | next {x y : Nat} {next : List Nat} :
      x < n → look x = .expand next → y ∈ next → Finds n look y → Finds n look x

variable {n : Nat} {look : Nat → Look}

theorem Finds.lt {x : Nat} (h : Finds n look x) : x < n := by
  cases h with
  | here hx _ => exact hx
  | next hx _ _ _ => exact hx

/-- A search that succeeds has come to a node that is found. -/
theorem finds_of_search {seen stack : List Nat} (h : search n look seen stack = true) :
    ∃ x ∈ stack, Finds n look x := by
  fun_induction search n look seen stack with
  | case1 => simp at h
  | case2 seen x stack hx hfound => exact ⟨x, List.mem_cons_self, .here hx.1 hfound⟩
  | case3 seen x stack hx next hnext ih =>
    obtain ⟨y, hy, hf⟩ := ih h
    rcases List.mem_append.1 hy with hy | hy
    · exact ⟨x, List.mem_cons_self, .next hx.1 hnext hy hf⟩
    · exact ⟨y, List.mem_cons_of_mem _ hy, hf⟩
  | case4 seen x stack hx ih =>
    obtain ⟨y, hy, hf⟩ := ih h
    exact ⟨y, List.mem_cons_of_mem _ hy, hf⟩

/-- A search that fails leaves nothing to be found: not from what it has seen, and not from what
was on its stack. -/
theorem not_finds_of_search {seen stack : List Nat} (h : search n look seen stack = false)
    (hseen : ∀ s ∈ seen, ∃ next, look s = .expand next ∧
      ∀ y ∈ next, y ∈ seen ∨ y ∈ stack ∨ n ≤ y) :
    ∀ x, x ∈ seen ∨ x ∈ stack → ¬ Finds n look x := by
  fun_induction search n look seen stack with
  | case1 seen =>
    -- the stack is empty, so the nodes seen lead to each other alone
    intro x hx hf
    replace hx : x ∈ seen := by simpa using hx
    induction hf with
    | @here x _ hfound =>
      obtain ⟨next, hnext, -⟩ := hseen x hx
      rw [hfound] at hnext
      cases hnext
    | @next x y next _ hnext hy hf ih =>
      obtain ⟨next', hnext', hclosed⟩ := hseen x hx
      rw [hnext] at hnext'
      cases hnext'
      rcases hclosed y hy with hy | hy | hy
      · exact ih hy
      · simp at hy
      · exact absurd hf.lt (by omega)
  | case2 => simp at h
  | case3 seen x stack hx next hnext ih =>
    intro z hz
    refine ih h ?_ z ?_
    · intro s hs
      rcases List.mem_cons.1 hs with rfl | hs
      · exact ⟨next, hnext, fun y hy => .inr (.inl (List.mem_append_left _ hy))⟩
      · obtain ⟨next', hnext', hclosed⟩ := hseen s hs
        refine ⟨next', hnext', fun y hy => ?_⟩
        rcases hclosed y hy with hy | hy | hy
        · exact .inl (List.mem_cons_of_mem _ hy)
        · rcases List.mem_cons.1 hy with rfl | hy
          · exact .inl List.mem_cons_self
          · exact .inr (.inl (List.mem_append_right _ hy))
        · exact .inr (.inr hy)
    · rcases hz with hz | hz
      · exact .inl (List.mem_cons_of_mem _ hz)
      · rcases List.mem_cons.1 hz with rfl | hz
        · exact .inl List.mem_cons_self
        · exact .inr (List.mem_append_right _ hz)
  | case4 seen x stack hx ih =>
    intro z hz hf
    have hclosed : ∀ s ∈ seen, ∃ next, look s = .expand next ∧
        ∀ y ∈ next, y ∈ seen ∨ y ∈ stack ∨ n ≤ y := by
      intro s hs
      obtain ⟨next, hnext, hclosed⟩ := hseen s hs
      refine ⟨next, hnext, fun y hy => ?_⟩
      rcases hclosed y hy with hy | hy | hy
      · exact .inl hy
      · rcases List.mem_cons.1 hy with rfl | hy
        · by_cases hlt : y < n
          · exact .inl (by simpa [hlt] using hx)
          · exact .inr (.inr (Nat.le_of_not_lt hlt))
        · exact .inr (.inl hy)
      · exact .inr (.inr hy)
    refine ih h hclosed z ?_ hf
    rcases hz with hz | hz
    · exact .inl hz
    · rcases List.mem_cons.1 hz with rfl | hz
      · exact .inl (by simpa [hf.lt] using hx)
      · exact .inr hz

/-- A search decides whether one of the nodes on its stack leads to a node that is found. -/
theorem search_iff {stack : List Nat} :
    search n look [] stack = true ↔ ∃ x ∈ stack, Finds n look x := by
  constructor
  · exact finds_of_search
  · rintro ⟨x, hx, hf⟩
    cases hs : search n look [] stack with
    | true => rfl
    | false => exact absurd hf (not_finds_of_search hs (by simp) x (.inr hx))

end Patchbay
