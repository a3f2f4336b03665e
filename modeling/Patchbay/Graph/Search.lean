/-!
# Searching a graph

A depth-first search through nodes with the numbers below `n`, for a node that is *found*. It ends
on every graph, since each node is looked at once.
-/

namespace Patchbay

/-- What a search sees at a node. -/
inductive Look where
  /-- It is what was looked for. -/
  | found
  /-- It is not, and the search goes on to these. -/
  | expand (next : List Nat)

/-- The number of nodes that a search has not looked at. -/
def unseen (n : Nat) (seen : List Nat) : Nat := (List.range n).countP (· ∉ seen)

theorem unseen_cons_lt {n x : Nat} {seen : List Nat} (hx : x < n) (h : x ∉ seen) :
    unseen n (x :: seen) < unseen n seen := by
  unfold unseen
  have hmem : x ∈ List.range n := List.mem_range.2 hx
  generalize List.range n = l at hmem
  induction l with
  | nil => simp at hmem
  | cons y l ih =>
    have hle : l.countP (· ∉ x :: seen) ≤ l.countP (· ∉ seen) :=
      List.countP_mono_left fun z _ hz => by simp at hz ⊢; exact hz.2
    rcases List.mem_cons.1 hmem with rfl | hmem
    · simp [h] at hle ⊢
      omega
    · have := ih hmem
      by_cases hy : y = x
      · subst hy
        simp [h] at this hle ⊢
        omega
      · by_cases hs : y ∈ seen <;> simp [hs, hy] at this ⊢ <;> omega

-- The termination proof uses `h`, which the linter overlooks.
set_option linter.unusedVariables false in
/-- Whether a node that is found can be reached from the nodes on the stack without passing
through the nodes already seen. -/
def search (n : Nat) (look : Nat → Look) (seen stack : List Nat) : Bool :=
  match stack with
  | [] => false
  | x :: stack =>
    if h : x < n ∧ x ∉ seen then
      match look x with
      | .found => true
      | .expand next => search n look (x :: seen) (next ++ stack)
    else search n look seen stack
termination_by (unseen n seen, stack.length)
decreasing_by
  · exact Prod.Lex.left _ _ (unseen_cons_lt h.1 h.2)
  · exact Prod.Lex.right _ (by simp)

end Patchbay
