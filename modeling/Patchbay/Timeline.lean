/-!
# Lists in order of time

New elements go after every element that is not later. Counting from the back, that is right
behind the last element that does not come later, so elements of one time keep the order in which
they came.
-/

namespace Patchbay

/-- The list with `x` right behind the last element for which `before` holds, at the front if it
holds for none. -/
def insertBehind (before : α → Bool) (x : α) (xs : List α) : List α :=
  let back := xs.reverse
  (back.dropWhile (!before ·)).reverse ++ x :: (back.takeWhile (!before ·)).reverse

/-- Insertion changes a list by adding one element. -/
theorem length_insertBehind (before : α → Bool) (x : α) (xs : List α) :
    (insertBehind before x xs).length = xs.length + 1 := by
  have h : xs.length =
      (xs.reverse.takeWhile (!before ·)).length + (xs.reverse.dropWhile (!before ·)).length := by
    rw [← List.length_append, List.takeWhile_append_dropWhile, List.length_reverse]
  simp only [insertBehind, List.length_append, List.length_reverse, List.length_cons]
  omega

end Patchbay
