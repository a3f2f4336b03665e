import Mathlib
import Patchbay.Timeline

/-!
# Insertion in order of time

`insertBehind` adds one element (`insertBehind_perm`). If what it goes by is a key in a linear order,
it keeps a list in order (`pairwise_insertBehind`) and puts the element behind all others of the same
key (`filter_insertBehind`), so a list that is filled by it is sorted and stable.
-/

namespace Patchbay

variable {α β : Type} {before : α → Bool} {x : α} {xs : List α}

/-- Where the new element goes: nothing behind it is to be before it, and the one in front of it is. -/
theorem insertBehind_split (before : α → Bool) (x : α) (xs : List α) :
    ∃ front back, xs = front ++ back ∧ insertBehind before x xs = front ++ x :: back ∧
      (∀ y ∈ back, before y = false) ∧ ∀ y, front.getLast? = some y → before y = true := by
  refine ⟨(xs.reverse.dropWhile (!before ·)).reverse, (xs.reverse.takeWhile (!before ·)).reverse,
    ?_, rfl, fun y hy => ?_, fun y hy => ?_⟩
  · rw [← List.reverse_append, List.takeWhile_append_dropWhile, List.reverse_reverse]
  · simpa using List.mem_takeWhile_imp (List.mem_reverse.1 hy)
  · rw [List.getLast?_reverse] at hy
    have := List.head?_dropWhile_not (!before ·) xs.reverse
    rw [hy] at this
    simpa using this

theorem insertBehind_perm (before : α → Bool) (x : α) (xs : List α) :
    (insertBehind before x xs).Perm (x :: xs) := by
  obtain ⟨front, back, hxs, hins, -, -⟩ := insertBehind_split before x xs
  rw [hins, hxs]
  exact List.perm_middle

theorem mem_insertBehind {y : α} : y ∈ insertBehind before x xs ↔ y = x ∨ y ∈ xs := by
  rw [(insertBehind_perm before x xs).mem_iff, List.mem_cons]

/-- What was there keeps its order. -/
theorem sublist_insertBehind (before : α → Bool) (x : α) (xs : List α) :
    xs.Sublist (insertBehind before x xs) := by
  obtain ⟨front, back, hxs, hins, -, -⟩ := insertBehind_split before x xs
  rw [hins, hxs]
  exact List.Sublist.append (.refl front) (List.sublist_cons_self x back)

section Keys

variable [LinearOrder β] {key : α → β} (hb : ∀ y ∈ xs, before y = true ↔ key y ≤ key x)
include hb

/-- In a list in order, the new element goes between those that are not later and those that are. -/
theorem insertBehind_split_keys (h : xs.Pairwise (key · ≤ key ·)) :
    ∃ front back, xs = front ++ back ∧ insertBehind before x xs = front ++ x :: back ∧
      (∀ y ∈ front, key y ≤ key x) ∧ ∀ y ∈ back, key x < key y := by
  obtain ⟨front, back, hxs, hins, hback, hfront⟩ := insertBehind_split before x xs
  refine ⟨front, back, hxs, hins, fun y hy => ?_, fun y hy => ?_⟩
  · rw [hxs] at h hb
    -- The last of the front is not later than the new one, and all others are not later than it.
    obtain ⟨init, last, rfl⟩ := (List.eq_nil_or_concat' front).resolve_left (List.ne_nil_of_mem hy)
    have hlast : key last ≤ key x := (hb last (by simp)).1 (hfront last (by simp))
    rcases List.mem_append.1 hy with hy | hy
    · exact ((List.pairwise_append.1 (List.pairwise_append.1 h).1).2.2 y hy last
        List.mem_cons_self).trans hlast
    · rwa [List.mem_singleton.1 hy]
  · refine not_le.1 fun hle => ?_
    have := (hb y (hxs ▸ List.mem_append_right _ hy)).2 hle
    rw [hback y hy] at this
    cases this

/-- Insertion keeps a list in an order that is finer than that of the keys, if the new element comes
behind the elements of its own key. -/
theorem pairwise_insertBehind_of {R : α → α → Prop} (h : xs.Pairwise (key · ≤ key ·))
    (hR : xs.Pairwise R) (hfront : ∀ y ∈ xs, key y ≤ key x → R y x)
    (hback : ∀ y ∈ xs, key x < key y → R x y) : (insertBehind before x xs).Pairwise R := by
  obtain ⟨front, back, hxs, hins, hearlier, hlater⟩ := insertBehind_split_keys hb h
  rw [hins]
  rw [hxs] at hR hfront hback
  obtain ⟨hf, hbk, hfb⟩ := List.pairwise_append.1 hR
  refine List.pairwise_append.2 ⟨hf, List.pairwise_cons.2 ⟨fun y hy => ?_, hbk⟩, fun y hy z hz => ?_⟩
  · exact hback y (List.mem_append_right _ hy) (hlater y hy)
  · rcases List.mem_cons.1 hz with rfl | hz
    · exact hfront y (List.mem_append_left _ hy) (hearlier y hy)
    · exact hfb y hy z hz

theorem pairwise_insertBehind (h : xs.Pairwise (key · ≤ key ·)) :
    (insertBehind before x xs).Pairwise (key · ≤ key ·) :=
  pairwise_insertBehind_of hb h h (fun _ _ hle => hle) fun _ _ hlt => hlt.le

/-- Elements of one key stay in the order in which they came. -/
theorem filter_insertBehind (k : β) :
    (insertBehind before x xs).filter (key · = k) = xs.filter (key · = k) ++ [x].filter (key · = k) := by
  obtain ⟨front, back, hxs, hins, hback, -⟩ := insertBehind_split before x xs
  rw [hins, hxs, List.filter_append, List.filter_append, List.append_assoc, List.append_cancel_left_eq]
  by_cases hk : key x = k
  · have hnone : back.filter (key · = k) = [] := by
      refine List.filter_eq_nil_iff.2 fun y hy h => ?_
      have hyx : key y ≤ key x := by
        rw [of_decide_eq_true h, hk]
      have := (hb y (hxs ▸ List.mem_append_right _ hy)).2 hyx
      rw [hback y hy] at this
      cases this
    rw [List.filter_cons, hnone, List.nil_append]
    simp [hk]
  · simp [hk]

end Keys
end Patchbay
