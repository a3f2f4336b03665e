import Mathlib
import Patchbay.Number.Binary

/-!
# Numbers in order

Double-precision numbers other than NaN are compared by their places in a linear order
(`Double.lt_iff`, `Double.le_iff`). There are finitely many of them, so nothing that moves on can
move on for ever: each step to a later number leaves fewer numbers still to come
(`Double.later_lt_later`).
-/

namespace Patchbay.Double

open Float.Model Float.Model.UnpackedFloat

/-- The place of a number: its sign, and then its exponent and its mantissa. -/
def placeOf : UnpackedFloat → ℤ ×ₗ ℤ ×ₗ ℤ
  | .infinity .negative => toLex (-2, toLex (0, 0))
  | .finite .negative m e _ => toLex (-1, toLex (-e, -m))
  | .zero _ | .notANumber => toLex (0, toLex (0, 0))
  | .finite .positive m e _ => toLex (1, toLex (e, m))
  | .infinity .positive => toLex (2, toLex (0, 0))

theorem then_eq_lt {e e' : Int} {m m' : Nat} :
    (compare e e').then (compare m m') = .lt ↔ e < e' ∨ e = e' ∧ m < m' := by
  rw [Ordering.then_eq_lt, compare_lt_iff_lt, compare_lt_iff_lt, compare_eq_iff_eq]

theorem then_eq_gt {e e' : Int} {m m' : Nat} :
    (compare e e').then (compare m m') = .gt ↔ e' < e ∨ e = e' ∧ m' < m := by
  rw [Ordering.then_eq_gt, compare_gt_iff_gt, compare_gt_iff_gt, compare_eq_iff_eq]

theorem then_isLE {e e' : Int} {m m' : Nat} :
    ((compare e e').then (compare m m')).isLE = true ↔ e < e' ∨ e = e' ∧ m ≤ m' := by
  rw [Ordering.isLE_iff_ne_gt, then_eq_gt]
  omega

theorem then_isGE {e e' : Int} {m m' : Nat} :
    ((compare e e').then (compare m m')).isGE = true ↔ e' < e ∨ e = e' ∧ m' ≤ m := by
  rw [Ordering.isGE_iff_ne_lt, then_eq_lt]
  omega

theorem unpacked_lt_iff (x y : UnpackedFloat) :
    x.lt y = true ↔ x.isNaN = false ∧ y.isNaN = false ∧ placeOf x < placeOf y := by
  rcases x with ⟨_ | _⟩ | _ | _ | ⟨_ | _, m, e, hm⟩ <;>
    rcases y with ⟨_ | _⟩ | _ | _ | ⟨_ | _, m', e', hm'⟩ <;>
    simp [UnpackedFloat.lt, UnpackedFloat.compare, UnpackedFloat.isNaN, placeOf, Prod.Lex.lt_iff,
      then_eq_lt, then_eq_gt]
  rfl

theorem unpacked_le_iff (x y : UnpackedFloat) :
    x.le y = true ↔ x.isNaN = false ∧ y.isNaN = false ∧ placeOf x ≤ placeOf y := by
  rcases x with ⟨_ | _⟩ | _ | _ | ⟨_ | _, m, e, hm⟩ <;>
    rcases y with ⟨_ | _⟩ | _ | _ | ⟨_ | _, m', e', hm'⟩ <;>
    simp [UnpackedFloat.le, UnpackedFloat.compare, UnpackedFloat.isNaN, placeOf, Prod.Lex.le_iff,
      then_isLE, then_isGE] <;>
    rfl

/-- The place of a number. -/
def place (x : Float) : ℤ ×ₗ ℤ ×ₗ ℤ := placeOf x.toModel.unpack

theorem lt_iff {x y : Float} : x < y ↔ x.isNaN = false ∧ y.isNaN = false ∧ place x < place y :=
  decide_eq_true_iff.trans (unpacked_lt_iff ..)

theorem le_iff {x y : Float} : x ≤ y ↔ x.isNaN = false ∧ y.isNaN = false ∧ place x ≤ place y :=
  decide_eq_true_iff.trans (unpacked_le_iff ..)

theorem not_lt_self (x : Float) : ¬ x < x := fun h => (lt_iff.1 h).2.2.false

variable {x y z : Float}

theorem lt_of_lt_of_lt (h : x < y) (h' : y < z) : x < z := by
  obtain ⟨hx, -, h⟩ := lt_iff.1 h
  obtain ⟨-, hz, h'⟩ := lt_iff.1 h'
  exact lt_iff.2 ⟨hx, hz, h.trans h'⟩

theorem lt_of_lt_of_le (h : x < y) (h' : y ≤ z) : x < z := by
  obtain ⟨hx, -, h⟩ := lt_iff.1 h
  obtain ⟨-, hz, h'⟩ := le_iff.1 h'
  exact lt_iff.2 ⟨hx, hz, h.trans_le h'⟩

theorem lt_of_le_of_lt (h : x ≤ y) (h' : y < z) : x < z := by
  obtain ⟨hx, -, h⟩ := le_iff.1 h
  obtain ⟨-, hz, h'⟩ := lt_iff.1 h'
  exact lt_iff.2 ⟨hx, hz, h.trans_lt h'⟩

theorem le_of_le_of_le (h : x ≤ y) (h' : y ≤ z) : x ≤ z := by
  obtain ⟨hx, -, h⟩ := le_iff.1 h
  obtain ⟨-, hz, h'⟩ := le_iff.1 h'
  exact le_iff.2 ⟨hx, hz, h.trans h'⟩

/-- Two numbers are in order one way or the other, unless one is NaN. -/
theorem le_of_not_lt (hx : x.isNaN = false) (hy : y.isNaN = false) (h : ¬ x < y) : y ≤ x :=
  le_iff.2 ⟨hy, hx, not_lt.1 fun hlt => h (lt_iff.2 ⟨hx, hy, hlt⟩)⟩

theorem le_of_lt (h : x < y) : x ≤ y := by
  obtain ⟨hx, hy, h⟩ := lt_iff.1 h
  exact le_iff.2 ⟨hx, hy, h.le⟩

theorem le_refl (hx : x.isNaN = false) : x ≤ x := le_iff.2 ⟨hx, hx, le_rfl⟩

/-! ## Finitely many numbers -/

instance instFiniteFloat : Finite Float := by
  refine Finite.of_injective (fun x : Float => x.toModel.toBits.toBitVec.toFin) fun x y h => ?_
  have hbits : x.toModel.toBits = y.toModel.toBits :=
    UInt64.eq_of_toBitVec_eq (BitVec.eq_of_toFin_eq h)
  rcases x with ⟨⟨bits, valid⟩⟩
  rcases y with ⟨⟨bits', valid'⟩⟩
  cases hbits
  rfl

/-- How many numbers are later than one. -/
noncomputable def later (x : Float) : ℕ := {y : Float | x < y}.ncard

theorem later_lt_later (h : x < y) : later y < later x := by
  refine Set.ncard_lt_ncard ⟨fun z hz => lt_of_lt_of_lt h hz, fun hsub => ?_⟩ (Set.toFinite _)
  exact not_lt_self y (hsub h)

theorem later_le_later (h : x ≤ y) : later y ≤ later x :=
  Set.ncard_le_ncard (fun _ hz => lt_of_le_of_lt h hz) (Set.toFinite _)

end Patchbay.Double

/-! ## Single precision -/

namespace Patchbay.Single

open Float.Model

theorem lt_iff {x y : Float32} : x < y ↔ x.toModel.unpack.isNaN = false ∧
    y.toModel.unpack.isNaN = false ∧
      Double.placeOf x.toModel.unpack < Double.placeOf y.toModel.unpack :=
  decide_eq_true_iff.trans (Double.unpacked_lt_iff ..)

theorem le_iff {x y : Float32} : x ≤ y ↔ x.toModel.unpack.isNaN = false ∧
    y.toModel.unpack.isNaN = false ∧
      Double.placeOf x.toModel.unpack ≤ Double.placeOf y.toModel.unpack :=
  decide_eq_true_iff.trans (Double.unpacked_le_iff ..)

theorem lt_of_lt_of_le {x y z : Float32} (h : x < y) (h' : y ≤ z) : x < z := by
  obtain ⟨hx, -, h⟩ := lt_iff.1 h
  obtain ⟨-, hz, h'⟩ := le_iff.1 h'
  exact lt_iff.2 ⟨hx, hz, h.trans_le h'⟩

theorem le_of_le_of_le {x y z : Float32} (h : x ≤ y) (h' : y ≤ z) : x ≤ z := by
  obtain ⟨hx, -, h⟩ := le_iff.1 h
  obtain ⟨-, hz, h'⟩ := le_iff.1 h'
  exact le_iff.2 ⟨hx, hz, h.trans h'⟩

theorem not_lt_of_le {x y : Float32} (h : x ≤ y) : ¬ y < x := fun hlt =>
  absurd (le_iff.1 h).2.2 (not_le.2 (lt_iff.1 hlt).2.2)

end Patchbay.Single
