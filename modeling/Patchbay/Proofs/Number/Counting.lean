import Patchbay.Proofs.Number.Rounding

/-!
# Counting in single precision

Up to `2 ^ 24` every count has a number, and counting down is exact (`ofCount_sub_one`). From 16777220 on
the numbers lie so far apart that one less is rounded up again, not below 16777220
(`le_sub_one`). So a count that is counted down by one comes to zero if and only if it is at most
two beyond `2 ^ 24` (`iterate_countDown_eq_zero_iff`).
-/

namespace Patchbay.Single

open Float.Model (Format UnpackedFloat totalExponent)
open Float.Model.UnpackedFloat

/-! ## Counts that are exact -/

/-- The single-precision number nearest to a count. -/
def ofCount (n : Nat) : Float32 := (UInt64.ofNat n).toFloat32

section Counting

variable {k : Nat} (hk : 0 < k) (hlt : k < 2 ^ 24)
include hk hlt

theorem log2_count : (k * 2 ^ (23 - k.log2)).log2 = 23 := by
  have hlog : k.log2 < 24 := (Nat.log2_lt hk.ne').2 hlt
  rw [Double.log2_mul_two_pow hk.ne']
  omega

theorem canonical_count :
    Canonical Format.binary32 (k * 2 ^ (23 - k.log2)) ((k.log2 : Int) - 23) := by
  have hlog := log2_count hk hlt
  unfold Canonical Format.targetExponent totalExponent
  rw [hlog]
  show max ((23 : Nat) + 1 + ((k.log2 : Int) - 23) - 24) (-149) = _
  omega

theorem ofNat_count : UnpackedFloat.ofNat Format.binary32 k =
    .finite .positive (k * 2 ^ (23 - k.log2)) ((k.log2 : Int) - 23) (by positivity) := by
  have hlog : k.log2 < 24 := (Nat.log2_lt hk.ne').2 hlt
  have hround := round_of_canonical_mul (canonical_count hk hlt) hk .positive
  have hexponent : (k.log2 : Int) - 23 + (23 - k.log2 : Nat) = 0 := by omega
  rw [hexponent] at hround
  show UnpackedFloat.normalize Format.binary32 (k : Int) 0 .positive = _
  rw [normalize_natCast hk, hround]

theorem toNat_ofNat_count : (UInt64.ofNat k).toNat = k := by
  rw [UInt64.toNat_ofNat']
  exact Nat.mod_eq_of_lt (by omega)

theorem unpack_ofCount : (ofCount k).toModel.unpack =
    .finite .positive (k * 2 ^ (23 - k.log2)) ((k.log2 : Int) - 23) (by positivity) := by
  have hlog : k.log2 < 24 := (Nat.log2_lt hk.ne').2 hlt
  show unpack Format.binary32
    (pack Format.binary32 (UnpackedFloat.ofNat Format.binary32 (UInt64.ofNat k).toNat)) = _
  rw [toNat_ofNat_count hk hlt, ofNat_count hk hlt]
  exact unpack_pack_of_normal _ (log2_count hk hlt) (by omega) (by omega)

/-- One less than a count is found before any rounding. -/
theorem sub_one_count : UnpackedFloat.sub Format.binary32
    (.finite .positive (k * 2 ^ (23 - k.log2)) ((k.log2 : Int) - 23) (by positivity))
    (1 : Float32).toModel.unpack = UnpackedFloat.ofNat Format.binary32 (k - 1) := by
  have hlog : k.log2 < 24 := (Nat.log2_lt hk.ne').2 hlt
  have hone : (1 : Float32).toModel.unpack = .finite .positive (2 ^ 23) (-23) (by decide) := rfl
  have hmin : min ((k.log2 : Int) - 23) (-23) = -23 := by omega
  have hamount : ((k.log2 : Int) - 23 - -23).toNat = k.log2 := by omega
  have hmantissa : k * 2 ^ (23 - k.log2) * 2 ^ k.log2 = k * 2 ^ 23 := by
    rw [Nat.mul_assoc, ← Nat.pow_add, Nat.sub_add_cancel (by omega)]
  have hdifference : Sign.positive.apply ((k * 2 ^ 23 : Nat) : Int) -
      Sign.positive.apply ((2 ^ 23 : Nat) : Int) = ((k - 1) * 2 ^ 23 : Nat) := by
    show ((k * 2 ^ 23 : Nat) : Int) - ((2 ^ 23 : Nat) : Int) = _
    omega
  rw [hone]
  simp only [UnpackedFloat.sub, decreaseExponent, hmin, hamount, Nat.shiftLeft_eq, hmantissa]
  rw [sub_self, Int.toNat_zero, pow_zero, Nat.mul_one, hdifference]
  rcases Nat.eq_zero_or_pos (k - 1) with hzero | hpos
  · rw [hzero]
    rfl
  · have hrest : k - 1 < 2 ^ 24 := by omega
    have hlog' : (k - 1).log2 < 24 := (Nat.log2_lt hpos.ne').2 hrest
    have hround := round_of_canonical (canonical_count hpos hrest) (by positivity) .positive
      (k - 1).log2
    have hsplit : (k - 1) * 2 ^ (23 - (k - 1).log2) * 2 ^ (k - 1).log2 = (k - 1) * 2 ^ 23 := by
      rw [Nat.mul_assoc, ← Nat.pow_add, Nat.sub_add_cancel (by omega)]
    have hexponent : ((k - 1).log2 : Int) - 23 - ((k - 1).log2 : Nat) = -23 := by omega
    rw [hsplit, hexponent] at hround
    rw [normalize_natCast (by positivity), hround, ofNat_count hpos hrest]

end Counting

/-- Counting down by one is exact from `2 ^ 24` on. -/
theorem ofCount_sub_one {k : Nat} (hk : 0 < k) (hle : k ≤ 2 ^ 24) :
    ofCount k - 1 = ofCount (k - 1) := by
  rcases hle.lt_or_eq with hlt | rfl
  · show Float32.ofModel (.pack (UnpackedFloat.sub Format.binary32 (ofCount k).toModel.unpack
      (1 : Float32).toModel.unpack)) = Float32.ofModel (.pack
        (UnpackedFloat.ofNat Format.binary32 (UInt64.ofNat (k - 1)).toNat))
    rw [unpack_ofCount hk hlt, sub_one_count hk hlt, UInt64.toNat_ofNat',
      Nat.mod_eq_of_lt (by omega)]
  · decide +kernel

/-! ## Where counting stops -/

/-- That a number lies so high that one less is rounded up to where it was, or to a number as high:
it is 16777220 or more. -/
def Stuck (u : UnpackedFloat) : Prop :=
  u.isNaN = false ∧ toLex (1, toLex (1, 8388610)) ≤ Double.placeOf u

instance : DecidablePred Stuck := fun _ => inferInstanceAs (Decidable (_ ∧ _))

theorem stuck_iff {x : Float32} : Stuck x.toModel.unpack ↔ 16777220 ≤ x := by
  have hplace : Double.placeOf (16777220 : Float32).toModel.unpack =
      toLex (1, toLex (1, 8388610)) := by decide +kernel
  rw [le_iff, hplace]
  exact (and_iff_right rfl).symm

theorem cases_of_stuck {u : UnpackedFloat} (h : Stuck u) : u = .infinity .positive ∨
    ∃ m e hm, u = .finite .positive m e hm ∧ (1 < e ∨ 1 = e ∧ 8388610 ≤ m) := by
  have hplace := h.2
  rcases u with ⟨_ | _⟩ | _ | s | ⟨_ | _, m, e, hm⟩ <;>
    simp [Double.placeOf, Prod.Lex.le_iff] at hplace ⊢
  exact ⟨hm, hplace⟩

/-- What is rounded from there on does not come out before it. -/
theorem stuck_round {n : Nat} (hn : 16777220 ≤ n) (j : Nat) : Stuck (unpack Format.binary32
    (pack Format.binary32
      (UnpackedFloat.round Format.binary32 .positive (n * 2 ^ j) (-j)))) := by
  have hlog : 24 ≤ n.log2 := (Nat.le_log2 (by omega)).2 (by omega)
  have hlog' : (n * 2 ^ j).log2 = n.log2 + j := Double.log2_mul_two_pow (by omega) j
  have hexponent : ((n * 2 ^ j).log2 : Int) + -j - 23 = n.log2 - 23 := by
    rw [hlog']
    omega
  obtain ⟨r, e, h, hround, hfull, hplace⟩ := exists_round (m := n * 2 ^ j) (e := -j)
    (by omega) (by omega)
  rw [hexponent] at hplace
  have hbelow : 1 < e ∨ 1 = e ∧ 8388610 ≤ r := by
    rcases hplace with hlt | ⟨heq, hle⟩
    · exact .inl (by omega)
    · rcases hlog.lt_or_eq with hlt | hlog
      · exact .inl (by omega)
      · refine .inr ⟨by omega, le_trans ?_ hle⟩
        rw [hlog', ← hlog, Nat.sub_add_comm (by decide), Nat.pow_add,
          Nat.mul_div_mul_right _ _ (by positivity)]
        omega
  rw [hround]
  rcases le_or_gt e 104 with hsmall | hlarge
  · rw [unpack_pack_of_normal h hfull (by omega) hsmall]
    refine ⟨rfl, ?_⟩
    simpa [Double.placeOf, Prod.Lex.le_iff] using hbelow
  · rw [unpack_pack_of_large h hlarge]
    decide

theorem le_ofCount {n : Nat} (hn : 2 ^ 24 + 2 < n) (hword : n < 2 ^ 64) :
    16777220 ≤ ofCount n := by
  rcases (Nat.succ_le_of_lt hn).lt_or_eq with hlt | rfl
  · have hcount : (UInt64.ofNat n).toNat = n := by
      rw [UInt64.toNat_ofNat']
      exact Nat.mod_eq_of_lt hword
    have hround := stuck_round (n := n) (by omega) 0
    rw [pow_zero, Nat.mul_one, Nat.cast_zero, neg_zero,
      ← normalize_natCast (by omega) 0 .positive] at hround
    apply stuck_iff.1
    show Stuck (unpack Format.binary32 (pack Format.binary32
      (UnpackedFloat.normalize Format.binary32 ((UInt64.ofNat n).toNat : Int) 0 .positive)))
    rw [hcount]
    exact hround
  · -- the first of them lies half way, and is rounded up to the even neighbour
    decide +kernel

theorem sub_one_whole {m k : Nat} (hm : 0 < m) : UnpackedFloat.sub Format.binary32
    (.finite .positive m k hm) (.finite .positive (2 ^ 23) (-23) (by decide)) =
      UnpackedFloat.normalize Format.binary32 ((m * 2 ^ k - 1) * 2 ^ 23 : Nat) (-23) .positive := by
  have hmin : min (k : Int) (-23) = -23 := by omega
  have hamount : ((k : Int) - -23).toNat = k + 23 := by omega
  have hpos : 0 < m * 2 ^ k := by positivity
  have hdifference : Sign.positive.apply ((m * 2 ^ (k + 23) : Nat) : Int) -
      Sign.positive.apply ((2 ^ 23 : Nat) : Int) = ((m * 2 ^ k - 1) * 2 ^ 23 : Nat) := by
    show ((m * 2 ^ (k + 23) : Nat) : Int) - ((2 ^ 23 : Nat) : Int) = _
    rw [Nat.pow_add, ← Nat.mul_assoc]
    omega
  simp only [UnpackedFloat.sub, decreaseExponent, hmin, hamount, Nat.shiftLeft_eq]
  rw [sub_self, Int.toNat_zero, pow_zero, Nat.mul_one, hdifference]

theorem stuck_sub_one {u : UnpackedFloat} (hu : Stuck u)
    (hfull : ∀ s m e hm, u = .finite s m e hm → -149 < e → m.log2 = 23) :
    Stuck (unpack Format.binary32 (pack Format.binary32 (UnpackedFloat.sub Format.binary32 u
      (.finite .positive (2 ^ 23) (-23) (by decide))))) := by
  rcases cases_of_stuck hu with rfl | ⟨m, e, hm, rfl, hbelow⟩
  · decide +kernel
  · obtain ⟨hle, -⟩ := (Nat.log2_eq_iff hm.ne').1 (hfull _ _ _ _ rfl (by omega))
    obtain ⟨k, rfl⟩ := Int.eq_ofNat_of_zero_le (show 0 ≤ e by omega)
    rcases Nat.lt_or_ge (m * 2 ^ k) 16777221 with hfirst | hbeyond
    · -- one less than the first of them lies half way, and its even neighbour is the first itself
      obtain ⟨rfl, rfl⟩ : k = 1 ∧ m = 8388610 := by
        rcases hbelow with hlong | ⟨hone, hge⟩
        · have hpow : 2 ^ 2 ≤ 2 ^ k := Nat.pow_le_pow_right (by decide) (by omega)
          have := Nat.mul_le_mul hle hpow
          omega
        · obtain rfl : k = 1 := by omega
          omega
      have hself : ∀ h : 0 < 8388610, Stuck (unpack Format.binary32 (pack Format.binary32
          (UnpackedFloat.sub Format.binary32 (.finite .positive 8388610 1 h)
            (.finite .positive (2 ^ 23) (-23) (by decide))))) := by
        decide +kernel
      exact hself hm
    · rw [sub_one_whole, normalize_natCast (by omega)]
      exact stuck_round (by omega) 23

/-- Counting down never leads below 16777220 again. -/
theorem le_sub_one {x : Float32} (hx : 16777220 ≤ x) : 16777220 ≤ x - 1 :=
  stuck_iff.1 (stuck_sub_one (stuck_iff.2 hx) fun _ _ _ _ h => log2_of_unpack h)

/-! ## Counting down -/

/-- No count but zero lies below one, even if it is rounded. -/
theorem one_le_ofCount {n : Nat} (hn : 0 < n) (hword : n < 2 ^ 64) : 1 ≤ ofCount n := by
  rcases Nat.lt_or_ge n (2 ^ 24) with hlt | hge
  · have hone : Double.placeOf (1 : Float32).toModel.unpack = toLex (1, toLex (-23, 2 ^ 23)) := by
      decide +kernel
    have hlow : 2 ^ 23 ≤ n * 2 ^ (23 - n.log2) :=
      ((Nat.log2_eq_iff (by positivity)).1 (log2_count hn hlt)).1
    have hplace : -23 < (n.log2 : Int) - 23 ∨
        -23 = (n.log2 : Int) - 23 ∧ 2 ^ 23 ≤ n * 2 ^ (23 - n.log2) := by
      omega
    rw [le_iff, unpack_ofCount hn hlt, hone]
    refine ⟨rfl, rfl, ?_⟩
    simp only [Double.placeOf, Prod.Lex.toLex_le_toLex, lt_irrefl, true_and, false_or]
    exact_mod_cast hplace
  · rcases Nat.lt_or_ge (2 ^ 24 + 2) n with hbeyond | hle
    · exact le_of_le_of_le (by decide +kernel) (le_ofCount hbeyond hword)
    · obtain rfl | rfl | rfl : n = 2 ^ 24 ∨ n = 2 ^ 24 + 1 ∨ n = 2 ^ 24 + 2 := by omega
      all_goals decide +kernel

theorem ofCount_pos {n : Nat} (hn : 0 < n) (hword : n < 2 ^ 64) : 0 < ofCount n :=
  lt_of_lt_of_le (by decide +kernel) (one_le_ofCount hn hword)

/-- One less, unless there is nothing left. -/
def countDown (r : Float32) : Float32 := if 0 < r then r - 1 else r

theorem countDown_zero : countDown 0 = 0 := if_neg (by decide +kernel)

theorem countDown_ofCount {k : Nat} (hle : k + 1 ≤ 2 ^ 24) :
    countDown (ofCount (k + 1)) = ofCount k := by
  rw [countDown, if_pos (ofCount_pos k.succ_pos (by omega)), ofCount_sub_one k.succ_pos hle]
  rfl

theorem iterate_countDown_ofCount {k : Nat} (hle : k ≤ 2 ^ 24) : countDown^[k] (ofCount k) = 0 := by
  induction k with
  | zero => decide +kernel
  | succ k ih => rw [Function.iterate_succ_apply, countDown_ofCount hle, ih (by omega)]

theorem le_iterate_countDown {x : Float32} (hx : 16777220 ≤ x) (k : Nat) :
    16777220 ≤ countDown^[k] x := by
  induction k with
  | zero => exact hx
  | succ k ih =>
    have hpos : 0 < countDown^[k] x := lt_of_lt_of_le (by decide +kernel) ih
    rw [Function.iterate_succ_apply', countDown, if_pos hpos]
    exact le_sub_one ih

/-- Counting down a count comes to zero in time up to two beyond `2 ^ 24`, and never beyond that. -/
theorem iterate_countDown_eq_zero_iff {n : Nat} (hword : n < 2 ^ 64) {k : Nat} (hk : n ≤ k) :
    countDown^[k] (ofCount n) = 0 ↔ n ≤ 2 ^ 24 + 2 := by
  constructor
  · intro hzero
    by_contra hlarge
    have := le_iterate_countDown (le_ofCount (by omega) hword) k
    rw [hzero] at this
    exact absurd this (by decide +kernel)
  · intro hle
    obtain ⟨j, rfl⟩ := Nat.exists_eq_add_of_le hk
    rw [Nat.add_comm, Function.iterate_add_apply]
    have hends : countDown^[n] (ofCount n) = 0 := by
      rcases Nat.lt_or_ge (2 ^ 24) n with hlarge | hsmall
      · obtain rfl | rfl : n = 2 ^ 24 + 1 ∨ n = 2 ^ 24 + 2 := by omega
        · have hfirst : ofCount (2 ^ 24 + 1) = ofCount (2 ^ 24) := by decide +kernel
          rw [hfirst, Function.iterate_succ_apply', iterate_countDown_ofCount le_rfl, countDown_zero]
        · have hfirst : countDown (ofCount (2 ^ 24 + 2)) = ofCount (2 ^ 24) := by decide +kernel
          rw [Function.iterate_succ_apply, hfirst, Function.iterate_succ_apply',
            iterate_countDown_ofCount le_rfl, countDown_zero]
      · exact iterate_countDown_ofCount hsmall
    rw [hends]
    exact Function.iterate_fixed countDown_zero j

end Patchbay.Single
