import Patchbay.Proofs.Number.Sum

/-!
# What is not rounded

A format rounds a result to the nearest number that it has, and a number that it has it leaves as it is
(`round_of_canonical`, `unpack_pack_of_normal`). In single precision, what is rounded falls behind its
first digits nowhere (`exists_round`).
-/

namespace Patchbay.Single

open Float.Model (Format UnpackedFloat totalExponent)
open Float.Model.UnpackedFloat

/-! ## Rounding -/

section Rounding

variable {spec : Format} {m : Nat} {e : Int}

/-- That a magnitude has the exponent that a format would give it. -/
def Canonical (spec : Format) (m : Nat) (e : Int) : Prop :=
  spec.targetExponent (totalExponent m e) = e

/-- A mantissa that ends in zeros loses nothing with them. -/
theorem shiftRight_mul_two_pow (m j : Nat) :
    (⟨m * 2 ^ j, false, false⟩ : ExtendedMantissa) >>> j = ⟨m, false, false⟩ := by
  induction j generalizing m with
  | zero =>
    rw [pow_zero, Nat.mul_one]
    rfl
  | succ j ih =>
    show ((⟨m * 2 ^ (j + 1), false, false⟩ : ExtendedMantissa) >>> j).shiftRightOne = _
    rw [Nat.pow_succ', ← Nat.mul_assoc, ih]
    simp [ExtendedMantissa.shiftRightOne]

theorem totalExponent_mul_two_pow (hm : 0 < m) (e : Int) (j : Nat) :
    totalExponent (m * 2 ^ j) (e - j) = totalExponent m e := by
  unfold totalExponent
  rw [Double.log2_mul_two_pow hm.ne']
  push_cast
  ring

theorem shiftToTargetExponent_of_canonical (h : Canonical spec m e) (hm : 0 < m) (j : Nat) :
    shiftToTargetExponent spec (m * 2 ^ j) (e - j) .exact = (⟨m, false, false⟩, e) := by
  have hamount : (e - (e - j)).toNat = j := by omega
  rw [shiftToTargetExponent, totalExponent_mul_two_pow hm, h, shiftToExponent, hamount]
  show ((⟨m * 2 ^ j, false, false⟩ : ExtendedMantissa) >>> j, e - j + j) = _
  rw [shiftRight_mul_two_pow, sub_add_cancel]

/-- What is left of a mantissa after it was cut and rounded may end in zeros, and is cut again. -/
theorem roundWithAccuracy_of_shift {first : ExtendedMantissa} {r j : Nat} {e' : Int}
    (hshift : shiftToTargetExponent spec m e .exact = (first, e' - j))
    (hfirst : first.roundedMantissa = r * 2 ^ j) (h : Canonical spec r e') (hr : 0 < r) (s : Sign) :
    roundWithAccuracy spec s m e .exact = .finite s r e' hr := by
  unfold roundWithAccuracy
  rw [hshift]
  dsimp only
  rw [hfirst, shiftToTargetExponent_of_canonical h hr]
  exact dif_neg hr.ne'

/-- A mantissa that is long enough is rounded at once. -/
theorem round_of_le (h : e ≤ spec.targetExponent (totalExponent m e)) (s : Sign) :
    UnpackedFloat.round spec s m e = roundWithAccuracy spec s m e .exact := by
  have hamount : (e - spec.targetExponent (totalExponent m e)).toNat = 0 := by omega
  rw [UnpackedFloat.round, decreaseExponent, hamount, Nat.shiftLeft_zero]
  dsimp only
  rw [Nat.cast_zero, sub_zero]

/-- A number that a format has is not rounded, whatever zeros its mantissa ends in. -/
theorem round_of_canonical (h : Canonical spec m e) (hm : 0 < m) (s : Sign) (j : Nat) :
    UnpackedFloat.round spec s (m * 2 ^ j) (e - j) = .finite s m e hm := by
  have hle : e - j ≤ spec.targetExponent (totalExponent (m * 2 ^ j) (e - j)) := by
    rw [totalExponent_mul_two_pow hm, h]
    omega
  have hshift : shiftToTargetExponent spec (m * 2 ^ j) (e - j) .exact =
      (⟨m, false, false⟩, e - (0 : Nat)) := by
    rw [shiftToTargetExponent_of_canonical h hm, Nat.cast_zero, sub_zero]
  have hfirst : (⟨m, false, false⟩ : ExtendedMantissa).roundedMantissa = m * 2 ^ 0 := by
    rw [pow_zero, Nat.mul_one]
    rfl
  exact (round_of_le hle s).trans (roundWithAccuracy_of_shift hshift hfirst h hm s)

/-- A mantissa that is too short is made longer. -/
theorem round_of_canonical_mul {j : Nat} (h : Canonical spec (m * 2 ^ j) e) (hm : 0 < m) (s : Sign) :
    UnpackedFloat.round spec s m (e + j) = .finite s (m * 2 ^ j) e (by positivity) := by
  have htotal := totalExponent_mul_two_pow hm (e + j) j
  rw [add_sub_cancel_right] at htotal
  have hamount : (e + j - e).toNat = j := by omega
  have hlonger : UnpackedFloat.round spec s m (e + j) =
      UnpackedFloat.round spec s (m * 2 ^ j) e := by
    rw [round_of_le h.ge, UnpackedFloat.round, ← htotal, h, decreaseExponent, hamount,
      Nat.shiftLeft_eq]
    dsimp only
    rw [add_sub_cancel_right]
  have hsame := round_of_canonical h (by positivity) s 0
  rw [pow_zero, Nat.mul_one, Nat.cast_zero, sub_zero] at hsame
  rw [hlonger, hsame]

end Rounding

/-- A whole number above zero is rounded as it is. -/
theorem normalize_natCast {spec : Format} {m : Nat} (hm : 0 < m) (e : Int) (zero : Sign) :
    UnpackedFloat.normalize spec (m : Int) e zero = UnpackedFloat.round spec .positive m e := by
  have hpos : compare (m : Int) 0 = .gt := by
    rw [compare_gt_iff_gt]
    omega
  rw [UnpackedFloat.normalize, hpos]
  rfl

theorem targetExponent_eq (m : Nat) (e : Int) :
    Format.binary32.targetExponent (totalExponent m e) = max (m.log2 + e - 23) (-149) := by
  show max ((m.log2 + 1 + e : Int) - 24) (-149) = _
  congr 1
  ring

theorem exists_shiftToTargetExponent {spec : Format} {m j : Nat} {e : Int}
    (h : spec.targetExponent (totalExponent m e) = e + j) : ∃ first,
      shiftToTargetExponent spec m e .exact = (first, e + j) ∧ first.mantissa = m / 2 ^ j := by
  have hamount : (e + j - e).toNat = j := by omega
  refine ⟨_, ?_, Double.mantissa_shiftRight ⟨m, false, false⟩ j⟩
  rw [shiftToTargetExponent, h, shiftToExponent, hamount]
  rfl

/-- Rounding cuts a mantissa to its length, and what is left comes out no smaller. -/
theorem exists_round {m : Nat} {e : Int} (hlong : 23 ≤ m.log2) (hlow : -149 ≤ m.log2 + e - 23) :
    ∃ r e' h, UnpackedFloat.round Format.binary32 .positive m e = .finite .positive r e' h ∧
      r.log2 = 23 ∧
      (m.log2 + e - 23 < e' ∨ m.log2 + e - 23 = e' ∧ m / 2 ^ (m.log2 - 23) ≤ r) := by
  have hm : m ≠ 0 := by
    intro h
    rw [h] at hlong
    exact absurd hlong (by decide)
  obtain ⟨hle, hlt⟩ := (Nat.log2_eq_iff hm).1 rfl
  obtain ⟨j, hj⟩ := Nat.exists_eq_add_of_le hlong
  have hexponent : (m.log2 : Int) + e - 23 = e + j := by omega
  rw [hj, Nat.pow_add] at hle
  rw [hj, Nat.add_right_comm, Nat.pow_add] at hlt
  rw [hexponent] at hlow ⊢
  rw [hj, Nat.add_sub_cancel_left]
  have htarget : Format.binary32.targetExponent (totalExponent m e) = e + j := by
    rw [targetExponent_eq, hexponent]
    exact max_eq_left hlow
  have hround := round_of_le (show e ≤ Format.binary32.targetExponent (totalExponent m e) by omega)
    .positive
  obtain ⟨first, hshift, hcut⟩ := exists_shiftToTargetExponent htarget
  obtain ⟨hleast, hmost⟩ := Double.roundedMantissa_bounds first
  rw [hcut] at hleast hmost
  generalize hr : first.roundedMantissa = r at hleast hmost
  have hfull : 2 ^ 23 ≤ m / 2 ^ j := (Nat.le_div_iff_mul_le (by positivity)).2 hle
  have hbound : m / 2 ^ j < 2 ^ 24 := (Nat.div_lt_iff_lt_mul (by positivity)).2 hlt
  have hpos : 0 < r := by omega
  rcases Nat.lt_or_ge r (2 ^ 24) with hshort | hover
  · -- the mantissa has kept its length
    have hlog : r.log2 = 23 := (Nat.log2_eq_iff hpos.ne').2 ⟨by omega, hshort⟩
    have hcanonical : Canonical Format.binary32 r (e + j) := by
      rw [Canonical, targetExponent_eq, hlog]
      omega
    rw [← sub_zero (e + j), ← Nat.cast_zero] at hshift
    rw [← Nat.mul_one r, ← pow_zero 2] at hr
    exact ⟨r, e + j, hpos,
      hround.trans (roundWithAccuracy_of_shift hshift hr hcanonical hpos .positive), hlog,
      .inr ⟨rfl, hleast⟩⟩
  · -- it has become a power of two
    have hcanonical : Canonical Format.binary32 (2 ^ 23) (e + j + 1) := by
      rw [Canonical, targetExponent_eq, Nat.log2_two_pow]
      omega
    rw [← add_sub_cancel_right (e + j) 1, ← Nat.cast_one] at hshift
    have hr : first.roundedMantissa = 2 ^ 23 * 2 ^ 1 := by omega
    exact ⟨2 ^ 23, e + j + 1, by decide,
      hround.trans (roundWithAccuracy_of_shift hshift hr hcanonical (by decide) .positive),
      Nat.log2_two_pow, .inl (by omega)⟩

/-! ## Packing -/

theorem toNat_one_append (mantissa : BitVec 23) :
    (1#1 ++ mantissa).toNat = 2 ^ 23 + mantissa.toNat := by
  rw [BitVec.toNat_append]
  show 2 ^ 23 ||| mantissa.toNat = _
  rw [Nat.or_comm, Nat.or_two_pow_eq_add_of_lt mantissa.isLt, Nat.add_comm]

theorem biased_eq (e : Int) :
    (e + (Format.binary32.exponentBias : Int) + (23 : Nat)).toNat = (e + 150).toNat := by
  show (e + 127 + 23).toNat = _
  congr 1
  ring

/-- A normal number is packed as it is. -/
theorem unpack_pack_of_normal {s : Sign} {m : Nat} {e : Int} (hm : 0 < m) (hlog : m.log2 = 23)
    (hlow : -149 ≤ e) (hhigh : e ≤ 104) :
    unpack Format.binary32 (pack Format.binary32 (.finite s m e hm)) = .finite s m e hm := by
  have hcode : (BitVec.ofNat 8 (e + 150).toNat).toNat = (e + 150).toNat := by
    rw [BitVec.toNat_ofNat]
    exact Nat.mod_eq_of_lt (by omega)
  have hmantissa : (1#1 ++ BitVec.ofNat 23 m).toNat = m := by
    obtain ⟨hle, hlt⟩ := (Nat.log2_eq_iff hm.ne').1 hlog
    rw [toNat_one_append, BitVec.toNat_ofNat]
    omega
  have hnormal : m.log2 + 1 = Format.binary32.mantissaBits := by
    rw [hlog]
    rfl
  unfold pack
  simp only [biased_eq]
  rw [if_neg (by omega), if_pos hnormal]
  unfold unpack
  simp only [unpackMantissa_packComponents, unpackExponent_packComponents,
    unpackSign_packComponents, Sign.ofBitVec_toBitVec]
  have hfinite : BitVec.ofNat 8 (e + 150).toNat ≠ -1#8 := by
    intro h
    have h := congrArg BitVec.toNat h
    rw [hcode, show (-1#8).toNat = 255 from rfl] at h
    omega
  have hnotsmall : BitVec.ofNat 8 (e + 150).toNat ≠ 0#8 := by
    intro h
    have h := congrArg BitVec.toNat h
    rw [hcode, show (0#8).toNat = 0 from rfl] at h
    omega
  have hexponent : ((BitVec.ofNat 8 (e + 150).toNat).toNat : Int) -
      ((Format.binary32.exponentBias : Int) + (23 : Nat)) = e := by
    rw [hcode]
    show ((e + 150).toNat : Int) - (127 + 23) = e
    omega
  rw [if_neg hfinite, if_neg hnotsmall]
  simp only [hmantissa, hexponent]

/-- A number that is too large is packed as infinity. -/
theorem unpack_pack_of_large {s : Sign} {m : Nat} {e : Int} (hm : 0 < m) (hlarge : 104 < e) :
    unpack Format.binary32 (pack Format.binary32 (.finite s m e hm)) = .infinity s := by
  unfold pack
  simp only [biased_eq]
  rw [if_pos (by omega)]
  cases s <;> rfl

/-- Numbers above the smallest exponent have mantissas of full length. -/
theorem log2_of_unpack {x : Float32} {s : Sign} {m : Nat} {e : Int} {hm : 0 < m}
    (h : x.toModel.unpack = .finite s m e hm) (he : -149 < e) : m.log2 = 23 := by
  have h : unpack Format.binary32 x.toModel.toBits.toBitVec = .finite s m e hm := h
  unfold unpack at h
  dsimp only at h
  split at h
  · split at h <;> cases h
  · split at h
    · next hzero =>
      split at h
      · cases h
      · obtain ⟨-, -, rfl⟩ := UnpackedFloat.finite.inj h
        rw [hzero] at he
        exact absurd he (by decide)
    · obtain ⟨-, rfl, -⟩ := UnpackedFloat.finite.inj h
      generalize @unpackMantissa Format.binary32 x.toModel.toBits.toBitVec = mantissa
      have hlt : mantissa.toNat < 2 ^ 23 := mantissa.isLt
      rw [toNat_one_append]
      exact (Nat.log2_eq_iff (by omega)).2 (by omega)

end Patchbay.Single
