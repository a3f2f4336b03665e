import Patchbay.Proofs.Number.Order
import Patchbay.Settings

/-!
# Sums of numbers that are not negative

Rounding never falls behind a number that is not above the exact result (`exists_round`). So a sum of
numbers that are not negative is not below either of them (`le_add`), and as long as numbers lie densely
enough, adding one or more leads to a later number (`lt_add`).
-/

namespace Patchbay.Double

open Float.Model (Format UnpackedFloat totalExponent)
open Float.Model.UnpackedFloat

/-! ## Rounding -/

theorem mantissa_shiftRight (em : ExtendedMantissa) (k : Nat) :
    (em >>> k).mantissa = em.mantissa / 2 ^ k := by
  induction k with
  | zero => exact (Nat.div_one _).symm
  | succ k ih =>
    show (em >>> k).mantissa / 2 = _
    rw [ih, Nat.div_div_eq_div_mul, Nat.pow_succ]

/-- What is cut off can only make the mantissa greater by one. -/
theorem roundedMantissa_bounds (em : ExtendedMantissa) :
    em.mantissa ≤ em.roundedMantissa ∧ em.roundedMantissa ≤ em.mantissa + 1 := by
  obtain ⟨m, roundBit, stickyBit⟩ := em
  cases roundBit <;> cases stickyBit <;>
    simp [ExtendedMantissa.roundedMantissa, ExtendedMantissa.accuracy, Accuracy.roundToNearestEven]
  omega

/-- The exponent that a number should have. -/
def target (m : Nat) (e : Int) : Int := max (m.log2 + e - 52) (-1074)

theorem targetExponent_eq (m : Nat) (e : Int) :
    Format.binary64.targetExponent (totalExponent m e) = target m e := by
  show max ((m.log2 + 1 + e : Int) - 53) (-1074) = max (m.log2 + e - 52 : Int) (-1074)
  congr 1
  ring

theorem shiftToTargetExponent_eq (m : Nat) (e : Int) :
    (shiftToTargetExponent Format.binary64 m e .exact).1.mantissa =
        m / 2 ^ (target m e - e).toNat ∧
      (shiftToTargetExponent Format.binary64 m e .exact).2 = e + (target m e - e).toNat := by
  rw [shiftToTargetExponent, targetExponent_eq]
  exact ⟨mantissa_shiftRight _ _, rfl⟩

/-- That a mantissa and an exponent are those of a number in its usual form. -/
structure Canonical (m : Nat) (e : Int) : Prop where
  pos : 0 < m
  lt : m < 2 ^ 53
  exponent : -1074 ≤ e
  normal : e ≠ -1074 → 2 ^ 52 ≤ m

/-- A magnitude in units of the smallest. -/
def units (m : Nat) (e : Int) : Nat := m * 2 ^ (e + 1074).toNat

theorem canonical_div {m : Nat} {e : Int} (hm : 0 < m) (he : -1074 ≤ e) (hle : e ≤ target m e) :
    Canonical (m / 2 ^ (target m e - e).toNat) (target m e) := by
  obtain ⟨k, hk⟩ := Int.eq_ofNat_of_zero_le (sub_nonneg.2 hle)
  have hself := Nat.log2_self_le (Nat.pos_iff_ne_zero.1 hm)
  have hlt := Nat.lt_log2_self (n := m)
  rw [hk, Int.toNat_natCast]
  unfold target at hk hle ⊢
  have hlow : 2 ^ k ≤ m := (Nat.pow_le_pow_right (by decide) (by omega)).trans hself
  refine ⟨Nat.div_pos hlow (by positivity), ?_, by omega, fun hne => ?_⟩
  · rw [Nat.div_lt_iff_lt_mul (by positivity), ← Nat.pow_add]
    exact hlt.trans_le (Nat.pow_le_pow_right (by decide) (by omega))
  · rw [Nat.le_div_iff_mul_le (by positivity), ← Nat.pow_add]
    exact (Nat.pow_le_pow_right (by decide) (by omega)).trans hself

/-- A mantissa that rounding has made too long is one that has become a power of two. -/
theorem target_of_le {r : Nat} {e : Int} (hlow : e ≠ -1074 → 2 ^ 52 ≤ r) (he : -1074 ≤ e)
    (hpos : 0 < r) : (r < 2 ^ 53 → target r e = e) ∧ (r = 2 ^ 53 → target r e = e + 1) := by
  constructor
  · intro hlt
    have hlog : r.log2 < 53 := (Nat.log2_lt (by omega)).2 hlt
    unfold target
    by_cases hne : e = -1074
    · omega
    · have hge : 52 ≤ r.log2 := (Nat.le_log2 (by omega)).2 (hlow hne)
      omega
  · rintro rfl
    rw [target, Nat.log2_two_pow]
    omega

/-- A number that is rounded comes out in its usual form, not below what is cut to the same
exponent. -/
theorem exists_roundWithAccuracy {m : Nat} {e : Int} (hm : 0 < m) (he : -1074 ≤ e)
    (hle : e ≤ target m e) : ∃ r e' h,
      roundWithAccuracy Format.binary64 .positive m e .exact = .finite .positive r e' h ∧
      Canonical r e' ∧
      (target m e < e' ∨ target m e = e' ∧ m / 2 ^ (target m e - e).toNat ≤ r) := by
  have hcut := canonical_div hm he hle
  obtain ⟨hq, hexp⟩ := shiftToTargetExponent_eq m e
  have hbounds := roundedMantissa_bounds (shiftToTargetExponent Format.binary64 m e .exact).1
  rw [hq] at hbounds
  rw [show e + ((target m e - e).toNat : Int) = target m e by omega] at hexp
  generalize hfirst : shiftToTargetExponent Format.binary64 m e .exact = first at hbounds hexp
  generalize hr : first.1.roundedMantissa = r at hbounds
  have hpos : 0 < r := hcut.pos.trans_le hbounds.1
  obtain ⟨hsmall, hlarge⟩ := target_of_le (r := r)
    (fun hne => (hcut.normal hne).trans hbounds.1) hcut.exponent hpos
  obtain ⟨hq', hexp'⟩ := shiftToTargetExponent_eq r (target m e)
  have hround : roundWithAccuracy Format.binary64 .positive m e .exact =
      if h : r / 2 ^ (target r (target m e) - target m e).toNat = 0 then .zero .positive
      else .finite .positive (r / 2 ^ (target r (target m e) - target m e).toNat)
        (target m e + (target r (target m e) - target m e).toNat) (Nat.pos_of_ne_zero h) := by
    simp only [roundWithAccuracy, hfirst, hr, hexp, hq', hexp']
  have hltq := hcut.lt
  rcases Nat.lt_or_ge r (2 ^ 53) with hlt | hge
  · rw [hsmall hlt, sub_self, Int.toNat_zero, pow_zero, Nat.div_one, Int.natCast_zero, add_zero,
      dif_neg hpos.ne'] at hround
    exact ⟨r, _, hpos, hround, ⟨hpos, hlt, hcut.exponent,
      fun hne => (hcut.normal hne).trans hbounds.1⟩, .inr ⟨rfl, hbounds.1⟩⟩
  · have heq : r = 2 ^ 53 := by omega
    rw [hlarge heq, show (target m e + 1 - target m e).toNat = 1 by omega, heq,
      dif_neg (by decide)] at hround
    refine ⟨_, _, _, hround, ⟨by decide, by decide, ?_, fun _ => by decide⟩, .inl (by omega)⟩
    have := hcut.exponent
    omega

/-- No number in its usual form is above a magnitude whose exponent is to be smaller. -/
theorem le_target {m m₀ : Nat} {e e₀ : Int} (he : -1074 ≤ e) (h₀ : Canonical m₀ e₀)
    (hle : units m₀ e₀ ≤ units m e) : e₀ ≤ target m e := by
  unfold target
  by_cases hne : e₀ = -1074
  · omega
  have hlow : 2 ^ (52 + (e₀ + 1074).toNat) ≤ units m₀ e₀ := by
    rw [units, Nat.pow_add]
    exact Nat.mul_le_mul_right _ (h₀.normal hne)
  have hhigh : units m e < 2 ^ (m.log2 + 1 + (e + 1074).toNat) := by
    rw [units, Nat.pow_add]
    exact Nat.mul_lt_mul_of_pos_right Nat.lt_log2_self (by positivity)
  have hpow := (Nat.pow_lt_pow_iff_right (by decide)).1 ((hlow.trans hle).trans_lt hhigh)
  have := h₀.exponent
  omega

theorem log2_mul_two_pow {m : Nat} (hm : m ≠ 0) (k : Nat) : (m * 2 ^ k).log2 = m.log2 + k := by
  induction k with
  | zero => rw [pow_zero, Nat.mul_one, Nat.add_zero]
  | succ k ih =>
    have hne : m * 2 ^ k ≠ 0 := Nat.mul_ne_zero hm (by positivity)
    rw [Nat.pow_succ, ← Nat.mul_assoc, Nat.mul_comm, Nat.log2_two_mul hne, ih, Nat.add_assoc]

/-- Rounding does not fall behind any number that is not above what is rounded. -/
theorem exists_round {m : Nat} {e : Int} (hm : 0 < m) (he : -1074 ≤ e) : ∃ r e' h,
    UnpackedFloat.round Format.binary64 .positive m e = .finite .positive r e' h ∧ Canonical r e' ∧
    ∀ m₀ e₀, Canonical m₀ e₀ → units m₀ e₀ ≤ units m e → e₀ < e' ∨ e₀ = e' ∧ m₀ ≤ r := by
  -- A mantissa that is too short is made longer first, which leaves the magnitude as it is.
  obtain ⟨k, hk⟩ : ∃ k, (e - target m e).toNat = k := ⟨_, rfl⟩
  have hround : UnpackedFloat.round Format.binary64 .positive m e =
      roundWithAccuracy Format.binary64 .positive (m * 2 ^ k) (e - k) .exact := by
    simp only [UnpackedFloat.round, targetExponent_eq, decreaseExponent, hk, Nat.shiftLeft_eq]
  have hpos : 0 < m * 2 ^ k := Nat.mul_pos hm (by positivity)
  have htarget : target (m * 2 ^ k) (e - k) = target m e := by
    rw [target, target, log2_mul_two_pow hm.ne']
    congr 1
    push_cast
    ring
  have htop : -1074 ≤ target m e := le_max_right _ _
  have hexp : -1074 ≤ e - k := by omega
  have hunits : units (m * 2 ^ k) (e - k) = units m e := by
    rw [units, units, Nat.mul_assoc, ← Nat.pow_add]
    congr 2
    omega
  have hle : e - k ≤ target (m * 2 ^ k) (e - k) := by
    rw [htarget]
    omega
  obtain ⟨r, e', h, heq, hcanonical, hbelow⟩ := exists_roundWithAccuracy hpos hexp hle
  refine ⟨r, e', h, hround.trans heq, hcanonical, fun m₀ e₀ h₀ hle₀ => ?_⟩
  rw [← hunits] at hle₀
  have hfirst := le_target hexp h₀ hle₀
  rcases hbelow with hlt | ⟨heq', hcut⟩
  · exact .inl (hfirst.trans_lt hlt)
  · rcases hfirst.lt_or_eq with hlt | he₀
    · exact .inl (hlt.trans_eq heq')
    · refine .inr ⟨he₀.trans heq', le_trans ?_ hcut⟩
      rw [Nat.le_div_iff_mul_le (by positivity)]
      rw [units, units, he₀, show (target (m * 2 ^ k) (e - k) + 1074).toNat =
        (target (m * 2 ^ k) (e - k) - (e - k)).toNat + (e - k + 1074).toNat by omega, Nat.pow_add,
        ← Nat.mul_assoc] at hle₀
      exact Nat.le_of_mul_le_mul_right hle₀ (by positivity)

/-! ## Packing -/

theorem unpackSign_packComponents (s : Sign) (exponent : BitVec 11) (mantissa : BitVec 52) :
    unpackSign (packComponents Format.binary64 s exponent mantissa) = s.toBitVec := by
  show (s.toBitVec ++ exponent ++ mantissa).extractLsb' 63 1 = s.toBitVec
  rw [BitVec.extractLsb'_append_eq_of_le (by decide), BitVec.extractLsb'_append_eq_of_le (by decide)]
  cases s <;> rfl

theorem ofBitVec_toBitVec (s : Sign) : Sign.ofBitVec s.toBitVec = s := by cases s <;> rfl

theorem toNat_one_append (mantissa : BitVec 52) :
    (1#1 ++ mantissa).toNat = 2 ^ 52 + mantissa.toNat := by
  rw [BitVec.toNat_append]
  show 2 ^ 52 ||| mantissa.toNat = _
  rw [Nat.or_comm, Nat.or_two_pow_eq_add_of_lt mantissa.isLt, Nat.add_comm]

/-- What the fields of a number come to. -/
def ofFields (s : Sign) (exponent : BitVec 11) (mantissa : BitVec 52) : UnpackedFloat :=
  if exponent = -1#11 then if mantissa = 0#52 then .infinity s else .notANumber
  else if exponent = 0#11 then
    if h : mantissa = 0#52 then .zero s
    else .finite s mantissa.toNat (-1074) (by simpa [BitVec.toNat_pos, BitVec.pos_iff_ne_zero])
  else
    .finite s (1#1 ++ mantissa).toNat ((exponent.toNat : Int) - 1075)
      (by rw [toNat_one_append]; positivity)

theorem unpack_eq_ofFields (bits : BitVec Format.binary64.numBits) :
    unpack Format.binary64 bits =
      ofFields (.ofBitVec (unpackSign bits)) (unpackExponent bits) (unpackMantissa bits) := by
  unfold unpack ofFields
  dsimp only
  split
  · rfl
  · split
    · next h =>
      rw [h]
      rfl
    · rfl

theorem unpack_packComponents (s : Sign) (exponent : BitVec 11) (mantissa : BitVec 52) :
    unpack Format.binary64 (packComponents Format.binary64 s exponent mantissa) =
      ofFields s exponent mantissa := by
  rw [unpack_eq_ofFields, unpackMantissa_packComponents, unpackExponent_packComponents,
    unpackSign_packComponents, ofBitVec_toBitVec]

/-- What is packed is found again, unless it is too large. -/
theorem unpack_pack_finite {s : Sign} {m : Nat} {e : Int} (hm : 0 < m) (h : Canonical m e) :
    unpack Format.binary64 (pack Format.binary64 (.finite s m e hm)) = .finite s m e hm ∨
      unpack Format.binary64 (pack Format.binary64 (.finite s m e hm)) = .infinity s := by
  have hinf : unpack Format.binary64 (packedInfinity Format.binary64 s) = .infinity s := by
    exact (unpack_packComponents s (-1#11) 0#52).trans rfl
  have hbias : (e + (Format.binary64.exponentBias : Int) + (52 : Nat)).toNat = (e + 1075).toNat := by
    show (e + 1023 + 52).toNat = _
    congr 1
    ring
  have hexp := h.exponent
  have hlt := h.lt
  rw [pack]
  simp only [hbias]
  by_cases hbig : 2 ^ 11 ≤ (e + 1075).toNat + 1
  · rw [if_pos hbig]
    exact .inr hinf
  rw [if_neg hbig]
  left
  by_cases hlog : m.log2 + 1 = 53
  · have hlow : 2 ^ 52 ≤ m := (Nat.le_log2 hm.ne').1 (by omega)
    rw [if_pos (show m.log2 + 1 = Format.binary64.mantissaBits from hlog), unpack_packComponents,
      ofFields]
    have hcode : (BitVec.ofNat 11 (e + 1075).toNat).toNat = (e + 1075).toNat := by
      rw [BitVec.toNat_ofNat]
      exact Nat.mod_eq_of_lt (by omega)
    rw [if_neg fun h => ?_, if_neg fun h => ?_]
    · have hmantissa : (1#1 ++ BitVec.ofNat 52 m).toNat = m := by
        rw [toNat_one_append, BitVec.toNat_ofNat]
        omega
      have hcode' : ((BitVec.ofNat 11 (e + 1075).toNat).toNat : Int) - 1075 = e := by
        rw [hcode]
        omega
      simp only [hmantissa, hcode']
    · have := congrArg BitVec.toNat h
      rw [hcode, show (0#11).toNat = 0 from rfl] at this
      omega
    · have := congrArg BitVec.toNat h
      rw [hcode, show (-1#11).toNat = 2047 from rfl] at this
      omega
  · have hsmall : m < 2 ^ 52 := by
      refine (Nat.log2_lt hm.ne').1 ?_
      have := (Nat.log2_lt hm.ne').2 hlt
      omega
    have he : e = -1074 := by
      by_contra hne
      exact absurd (h.normal hne) (Nat.not_le.2 hsmall)
    have hmantissa : (BitVec.ofNat 52 m).toNat = m := by
      rw [BitVec.toNat_ofNat]
      exact Nat.mod_eq_of_lt hsmall
    rw [if_neg (show ¬ m.log2 + 1 = Format.binary64.mantissaBits from hlog), unpack_packComponents,
      ofFields, if_neg (by decide), if_pos rfl, dif_neg fun h => ?_]
    · simp only [hmantissa, he]
    · have := congrArg BitVec.toNat h
      rw [hmantissa] at this
      exact hm.ne' this

/-- Every number is in its usual form. -/
theorem canonical_of_unpack {x : Float} {s : Sign} {m : Nat} {e : Int} {hm : 0 < m}
    (h : x.toModel.unpack = .finite s m e hm) : Canonical m e := by
  have h := (unpack_eq_ofFields x.toModel.toBits.toBitVec).symm.trans h
  generalize @unpackExponent Format.binary64 x.toModel.toBits.toBitVec = exponent at h
  generalize @unpackMantissa Format.binary64 x.toModel.toBits.toBitVec = mantissa at h
  have hmantissa : mantissa.toNat < 2 ^ 52 := mantissa.isLt
  unfold ofFields at h
  split at h
  · split at h <;> cases h
  · next hinf =>
    split at h
    · split at h
      · cases h
      · obtain ⟨-, rfl, rfl⟩ := UnpackedFloat.finite.inj h
        exact ⟨hm, by omega, le_rfl, fun hne => absurd rfl hne⟩
    · next hzero =>
      obtain ⟨-, rfl, rfl⟩ := UnpackedFloat.finite.inj h
      rw [toNat_one_append]
      have hpos : exponent.toNat ≠ 0 := fun he => hzero (BitVec.eq_of_toNat_eq he)
      exact ⟨by omega, by omega, by omega, fun _ => by omega⟩

/-! ## Numbers that are not negative -/

/-- That a number is not negative, if it is a number; the sign of a zero is of no account. -/
def Nonneg : UnpackedFloat → Prop
  | .infinity s | .finite s _ _ _ => s = .positive
  | .notANumber | .zero _ => True

theorem place_zero : place 0 = toLex (0, toLex (0, 0)) := by decide +kernel

theorem isNaN_eq (x : Float) : x.isNaN = x.toModel.unpack.isNaN := rfl

theorem nonneg_iff {x : Float} : 0 ≤ x ↔ x.isNaN = false ∧ Nonneg x.toModel.unpack := by
  rw [le_iff, place_zero, place, isNaN_eq x, show (0 : Float).isNaN = false by decide +kernel]
  rcases x.toModel.unpack with ⟨_ | _⟩ | _ | _ | ⟨_ | _, m, e, hm⟩ <;>
    simp [UnpackedFloat.isNaN, placeOf, Nonneg, Prod.Lex.le_iff]

/-! ## Sums -/

theorem unpack_add (x y : Float) : (x + y).toModel.unpack =
    unpack Format.binary64
      (pack Format.binary64 (add Format.binary64 x.toModel.unpack y.toModel.unpack)) := rfl

theorem unpack_pack_infinity (s : Sign) :
    unpack Format.binary64 (pack Format.binary64 (.infinity s)) = .infinity s :=
  (unpack_packComponents s (-1#11) 0#52).trans rfl

/-- The sum of two magnitudes is exact before it is rounded. -/
theorem exists_add {m m' : Nat} {e e' : Int} (hm : 0 < m) (hm' : 0 < m') (he : -1074 ≤ e)
    (he' : -1074 ≤ e') : ∃ n k, 0 < n ∧ -1074 ≤ k ∧ units n k = units m e + units m' e' ∧
      add Format.binary64 (.finite .positive m e hm) (.finite .positive m' e' hm') =
        UnpackedFloat.round Format.binary64 .positive n k := by
  refine ⟨m * 2 ^ (e - min e e').toNat + m' * 2 ^ (e' - min e e').toNat, min e e', by positivity,
    le_min he he', ?_, ?_⟩
  · rw [units, units, units, Nat.add_mul, Nat.mul_assoc, Nat.mul_assoc, ← Nat.pow_add, ← Nat.pow_add]
    congr 3 <;> omega
  · simp only [add, decreaseExponent, Nat.shiftLeft_eq]
    generalize hn : m * 2 ^ (e - min e e').toNat = a
    generalize hn' : m' * 2 ^ (e' - min e e').toNat = b
    have ha : 0 < a := hn ▸ by positivity
    have hpos : compare (Sign.positive.apply a + Sign.positive.apply b) 0 = .gt := by
      rw [compare_gt_iff_gt]
      show (0 : Int) < a + b
      omega
    rw [UnpackedFloat.normalize, hpos]
    rfl

/-- The sum of two magnitudes is not below any number that is not above the exact sum. -/
theorem place_le_add {m m' m₀ : Nat} {e e' e₀ : Int} (hm : 0 < m) (hm' : 0 < m') (hm₀ : 0 < m₀)
    (he : -1074 ≤ e) (he' : -1074 ≤ e') (h₀ : Canonical m₀ e₀)
    (hle : units m₀ e₀ ≤ units m e + units m' e') :
    placeOf (.finite .positive m₀ e₀ hm₀) ≤ placeOf (unpack Format.binary64
      (pack Format.binary64
        (add Format.binary64 (.finite .positive m e hm) (.finite .positive m' e' hm')))) ∧
    (unpack Format.binary64 (pack Format.binary64
      (add Format.binary64 (.finite .positive m e hm) (.finite .positive m' e' hm')))).isNaN =
        false := by
  obtain ⟨n, k, hn, hk, hsum, hadd⟩ := exists_add hm hm' he he'
  obtain ⟨r, e₁, h, hround, hcanonical, hbelow⟩ := exists_round hn hk
  rw [hadd, hround]
  rcases unpack_pack_finite (s := .positive) h hcanonical with heq | heq
  · rw [heq]
    refine ⟨?_, rfl⟩
    have := hbelow m₀ e₀ h₀ (hle.trans_eq hsum.symm)
    simpa [placeOf, Prod.Lex.le_iff] using this
  · rw [heq]
    exact ⟨by simp [placeOf, Prod.Lex.le_iff], rfl⟩

section Unpacked

variable {u v : UnpackedFloat}

/-- The usual forms of a number that is not negative. -/
theorem cases_of_nonneg (hu : Nonneg u) (hn : u.isNaN = false) :
    u = .infinity .positive ∨ (∃ s, u = .zero s) ∨ ∃ m e h, u = .finite .positive m e h := by
  cases u with
  | notANumber => cases hn
  | infinity s =>
    cases hu
    exact .inl rfl
  | zero s => exact .inr (.inl ⟨s, rfl⟩)
  | finite s m e h =>
    cases hu
    exact .inr (.inr ⟨m, e, h, rfl⟩)

/-- A number in its usual form is packed as it is, or as infinity. -/
theorem place_le_pack {m : Nat} {e : Int} (hm : 0 < m) (h : Canonical m e) :
    placeOf (.finite .positive m e hm) ≤ placeOf (unpack Format.binary64
        (pack Format.binary64 (.finite .positive m e hm))) ∧
      (unpack Format.binary64 (pack Format.binary64 (.finite .positive m e hm))).isNaN = false := by
  rcases unpack_pack_finite (s := .positive) hm h with heq | heq
  · rw [heq]
    exact ⟨le_rfl, rfl⟩
  · rw [heq]
    exact ⟨by simp [placeOf, Prod.Lex.le_iff], rfl⟩

theorem zero_le_place (hu : Nonneg u) : placeOf (.zero .positive) ≤ placeOf u := by
  rcases u with ⟨_ | _⟩ | _ | _ | ⟨_ | _, m, e, hm⟩ <;> simp_all [placeOf, Prod.Lex.le_iff, Nonneg]

variable {w : UnpackedFloat}
  (hw : unpack Format.binary64 (pack Format.binary64 (add Format.binary64 u v)) = w)
  (hu : Nonneg u) (hv : Nonneg v) (hun : u.isNaN = false) (hvn : v.isNaN = false)
  (hcu : ∀ s m e hm, u = .finite s m e hm → Canonical m e)
  (hcv : ∀ s m e hm, v = .finite s m e hm → Canonical m e)
include hw hu hv hun hvn hcu hcv

theorem placeOf_le_add : placeOf u ≤ placeOf w ∧ w.isNaN = false := by
  have hinf : unpack Format.binary64 (pack Format.binary64 (.infinity .positive)) = w →
      placeOf u ≤ placeOf w ∧ w.isNaN = false := by
    intro h
    rw [← h, unpack_pack_infinity]
    rcases cases_of_nonneg hu hun with rfl | ⟨s, rfl⟩ | ⟨m, e, hm, rfl⟩ <;>
      exact ⟨by simp [placeOf, Prod.Lex.le_iff], rfl⟩
  rcases cases_of_nonneg hu hun with rfl | ⟨s, rfl⟩ | ⟨m, e, hm, rfl⟩ <;>
    rcases cases_of_nonneg hv hvn with rfl | ⟨s', rfl⟩ | ⟨m', e', hm', rfl⟩
  · exact hinf hw
  · exact hinf hw
  · exact hinf hw
  · exact hinf hw
  · rw [← hw]
    cases s <;> cases s' <;> exact ⟨le_rfl, rfl⟩
  · obtain ⟨hle, hn⟩ := place_le_pack hm' (hcv _ _ _ _ rfl)
    rw [← hw]
    exact ⟨(zero_le_place hv).trans hle, hn⟩
  · exact hinf hw
  · rw [← hw]
    exact place_le_pack hm (hcu _ _ _ _ rfl)
  · have hcm := hcu _ _ _ _ rfl
    rw [← hw]
    exact place_le_add hm hm' hm hcm.exponent (hcv _ _ _ _ rfl).exponent hcm (Nat.le_add_right _ _)

/-- Below the number from which on there are no fractions, one or more leads to a later number. -/
theorem placeOf_lt_add (hlt : placeOf u < toLex (1, toLex (1, 2 ^ 52)))
    (hge : toLex (1, toLex (-52, 2 ^ 52)) ≤ placeOf v) : placeOf u < placeOf w := by
  rcases cases_of_nonneg hu hun with rfl | ⟨s, rfl⟩ | ⟨m, e, hm, rfl⟩
  · exact absurd hlt (by decide)
  · -- Nothing but zero is added to what is at least one.
    have hle := (placeOf_le_add (u := v) (v := .zero s) (w := w) ?_ hv hu hvn hun hcv hcu).1
    · have hzero : placeOf (.zero s) < toLex (1, toLex (-52, 2 ^ 52)) := by
        simp [placeOf, Prod.Lex.lt_iff]
      exact hzero.trans_le (hge.trans hle)
    · rw [← hw]
      rcases cases_of_nonneg hv hvn with rfl | ⟨s', rfl⟩ | ⟨m', e', hm', rfl⟩
      · rfl
      · exact absurd hge (by simp [placeOf, Prod.Lex.le_iff])
      · rfl
  · rcases cases_of_nonneg hv hvn with rfl | ⟨s', rfl⟩ | ⟨m', e', hm', rfl⟩
    · rw [← hw, show add Format.binary64 (.finite .positive m e hm) (.infinity .positive) =
        .infinity .positive from rfl, unpack_pack_infinity]
      simp [placeOf, Prod.Lex.lt_iff]
    · exact absurd hge (by simp [placeOf, Prod.Lex.le_iff])
    · have hcm := hcu _ _ _ _ rfl
      have hcm' := hcv _ _ _ _ rfl
      have he : e ≤ 0 := by
        have hlt : e < 1 ∨ e = 1 ∧ (m : ℤ) < 2 ^ 52 := by simpa [placeOf, Prod.Lex.lt_iff] using hlt
        have := hcm.normal
        omega
      have hstep : 2 ^ (e + 1074).toNat ≤ units m' e' := by
        have hge : -52 < e' ∨ -52 = e' ∧ (2 ^ 52 : ℤ) ≤ m' := by
          simpa [placeOf, Prod.Lex.le_iff] using hge
        have hlow : 2 ^ 52 ≤ m' := hcm'.normal (by omega)
        refine le_trans ?_ (Nat.mul_le_mul_right _ hlow)
        rw [← Nat.pow_add]
        exact Nat.pow_le_pow_right (by decide) (by omega)
      -- The number after `m` is not above the sum, and so neither is it above what is rounded.
      rw [← hw]
      rcases Nat.lt_or_ge (m + 1) (2 ^ 53) with hm₁ | hm₁
      · have hnext : Canonical (m + 1) e :=
          ⟨by omega, hm₁, hcm.exponent, fun hne => (hcm.normal hne).trans (Nat.le_succ m)⟩
        have hunits : units (m + 1) e ≤ units m e + units m' e' := by
          rw [units, Nat.succ_mul]
          exact Nat.add_le_add_left hstep _
        refine LT.lt.trans_le ?_ (place_le_add hm hm' m.succ_pos hcm.exponent
          hcm'.exponent hnext hunits).1
        simp [placeOf, Prod.Lex.lt_iff]
      · have hm₂ : m + 1 = 2 ^ 53 := by
          have := hcm.lt
          omega
        have hnext : Canonical (2 ^ 52) (e + 1) :=
          ⟨by decide, by decide, by have := hcm.exponent; omega, fun _ => le_rfl⟩
        have hunits : units (2 ^ 52) (e + 1) ≤ units m e + units m' e' := by
          have hexp := hcm.exponent
          have hdouble : units (2 ^ 52) (e + 1) = (m + 1) * 2 ^ (e + 1074).toNat := by
            rw [units, hm₂, show (e + 1 + 1074).toNat = (e + 1074).toNat + 1 by omega, Nat.pow_succ]
            ring
          rw [hdouble, Nat.succ_mul]
          exact Nat.add_le_add_left hstep _
        refine LT.lt.trans_le ?_ (place_le_add hm hm' (by decide) hcm.exponent
          hcm'.exponent hnext hunits).1
        simp [placeOf, Prod.Lex.lt_iff]

end Unpacked

variable {x y : Float}

/-- A sum of numbers that are not negative is not below the first of them. -/
theorem le_add (hx : 0 ≤ x) (hy : 0 ≤ y) : x ≤ x + y := by
  obtain ⟨hxn, hx⟩ := nonneg_iff.1 hx
  obtain ⟨hyn, hy⟩ := nonneg_iff.1 hy
  obtain ⟨hle, hn⟩ := placeOf_le_add (unpack_add x y).symm hx hy hxn hyn
    (fun _ _ _ _ => canonical_of_unpack) fun _ _ _ _ => canonical_of_unpack
  exact le_iff.2 ⟨hxn, hn, hle⟩

theorem place_one : place 1 = toLex (1, toLex (-52, 2 ^ 52)) := by decide +kernel

theorem place_two_pow : place 9007199254740992 = toLex (1, toLex (1, 2 ^ 52)) := by decide +kernel

/-- Up to `2 ^ 53`, adding one or more leads to a later number. -/
theorem lt_add (hx : 0 ≤ x) (hlt : x < 9007199254740992) (hy : 1 ≤ y) : x < x + y := by
  have hy₀ : 0 ≤ y := le_of_le_of_le (by decide +kernel) hy
  obtain ⟨hxn, hx⟩ := nonneg_iff.1 hx
  obtain ⟨hyn, hy₀⟩ := nonneg_iff.1 hy₀
  obtain ⟨-, -, hlt⟩ := lt_iff.1 hlt
  obtain ⟨-, -, hy⟩ := le_iff.1 hy
  rw [place_two_pow] at hlt
  rw [place_one] at hy
  have hadd := (unpack_add x y).symm
  have hcx := fun s m e hm => @canonical_of_unpack x s m e hm
  have hcy := fun s m e hm => @canonical_of_unpack y s m e hm
  exact lt_iff.2 ⟨hxn, (placeOf_le_add hadd hx hy₀ hxn hyn hcx hcy).2,
    placeOf_lt_add hadd hx hy₀ hxn hyn hcx hcy hlt hy⟩

/-- That waiting leads to a later time, from each time up to another. -/
def LeadsOn (stop wait : Float) : Prop := ∀ t, 0 ≤ t → t ≤ stop → t < t + wait

/-- Up to `2 ^ 53` milliseconds, waiting for one of them or more leads on. -/
theorem leadsOn_of_one_le {stop wait : Float} (hstop : stop < 9007199254740992) (h : 1 ≤ wait) :
    LeadsOn stop wait :=
  fun _ ht hle => lt_add ht (lt_of_le_of_lt hle hstop) h

/-- A sum is a number only if both addends are. -/
theorem isNaN_of_add (h : (x + y).isNaN = false) : x.isNaN = false ∧ y.isNaN = false := by
  have hnan : unpack Format.binary64 (pack Format.binary64 .notANumber) = .notANumber :=
    (unpack_packComponents .positive (-1#11) (1#52 <<< 51)).trans rfl
  rw [isNaN_eq, unpack_add] at h
  rw [isNaN_eq, isNaN_eq]
  generalize x.toModel.unpack = u at h
  generalize y.toModel.unpack = v at h
  cases u with
  | notANumber =>
    rw [add, hnan] at h
    cases h
  | infinity | zero | finite =>
    cases v with
    | notANumber =>
      rw [add, hnan] at h
      · cases h
      · rintro ⟨⟩
    | infinity | zero | finite => exact ⟨rfl, rfl⟩

/-! ## Signs -/

/-- That a number has no negative sign, not even if it is zero. -/
def Unsigned : UnpackedFloat → Prop
  | .infinity s | .zero s | .finite s _ _ _ => s = .positive
  | .notANumber => True

theorem Unsigned.nonneg {u : UnpackedFloat} (h : Unsigned u) : Nonneg u := by
  cases u <;> first | exact h | trivial

theorem unsigned_ofFields (exponent : BitVec 11) (mantissa : BitVec 52) :
    Unsigned (ofFields .positive exponent mantissa) := by
  unfold ofFields
  split
  · split <;> trivial
  · split
    · split <;> trivial
    · trivial

/-- Packing keeps the sign. -/
theorem unsigned_unpack_pack {u : UnpackedFloat} (h : Unsigned u) :
    Unsigned (unpack Format.binary64 (pack Format.binary64 u)) := by
  have hpacked : ∀ exponent mantissa, Unsigned (unpack Format.binary64
      (packComponents Format.binary64 .positive exponent mantissa)) := by
    intro exponent mantissa
    rw [unpack_packComponents]
    exact unsigned_ofFields exponent mantissa
  cases u with
  | notANumber => exact hpacked _ _
  | infinity s | zero s =>
    cases h
    exact hpacked _ _
  | finite s m e hm =>
    cases h
    rw [pack]
    dsimp only
    split
    · exact hpacked _ _
    · split <;> exact hpacked _ _

theorem unsigned_roundWithAccuracy (m : Nat) (e : Int) (accuracy : Accuracy) :
    Unsigned (roundWithAccuracy Format.binary64 .positive m e accuracy) := by
  unfold roundWithAccuracy
  dsimp only
  split <;> rfl

theorem unsigned_mul (hx : Unsigned x.toModel.unpack) (hy : Unsigned y.toModel.unpack) :
    Unsigned (x * y).toModel.unpack := by
  refine unsigned_unpack_pack (u := mul Format.binary64 x.toModel.unpack y.toModel.unpack) ?_
  generalize x.toModel.unpack = u at hx
  generalize y.toModel.unpack = v at hy
  rcases u with s | _ | s | ⟨s, m, e, hm⟩ <;> rcases v with s' | _ | s' | ⟨s', m', e', hm'⟩ <;>
    first
    | trivial
    | (cases hx; cases hy; rfl)
    | (cases hx; cases hy; exact unsigned_roundWithAccuracy ..)

theorem unsigned_div (hx : Unsigned x.toModel.unpack) (hy : Unsigned y.toModel.unpack) :
    Unsigned (x / y).toModel.unpack := by
  refine unsigned_unpack_pack (u := div Format.binary64 x.toModel.unpack y.toModel.unpack) ?_
  generalize x.toModel.unpack = u at hx
  generalize y.toModel.unpack = v at hy
  rcases u with s | _ | s | ⟨s, m, e, hm⟩ <;> rcases v with s' | _ | s' | ⟨s', m', e', hm'⟩ <;>
    first
    | trivial
    | (cases hx; cases hy; rfl)
    | (cases hx; cases hy; exact unsigned_roundWithAccuracy ..)

/-- Counts have no sign. -/
theorem unsigned_ofCount (n : Nat) : Unsigned (ofCount n).toModel.unpack := by
  refine unsigned_unpack_pack (u := normalize Format.binary64 ((UInt64.ofNat n).toNat : Int) 0
    .positive) ?_
  unfold UnpackedFloat.normalize
  split
  · next h =>
    rw [compare_lt_iff_lt] at h
    omega
  · rfl
  · exact unsigned_roundWithAccuracy ..

/-- What is written with a clear sign bit has no sign. -/
theorem unsigned_unpack {bits : UInt64} (h : bits.toNat < 2 ^ 63) :
    Unsigned (unpack Format.binary64 bits.toBitVec) := by
  rw [unpack_eq_ofFields]
  have hzero : @unpackSign Format.binary64 bits.toBitVec = 0#1 := by
    refine BitVec.eq_of_toNat_eq ?_
    show (bits.toBitVec.extractLsb' 63 1).toNat = 0
    rw [BitVec.extractLsb'_toNat, Nat.shiftRight_eq_div_pow]
    show bits.toNat / 2 ^ 63 % 2 ^ 1 = 0
    rw [Nat.div_eq_of_lt h, Nat.zero_mod]
  rw [hzero]
  exact unsigned_ofFields _ _

/-- The sign bit of a single-precision number above zero is clear. -/
theorem negative_ofSingle {r : Float32} (h : 0 < r) :
    (Binary.Parts.ofSingle r).negative = false := by
  have hlt := ((unpacked_lt_iff ..).1 (decide_eq_true_iff.1 h)).2.2
  refine decide_eq_false fun hbit => absurd hlt (not_lt.2 ?_)
  have hone : @unpackSign Format.binary32 r.toModel.toBits.toBitVec = 1#1 := by
    refine BitVec.eq_of_toNat_eq ?_
    show (r.toModel.toBits.toBitVec.extractLsb' 31 1).toNat = 1
    rw [BitVec.extractLsb'_toNat, Nat.shiftRight_eq_div_pow]
    show r.toBits.toNat / 2 ^ 31 % 2 ^ 1 = 1
    have := r.toBits.toNat_lt
    omega
  rw [show placeOf (Float32.Model.unpack (0 : Float32).toModel) = toLex (0, toLex (0, 0)) by
    decide +kernel]
  show placeOf (unpack Format.binary32 r.toModel.toBits.toBitVec) ≤ _
  unfold unpack
  dsimp only
  rw [hone]
  split
  · split <;> simp [placeOf, Sign.ofBitVec, Prod.Lex.le_iff]
  · split
    · split <;> simp [placeOf, Sign.ofBitVec, Prod.Lex.le_iff]
    · simp [placeOf, Sign.ofBitVec, Prod.Lex.le_iff]

theorem nearest_le (f : Binary.Format) (num den : Nat) : f.nearest num den ≤ f.infinity :=
  Nat.min_le_right _ _

/-- Widening keeps the sign. -/
theorem unsigned_widen {r : Float32} (h : 0 < r) : Unsigned (widen r).toModel.unpack := by
  have hcode : ∀ code, code ≤ Binary.double.infinity + 1 →
      Unsigned (Binary.Parts.toDouble ⟨false, code⟩).toModel.unpack := by
    intro code hle
    have hle : code ≤ 0x7ff0000000000001 := hle
    refine unsigned_unpack_pack (unsigned_unpack ?_)
    rw [if_neg Bool.false_ne_true, Nat.zero_add, UInt64.toNat_ofNat']
    show code % 2 ^ 64 < 2 ^ 63
    omega
  rw [widen, negative_ofSingle h]
  refine hcode _ ?_
  split
  · exact (nearest_le _ _ _).trans (Nat.le_succ _)
  · split
    · exact Nat.le_succ _
    · exact le_rfl

/-- Blocks do not take negative time. -/
theorem unsigned_blockDuration {s : Settings} (h : 0 < s.sampleRate) :
    Unsigned s.blockDuration.toModel.unpack := by
  have hthousand : (1000.0 : Float).toModel.toBits.toNat < 2 ^ 63 := by decide +kernel
  exact unsigned_mul (unsigned_ofCount _) (unsigned_div (unsigned_unpack hthousand) (unsigned_widen h))

end Patchbay.Double
