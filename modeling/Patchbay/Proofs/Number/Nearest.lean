import Mathlib
import Patchbay.Number.Shortest

/-!
# Decimals of one value

The code of a decimal is a matter of its value alone (`Decimal.code_congr`), and the exact value of a
magnitude has the code of that magnitude (`Decimal.code_exact`). So the search for a short decimal ends
with one that reads back, and still does once its trailing zeros are left out
(`Decimal.code_shortest`).
-/

namespace Patchbay

open Binary

/-! ## Fractions -/

theorem roundHalfEven_mul_right (num den : Nat) {k : Nat} (hk : 0 < k) :
    roundHalfEven (num * k) (den * k) = roundHalfEven num den := by
  have hdiv : num * k / (den * k) = num / den := Nat.mul_div_mul_right num den hk
  have hmod : num * k % (den * k) = num % den * k := Nat.mul_mod_mul_right k num den
  unfold roundHalfEven
  simp only [hdiv, hmod, ← Nat.mul_assoc, Nat.mul_lt_mul_right hk]

/-- A whole number is not rounded. -/
theorem roundHalfEven_mul_self (n : Nat) {den : Nat} (h : 0 < den) :
    roundHalfEven (n * den) den = n := by
  unfold roundHalfEven
  rw [Nat.mul_mod_left, Nat.mul_div_cancel n h]
  exact if_pos h

namespace Binary.Format

variable {f : Format}

theorem nearest_mul_right (f : Format) (num den : Nat) {k : Nat} (hk : 0 < k) :
    f.nearest (num * k) (den * k) = f.nearest num den := by
  have hscaled : (num * k) <<< f.scale = num <<< f.scale * k := by
    simp only [Nat.shiftLeft_eq, Nat.mul_right_comm]
  have hden : ∀ drop, (den * k) <<< drop = den <<< drop * k := fun drop => by
    simp only [Nat.shiftLeft_eq, Nat.mul_right_comm]
  have hwhole : num <<< f.scale * k / (den * k) = num <<< f.scale / den :=
    Nat.mul_div_mul_right _ _ hk
  unfold nearest
  simp only [hscaled, hwhole, hden, roundHalfEven_mul_right _ _ hk]

/-- Equal fractions are nearest to the same magnitude. -/
theorem nearest_congr {num den num' den' : Nat} (hden : 0 < den) (hden' : 0 < den')
    (h : num * den' = num' * den) : f.nearest num den = f.nearest num' den' := by
  rw [← nearest_mul_right f num den hden', h, Nat.mul_comm den den', nearest_mul_right f _ _ hden]

/-- A code is an exponent over the digits of its magnitude; the leading digit is there unless the
exponent is the least. -/
theorem exists_units (f : Format) (code : Nat) : ∃ m e, m < 2 * 2 ^ (f.precision - 1) ∧
    (e = 0 ∨ 2 ^ (f.precision - 1) ≤ m) ∧ code = e * 2 ^ (f.precision - 1) + m ∧
      f.units code = m * 2 ^ e := by
  have hhidden : 0 < 2 ^ (f.precision - 1) := by positivity
  unfold units
  simp only [Nat.shiftLeft_eq, Nat.one_mul]
  generalize 2 ^ (f.precision - 1) = hidden at hhidden
  have hsplit := Nat.div_add_mod code hidden
  have hrest := Nat.mod_lt code hhidden
  rcases Nat.eq_zero_or_pos (code / hidden) with hzero | hpos
  · refine ⟨code, 0, ?_, .inl rfl, by simp, by simp [hzero]⟩
    rw [hzero] at hsplit
    omega
  · obtain ⟨e, he⟩ := Nat.exists_eq_add_of_lt hpos
    refine ⟨hidden + code % hidden, e, by omega, .inr (by omega), ?_, ?_⟩
    · rw [he, Nat.zero_add, Nat.mul_succ, Nat.mul_comm] at hsplit
      omega
    · rw [he, if_neg (by omega), Nat.zero_add, Nat.add_sub_cancel]

/-- A magnitude is nearest to itself. -/
theorem nearest_units (hf : 0 < f.precision) {code : Nat} (h : code ≤ f.infinity) :
    f.nearest (f.units code) (2 ^ f.scale) = code := by
  obtain ⟨m, e, hm, hlead, hcode, hunits⟩ := f.exists_units code
  have hscale : 0 < 2 ^ f.scale := by positivity
  have hfull : 2 * 2 ^ (f.precision - 1) = 2 ^ f.precision := by
    rw [← pow_succ', Nat.sub_add_cancel hf]
  have hwhole : f.units code * 2 ^ f.scale / 2 ^ f.scale = m * 2 ^ e := by
    rw [Nat.mul_div_cancel _ hscale, hunits]
  -- just the digits beyond the precision are dropped, and they are zeros
  have hdrop : (if m * 2 ^ e < 2 ^ f.precision then 0 else (m * 2 ^ e).log2 + 1 - f.precision) = e := by
    rcases Nat.eq_zero_or_pos e with rfl | hpos
    · rw [pow_zero, Nat.mul_one, if_pos (hfull ▸ hm)]
    · have hle : 2 ^ (f.precision - 1) ≤ m := hlead.resolve_left hpos.ne'
      have hne : m ≠ 0 := fun h => by simp [h] at hle
      have hlarge : ¬ m * 2 ^ e < 2 ^ f.precision := by
        have hpow : 2 ^ 1 ≤ 2 ^ e := Nat.pow_le_pow_right (by decide) hpos
        have := Nat.mul_le_mul hle hpow
        omega
      have hlog : (m * 2 ^ e).log2 = f.precision - 1 + e := by
        rw [Nat.log2_eq_iff (Nat.mul_ne_zero hne (by positivity)), pow_add, Nat.add_right_comm,
          pow_add, pow_succ']
        exact ⟨Nat.mul_le_mul_right _ hle, Nat.mul_lt_mul_of_pos_right hm (by positivity)⟩
      rw [if_neg hlarge, hlog]
      omega
  have hround : roundHalfEven (f.units code * 2 ^ f.scale) (2 ^ f.scale * 2 ^ e) = m := by
    rw [hunits, Nat.mul_assoc, Nat.mul_comm (2 ^ e), roundHalfEven_mul_self m (by positivity)]
  unfold nearest
  simp only [Nat.shiftLeft_eq, Nat.one_mul, hwhole, hdrop, hround]
  rw [← hcode, Nat.min_eq_left h]

theorem units_eq_zero {code : Nat} (h : f.units code = 0) : code = 0 := by
  obtain ⟨m, e, -, hlead, hcode, hunits⟩ := f.exists_units code
  have hm : m = 0 := by simpa using hunits.symm.trans h
  have he : e = 0 := hlead.resolve_right (by simp [hm])
  rw [hcode, he, hm, Nat.zero_mul]

/-- Single-precision magnitudes have no more than 277 digits, counted in units. -/
theorem units_single_lt {code : Nat} (h : code < single.infinity) : single.units code < 2 ^ 277 := by
  obtain ⟨m, e, hm, -, hcode, hunits⟩ := single.exists_units code
  have hprecision : single.precision - 1 = 23 := rfl
  have hinfinity : single.infinity = 255 * 2 ^ 23 := by decide
  rw [hprecision] at hm hcode
  have he : e ≤ 254 := by omega
  rcases he.lt_or_eq with hlt | rfl
  · have hpow : 2 ^ e ≤ 2 ^ 253 := Nat.pow_le_pow_right (by decide) (by omega)
    calc single.units code = m * 2 ^ e := hunits
      _ ≤ m * 2 ^ 253 := Nat.mul_le_mul_left m hpow
      _ < 2 ^ 277 := by omega
  · have hsmall : m < 2 ^ 23 := by omega
    calc single.units code = m * 2 ^ 254 := hunits
      _ < 2 ^ 277 := by omega

end Binary.Format

namespace Decimal

/-! ## Values -/

/-- The value of a decimal. -/
def value (d : Decimal) : ℚ := d.digits * 10 ^ d.exponent

variable {d d' : Decimal} {f : Format}

theorem fraction_pos (d : Decimal) : 0 < d.fraction.2 := by
  unfold fraction
  split
  · exact Nat.one_pos
  · exact Nat.pow_pos (by decide)

theorem value_eq_fraction (d : Decimal) : d.value = d.fraction.1 / d.fraction.2 := by
  unfold value fraction
  split
  · next h =>
    obtain ⟨n, hn⟩ := Int.eq_ofNat_of_zero_le h
    simp [hn]
  · next h =>
    obtain ⟨n, hn⟩ := Int.eq_ofNat_of_zero_le (show 0 ≤ -d.exponent by omega)
    have hexponent : d.exponent = -n := by omega
    simp [hexponent, div_eq_mul_inv]

theorem length_eq_digits (n : Nat) : length n = (Nat.digits 10 n).length := by
  induction n using Nat.strong_induction_on with
  | _ n ih =>
    rw [length]
    split
    · next h => simp [h]
    · next h =>
      rw [Nat.digits_def' (by decide) (Nat.pos_of_ne_zero h), List.length_cons,
        ih (n / 10) (Nat.div_lt_self (Nat.pos_of_ne_zero h) (by decide))]

/-- The leading digit tells how large a value is. -/
theorem value_bounds (h : d.digits ≠ 0) : (10 : ℚ) ^ (d.exponent + length d.digits - 1) ≤ d.value ∧
    d.value < 10 ^ (d.exponent + length d.digits) := by
  have hten : (10 : ℚ) ≠ 0 := by norm_num
  have hpos : (0 : ℚ) < 10 ^ d.exponent := by positivity
  have hhigh : d.digits < 10 ^ length d.digits := by
    rw [length_eq_digits]
    exact Nat.lt_base_pow_length_digits (by decide)
  have hlow : 10 ^ length d.digits ≤ 10 * d.digits := by
    rw [length_eq_digits]
    exact Nat.base_pow_length_digits_le 10 d.digits (by decide) h
  unfold value
  rw [add_sub_assoc, zpow_add₀ hten, zpow_add₀ hten, mul_comm (d.digits : ℚ)]
  refine ⟨mul_le_mul_of_nonneg_left ?_ hpos.le, mul_lt_mul_of_pos_left ?_ hpos⟩
  · rw [zpow_sub₀ hten, zpow_natCast, zpow_one, div_le_iff₀ (by norm_num), mul_comm]
    exact_mod_cast hlow
  · rw [zpow_natCast]
    exact_mod_cast hhigh

theorem value_eq_zero : d.value = 0 ↔ d.digits = 0 := by
  have hpos : (10 : ℚ) ^ d.exponent ≠ 0 := by positivity
  rw [value, mul_eq_zero, or_iff_left hpos, Nat.cast_eq_zero]

theorem value_pos (h : d.digits ≠ 0) : 0 < d.value :=
  lt_of_lt_of_le (by positivity) (value_bounds h).1

/-- Decimals of one value have their leading digits at one place. -/
theorem top_congr (h : d.value = d'.value) (hd : d.digits ≠ 0) (hd' : d'.digits ≠ 0) :
    d.exponent + length d.digits = d'.exponent + length d'.digits := by
  have hone : (1 : ℚ) < 10 := by norm_num
  obtain ⟨hlow, hhigh⟩ := value_bounds hd
  obtain ⟨hlow', hhigh'⟩ := value_bounds hd'
  rw [← h] at hlow' hhigh'
  have hle := (zpow_lt_zpow_iff_right₀ hone).1 (hlow.trans_lt hhigh')
  have hge := (zpow_lt_zpow_iff_right₀ hone).1 (hlow'.trans_lt hhigh)
  omega

/-- The code of a decimal is a matter of its value alone. -/
theorem code_congr (f : Format) (h : d.value = d'.value) : d.code f = d'.code f := by
  unfold code
  by_cases hd : d.digits = 0
  · have hd' : d'.digits = 0 := value_eq_zero.1 (h ▸ value_eq_zero.2 hd)
    rw [if_pos hd, if_pos hd']
  · have hd' : d'.digits ≠ 0 := fun hd' => hd (value_eq_zero.1 (h ▸ value_eq_zero.2 hd'))
    have hden := d.fraction_pos
    have hden' := d'.fraction_pos
    have hcross : d.fraction.1 * d'.fraction.2 = d'.fraction.1 * d.fraction.2 := by
      rw [value_eq_fraction, value_eq_fraction, div_eq_div_iff (by positivity) (by positivity)] at h
      exact_mod_cast h
    rw [if_neg hd, if_neg hd', top_congr h hd hd', Format.nearest_congr hden hden' hcross]

/-! ## The shortest decimal -/

theorem value_exact (f : Format) (code : Nat) :
    (exact f code).value = f.units code / 2 ^ f.scale := by
  have hten : (10 : ℚ) ^ f.scale = 2 ^ f.scale * 5 ^ f.scale := by
    rw [← mul_pow]
    norm_num
  unfold exact value
  rw [zpow_neg, zpow_natCast, hten, Nat.pow_eq]
  push_cast
  field_simp

/-- Every magnitude lies this side of the horizon. -/
theorem two_pow_le_ten_pow {n : Nat} (h : n ≤ 400) : (2 : ℚ) ^ n ≤ 10 ^ (400 : ℤ) :=
  calc (2 : ℚ) ^ n ≤ 2 ^ 400 := pow_le_pow_right₀ one_le_two h
    _ ≤ 10 ^ 400 := pow_le_pow_left₀ zero_le_two (by norm_num) 400

/-- The exact value of a magnitude reads back. -/
theorem code_exact {code : Nat} (hcode : code < single.infinity) :
    (exact single code).code single = code := by
  have hscale : single.scale = 149 := by decide
  have hone : (1 : ℚ) < 10 := by norm_num
  have hlt : (single.units code : ℚ) < 2 ^ 277 := by exact_mod_cast Format.units_single_lt hcode
  have h := value_exact single code
  generalize exact single code = d at h
  rw [hscale] at h
  unfold Decimal.code
  split
  · next hdigits =>
    rw [value_eq_zero.2 hdigits, eq_comm, div_eq_zero_iff, or_iff_left (by positivity)] at h
    exact (Format.units_eq_zero (by exact_mod_cast h)).symm
  · next hdigits =>
    obtain ⟨hlow, hhigh⟩ := value_bounds hdigits
    have hunits : (1 : ℚ) ≤ single.units code := by
      have hpos := value_pos hdigits
      rw [h, div_pos_iff_of_pos_right (by positivity)] at hpos
      exact_mod_cast hpos
    dsimp only
    rw [if_neg, if_neg]
    · -- the fractions are equal
      have hden := d.fraction_pos
      rw [d.value_eq_fraction, div_eq_div_iff (by positivity) (by positivity)] at h
      have hcross : d.fraction.1 * 2 ^ single.scale = single.units code * d.fraction.2 := by
        rw [hscale]
        exact_mod_cast h
      rw [Format.nearest_congr hden (by positivity) hcross,
        Format.nearest_units (by decide) hcode.le]
    · -- nothing is as small as that
      intro hbelow
      have hle : (10 : ℚ) ^ (d.exponent + length d.digits) ≤ 10 ^ (-400 : ℤ) :=
        zpow_le_zpow_right₀ hone.le (by unfold horizon at hbelow; omega)
      have hleast : (1 : ℚ) / 2 ^ 149 ≤ d.value := by
        rw [h]
        exact div_le_div_of_nonneg_right hunits (by positivity)
      have hfar : (10 : ℚ) ^ (-400 : ℤ) ≤ 1 / 2 ^ 149 := by
        rw [zpow_neg, inv_eq_one_div]
        exact one_div_le_one_div_of_le (by positivity) (two_pow_le_ten_pow (by decide))
      exact absurd (hleast.trans_lt (hhigh.trans_le hle)) hfar.not_gt
    · -- and nothing is as large as that
      intro habove
      have hle : (10 : ℚ) ^ (400 : ℤ) ≤ 10 ^ (d.exponent + length d.digits - 1) :=
        zpow_le_zpow_right₀ hone.le (by unfold horizon at habove; omega)
      have hmost : d.value < 2 ^ 277 / 2 ^ 149 := by
        rw [h]
        exact div_lt_div_of_pos_right hlt (by positivity)
      have hfar : (2 : ℚ) ^ 277 / 2 ^ 149 ≤ 10 ^ (400 : ℤ) :=
        (div_le_self (by positivity) (one_le_pow₀ one_le_two)).trans (two_pow_le_ten_pow (by decide))
      exact absurd ((hle.trans hlow).trans_lt hmost) hfar.not_gt

/-- Trailing zeros may be left out. -/
theorem value_trim (d : Decimal) : d.trim.value = d.value := by
  induction d using trim.induct with
  | case1 d h =>
    rw [trim, dif_pos h]
    simp [value, h]
  | case2 d h hlast ih =>
    rw [trim, dif_neg h, if_pos hlast, ih]
    obtain ⟨k, hk⟩ := Nat.dvd_of_mod_eq_zero hlast
    unfold value
    rw [hk, Nat.mul_div_cancel_left k (by decide), zpow_add₀ (by norm_num), zpow_one]
    push_cast
    ring
  | case3 d h hlast => rw [trim, dif_neg h, if_neg hlast]

/-- What is found on a grid reads back. -/
theorem code_onGrid? {code n : Nat} (h : onGrid? f code n = some d) : d.code f = code := by
  unfold onGrid? at h
  dsimp only at h
  split at h
  · next hlow hhigh =>
    cases h
    split
    · exact eq_of_beq hlow
    · exact eq_of_beq hhigh
  · next hlow _ =>
    cases h
    exact eq_of_beq hlow
  · next _ hhigh =>
    cases h
    exact eq_of_beq hhigh
  · cases h

/-- The search ends with a decimal that reads back. -/
theorem code_search {code : Nat} (hcode : code < single.infinity) (n tries : Nat) :
    (search single code n tries).code single = code := by
  induction tries generalizing n with
  | zero => exact code_exact hcode
  | succ tries ih =>
    rw [search]
    cases hgrid : onGrid? single code n with
    | none => exact ih (n + 1)
    | some d => exact code_onGrid? hgrid

/-- What a magnitude is written with reads back. -/
theorem code_shortest {code : Nat} (hcode : code < single.infinity) :
    (shortest single code).code single = code :=
  (code_congr single (value_trim _)).trans (code_search hcode 1 digitLimit)

end Decimal
end Patchbay
