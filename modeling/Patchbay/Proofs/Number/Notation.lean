import Patchbay.Number.Notation
import Patchbay.Proofs.Number.Nearest
import Patchbay.Proofs.Number.Rounding

/-!
# Numbers read back

A decimal that is written positionally is read as a decimal of the same value
(`Numeral.decimal?_positional`), and a number is written with a decimal that reads back. So every
finite number is read from its own text again (`readSingle?_writeSingle`).
-/

namespace Patchbay

open Binary

/-- The front of a text as far as a property holds, and the rest of it. -/
theorem takeWhile_dropWhile_append {p : Char → Bool} {front rest : List Char}
    (hfront : ∀ c ∈ front, p c = true) (hrest : ∀ c ∈ rest.head?, p c = false) :
    (front ++ rest).takeWhile p = front ∧ (front ++ rest).dropWhile p = rest := by
  rw [List.takeWhile_append_of_pos hfront, List.dropWhile_append_of_pos hfront]
  cases rest with
  | nil => exact ⟨List.append_nil _, rfl⟩
  | cons c rest =>
    have hc : ¬ p c = true := Bool.eq_false_iff.1 (hrest c rfl)
    rw [List.takeWhile_cons_of_neg hc, List.dropWhile_cons_of_neg hc, List.append_nil]
    exact ⟨rfl, rfl⟩

/-! ## Digits -/

namespace Numeral

/-- That a text is made of digits. -/
def AllDigits (cs : List Char) : Prop := ∀ c ∈ cs, c.isDigit = true

theorem allDigits_toDigits (n : Nat) : AllDigits (Nat.toDigits 10 n) :=
  fun _ h => Nat.isDigit_of_mem_toDigits (by decide) (by decide) h

theorem AllDigits.append {cs ds : List Char} (h : AllDigits cs) (h' : AllDigits ds) :
    AllDigits (cs ++ ds) :=
  List.forall_mem_append.2 ⟨h, h'⟩

theorem allDigits_replicate (n : Nat) : AllDigits (List.replicate n '0') := by
  intro c hc
  rw [List.eq_of_mem_replicate hc]
  rfl

theorem ofDigits_toDigits (n : Nat) : ofDigits (Nat.toDigits 10 n) = n :=
  Nat.ofDigitChars_ten_toDigits

theorem ofDigits_append (cs ds : List Char) :
    ofDigits (cs ++ ds) = ofDigits cs * 10 ^ ds.length + ofDigits ds := by
  show Nat.ofDigitChars 10 (cs ++ ds) 0 = _
  rw [Nat.ofDigitChars_append, Nat.ofDigitChars_eq_ofDigitChars_zero, Nat.mul_comm]
  rfl

/-- Digits are taken up to what follows them. -/
theorem takeDigits_append {ds rest : List Char} (hds : AllDigits ds)
    (hrest : ∀ c ∈ rest.head?, c.isDigit = false) : takeDigits (ds ++ rest) = (ds, rest) := by
  obtain ⟨htake, hdrop⟩ := takeWhile_dropWhile_append hds hrest
  rw [takeDigits, htake, hdrop]

theorem takeDigits_all {ds : List Char} (hds : AllDigits ds) : takeDigits ds = (ds, []) := by
  have h : takeDigits (ds ++ []) = (ds, []) := takeDigits_append hds nofun
  rwa [List.append_nil] at h

/-- Digits alone spell a whole number. -/
theorem decimal?_digits {ds : List Char} (hds : AllDigits ds) (hne : ds ≠ []) :
    decimal? ds = some ⟨ofDigits ds, 0⟩ := by
  unfold decimal?
  rw [takeDigits_all hds]
  simp [exponent?, hne]

/-- Digits before and behind a point. -/
theorem decimal?_point {whole part : List Char} (hwhole : AllDigits whole) (hpart : AllDigits part)
    (hne : whole ≠ []) :
    decimal? (whole ++ '.' :: part) = some ⟨ofDigits (whole ++ part), -(part.length : Int)⟩ := by
  have hfront : takeDigits (whole ++ '.' :: part) = (whole, '.' :: part) :=
    takeDigits_append hwhole (by rintro c ⟨⟩; rfl)
  have hback := takeDigits_all hpart
  unfold decimal?
  simp [hfront, hback, exponent?, hne]

/-! ## Positional notation -/

/-- A text of the digits of a number, filled up with zeros to some length. -/
theorem toList_padLeft (width n : Nat) : (padLeft width '0' (writeNat n)).toList =
    List.replicate (width - (Nat.toDigits 10 n).length) '0' ++ Nat.toDigits 10 n := by
  have htext : (writeNat n).toList = Nat.toDigits 10 n := Nat.toList_repr
  rw [padLeft, String.toList_append, String.toList_ofList, ← String.length_toList, htext]

/-- What a positional decimal looks like: digits, and maybe a point and more of them. -/
theorem toList_positional (d : Decimal) : ∃ whole part : List Char, AllDigits whole ∧
    AllDigits part ∧ whole ≠ [] ∧
    (d.positional.toList = whole ∧ (⟨ofDigits whole, 0⟩ : Decimal).value = d.value ∨
      d.positional.toList = whole ++ '.' :: part ∧
        (⟨ofDigits (whole ++ part), -(part.length : Int)⟩ : Decimal) = d) := by
  unfold Decimal.positional
  split
  · next hwhole =>
    obtain ⟨n, hn⟩ := Int.eq_ofNat_of_zero_le hwhole
    refine ⟨Nat.toDigits 10 (d.digits * 10 ^ n), [], allDigits_toDigits _, nofun,
      Nat.toDigits_ne_nil, .inl ⟨?_, ?_⟩⟩
    · rw [hn]
      exact Nat.toList_repr
    · rw [ofDigits_toDigits, Decimal.value, Decimal.value, hn]
      push_cast
      rw [zpow_natCast, mul_one]
  · next hpart =>
    obtain ⟨places, hplaces⟩ := Int.eq_ofNat_of_zero_le (show 0 ≤ -d.exponent by omega)
    have hexponent : d.exponent = -(places : Int) := by omega
    have hlt : d.digits % 10 ^ places < 10 ^ places := Nat.mod_lt _ (Nat.pow_pos (by decide))
    have hlength : (Nat.toDigits 10 (d.digits % 10 ^ places)).length ≤ places :=
      (Nat.length_toDigits_le_iff (by decide) (by omega)).2 hlt
    refine ⟨Nat.toDigits 10 (d.digits / 10 ^ places),
      List.replicate (places - (Nat.toDigits 10 (d.digits % 10 ^ places)).length) '0' ++
        Nat.toDigits 10 (d.digits % 10 ^ places),
      allDigits_toDigits _, (allDigits_replicate _).append (allDigits_toDigits _),
      Nat.toDigits_ne_nil, .inr ⟨?_, ?_⟩⟩
    · rw [hplaces]
      dsimp only [Int.toNat_natCast]
      rw [String.toList_append, String.toList_append]
      show (writeNat _).toList ++ ".".toList ++ (padLeft places '0' (writeNat _)).toList = _
      rw [toList_padLeft, List.append_assoc]
      congr 1
      exact Nat.toList_repr
    · have hfull : (List.replicate (places - (Nat.toDigits 10 (d.digits % 10 ^ places)).length) '0' ++
          Nat.toDigits 10 (d.digits % 10 ^ places)).length = places := by
        rw [List.length_append, List.length_replicate]
        omega
      have hzeros : ∀ n, ofDigits (List.replicate n '0') = 0 := fun n =>
        (Nat.ofDigitChars_replicate_zero : Nat.ofDigitChars 10 _ 0 = _).trans (Nat.mul_zero _)
      rw [ofDigits_append, hfull, ofDigits_append, hzeros, ofDigits_toDigits, ofDigits_toDigits,
        Nat.zero_mul, Nat.zero_add, Nat.div_add_mod', ← hexponent]

theorem decimal?_positional (d : Decimal) :
    ∃ d', decimal? d.positional.toList = some d' ∧ d'.value = d.value := by
  obtain ⟨whole, part, hwhole, hpart, hne, ⟨htext, hvalue⟩ | ⟨htext, hd⟩⟩ := toList_positional d
  · exact ⟨_, by rw [htext, decimal?_digits hwhole hne], hvalue⟩
  · exact ⟨_, by rw [htext, decimal?_point hwhole hpart hne], by rw [hd]⟩

/-! ## Signs -/

/-- A positional decimal starts with a digit. -/
theorem exists_positional_cons (d : Decimal) :
    ∃ c cs, d.positional.toList = c :: cs ∧ c.isDigit = true := by
  obtain ⟨whole, part, hwhole, -, hne, h⟩ := toList_positional d
  obtain ⟨c, cs, rfl⟩ := List.exists_cons_of_ne_nil hne
  have hc : c.isDigit = true := hwhole c List.mem_cons_self
  obtain ⟨htext, -⟩ | ⟨htext, -⟩ := h
  · exact ⟨c, cs, htext, hc⟩
  · exact ⟨c, _, htext, hc⟩

theorem toLower_of_isDigit {c : Char} (h : c.isDigit = true) : c.toLower = c := by
  have hle : c.val ≤ 57 := by
    simp only [Char.isDigit, Bool.and_eq_true, decide_eq_true_eq] at h
    exact h.2
  refine dif_neg fun hupper => ?_
  exact absurd (UInt32.le_trans hupper.1 hle) (by decide)

/-- What starts with a digit is no word. -/
theorem ofChars?_of_isDigit {text : List Char} {negative : Bool} {c : Char} {cs : List Char}
    (hsign : takeSign text = (negative, c :: cs)) (hc : c.isDigit = true) :
    ofChars? text = (decimal? (c :: cs)).map (.finite negative) := by
  have hlower : ∀ d : Char, ∀ ds : List Char, d.isDigit = false →
      (c :: cs).map Char.toLower ≠ d :: ds := by
    intro d ds hd h
    rw [List.map_cons, toLower_of_isDigit hc] at h
    obtain ⟨rfl, -⟩ := List.cons.inj h
    rw [hc] at hd
    cases hd
  unfold ofChars?
  rw [hsign]
  dsimp only
  rw [if_neg, if_neg]
  · exact hlower 'n' _ rfl
  · exact not_or.2 ⟨hlower 'i' _ rfl, hlower 'i' _ rfl⟩

/-- A decimal is read back, with its sign, as one of the same value. -/
theorem ofChars?_positional (negative : Bool) (d : Decimal) : ∃ d',
    ofChars? ((if negative then "-" else "") ++ d.positional).toList = some (.finite negative d') ∧
      d'.value = d.value := by
  obtain ⟨d', hd', hvalue⟩ := decimal?_positional d
  obtain ⟨c, cs, htext, hc⟩ := exists_positional_cons d
  have hsign : takeSign ((if negative then "-" else "") ++ d.positional).toList =
      (negative, c :: cs) := by
    rw [String.toList_append, htext]
    cases negative with
    | true => rfl
    | false =>
      show takeSign (c :: cs) = _
      unfold takeSign
      split
      · next h =>
        obtain ⟨rfl, -⟩ := List.cons.inj h
        cases hc
      · next h =>
        obtain ⟨rfl, -⟩ := List.cons.inj h
        cases hc
      · rfl
  refine ⟨d', ?_, hvalue⟩
  rw [ofChars?_of_isDigit hsign hc, ← htext, hd', Option.map_some]

end Numeral

/-! ## Single precision -/

namespace Single

open Float.Model (Format UnpackedFloat)
open Float.Model.UnpackedFloat

variable {bits : BitVec Format.binary32.numBits}

/-- A number is its sign, its exponent and its mantissa. -/
theorem packComponents_unpack {exponent : BitVec 8} {mantissa : BitVec 23}
    (hexponent : unpackExponent bits = exponent) (hmantissa : unpackMantissa bits = mantissa) :
    packComponents Format.binary32 (.ofBitVec (unpackSign bits)) exponent mantissa = bits := by
  have hsign : ∀ v : BitVec 1, (Sign.ofBitVec v).toBitVec = v := by decide
  subst hexponent hmantissa
  rw [packComponents, hsign]
  unfold unpackSign unpackExponent unpackMantissa BitVec.extractLsb
  ext i hi
  grind

theorem toBits_injective : Function.Injective Float32.toBits := by
  rintro ⟨⟨bits, hbits⟩⟩ ⟨⟨bits', hbits'⟩⟩ h
  cases (h : bits = bits')
  rfl

/-- The largest exponent is that of infinity. -/
theorem toNat_unpackExponent_lt (h : (unpack Format.binary32 bits).isFinite = true) :
    (unpackExponent bits).toNat < 255 := by
  have hlt : (unpackExponent bits).toNat < 2 ^ 8 := (unpackExponent bits).isLt
  have hne : (unpackExponent bits).toNat ≠ 255 := by
    intro hfull
    unfold unpack at h
    rw [if_pos (BitVec.eq_of_toNat_eq hfull)] at h
    split at h <;> cases h
  omega

/-- Finite numbers are packed as they are. -/
theorem pack_unpack (h : (unpack Format.binary32 bits).isFinite = true) :
    pack Format.binary32 (unpack Format.binary32 bits) = bits := by
  have hmantissa : (unpackMantissa bits).toNat < 2 ^ 23 := (unpackMantissa bits).isLt
  have hexponent := toNat_unpackExponent_lt h
  have hfinite : unpackExponent bits ≠ -1#8 := fun hfull => by
    rw [hfull] at hexponent
    exact absurd hexponent (by decide)
  unfold unpack
  dsimp only
  rw [if_neg hfinite]
  split
  · next hzero =>
    split
    · next hnone => exact packComponents_unpack hzero hnone
    · next hsome =>
      have hlog : ¬ (unpackMantissa bits).toNat.log2 + 1 = Format.binary32.mantissaBits := by
        intro hlog
        have hlow := Nat.log2_self_le (n := (unpackMantissa bits).toNat)
          (fun h => hsome (BitVec.eq_of_toNat_eq h))
        rw [show (unpackMantissa bits).toNat.log2 = 23 from Nat.succ.inj hlog] at hlow
        omega
      unfold pack
      simp only [biased_eq, hzero]
      rw [if_neg (by decide), if_neg hlog]
      exact packComponents_unpack hzero (BitVec.eq_of_toNat_eq (by simp))
  · next hnormal =>
    have hpos : (unpackExponent bits).toNat ≠ 0 := fun h => hnormal (BitVec.eq_of_toNat_eq h)
    have hlog : (1#1 ++ unpackMantissa bits).toNat.log2 + 1 = Format.binary32.mantissaBits := by
      rw [(toNat_one_append _ : (1#1 ++ unpackMantissa bits).toNat = _)]
      exact congrArg (· + 1) ((Nat.log2_eq_iff (by omega)).2 (by omega))
    unfold pack
    simp only [biased_eq]
    have hbiased : (((unpackExponent bits).toNat : Int) - ((Format.binary32.exponentBias : Int) +
        (23 : Nat)) + 150).toNat = (unpackExponent bits).toNat := by
      show (((unpackExponent bits).toNat : Int) - (127 + 23) + 150).toNat = _
      omega
    rw [if_neg, if_pos hlog]
    · refine packComponents_unpack (BitVec.eq_of_toNat_eq ?_) (BitVec.eq_of_toNat_eq ?_)
      · rw [BitVec.toNat_ofNat]
        exact ((Nat.mod_eq_of_lt (by omega)).trans hbiased).symm
      · rw [BitVec.toNat_ofNat, (toNat_one_append _ : (1#1 ++ unpackMantissa bits).toNat = _)]
        exact ((Nat.add_mod_left _ _).trans (Nat.mod_eq_of_lt hmantissa)).symm
    · show ¬ 2 ^ 8 ≤ _
      omega

end Single

namespace Binary.Parts

variable {x : Float32}

/-- A finite number is put together of its parts again. -/
theorem toSingle_ofSingle (h : x.isFinite = true) : (ofSingle x).toSingle = x := by
  have hbits : (if (ofSingle x).negative then 0x80000000 else 0) + (ofSingle x).code =
      x.toBits.toNat := by
    have hlt := x.toBits.toNat_lt
    unfold ofSingle
    dsimp only
    simp only [decide_eq_true_eq]
    split <;> omega
  have hpack : (Float32.ofBits x.toBits).toBits = x.toBits :=
    congrArg UInt32.ofBitVec (Single.pack_unpack h)
  unfold toSingle
  rw [hbits, UInt32.ofNat_toNat, Single.toBits_injective hpack]

theorem code_ofSingle_lt (h : x.isFinite = true) : (ofSingle x).code < single.infinity := by
  have hexponent := Single.toNat_unpackExponent_lt h
  have hfield : x.toBits.toNat / 2 ^ 23 % 2 ^ 8 < 255 := by
    rw [← Nat.shiftRight_eq_div_pow]
    exact hexponent
  have hinfinity : single.infinity = 255 * 2 ^ 23 := by decide
  unfold ofSingle
  dsimp only
  omega

end Binary.Parts

theorem writeSingle_eq {x : Float32} (h : x.isFinite = true) :
    writeSingle x = (if (Parts.ofSingle x).negative then "-" else "") ++
      (Decimal.shortest single (Parts.ofSingle x).code).positional := by
  have hcode := Parts.code_ofSingle_lt h
  unfold writeSingle Parts.shortest
  rw [if_neg (by omega)]
  dsimp only
  rw [if_neg (by omega)]

/-- A finite number is read from its own text. -/
theorem readSingle?_writeSingle {x : Float32} (h : x.isFinite = true) :
    readSingle? (writeSingle x) = some x := by
  have hcode := Parts.code_ofSingle_lt h
  obtain ⟨d, hd, hvalue⟩ := Numeral.ofChars?_positional (Parts.ofSingle x).negative
    (Decimal.shortest single (Parts.ofSingle x).code)
  rw [readSingle?, writeSingle_eq h, hd, Option.map_some, Numeral.parts,
    Decimal.code_congr single hvalue, Decimal.code_shortest hcode]
  exact congrArg some (Parts.toSingle_ofSingle h)

end Patchbay
