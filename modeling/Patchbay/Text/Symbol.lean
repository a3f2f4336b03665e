import Patchbay.Fault

/-!
# Symbols

A **symbol** is a short text: it names links, stores and receivers, and it is one kind of atom in
a message. A text becomes a symbol by keeping its longest beginning of whole characters that fits
the capacity, so two long texts with the same beginning are the same symbol. Where that beginning
ends is sought from the capacity backwards, a byte at a time.
-/

namespace Patchbay

/-- The capacity of a symbol, in bytes of UTF-8. -/
def symbolCapacity : Nat := 32

/-- The bytes that a text takes in UTF-8. -/
def byteLength : List Char → Nat
  | [] => 0
  | c :: cs => c.utf8Size + byteLength cs

theorem byteLength_eq (cs : List Char) : byteLength cs = (String.ofList cs).utf8ByteSize := by
  induction cs with
  | nil => rfl
  | cons c cs ih =>
    rw [byteLength, ih, ← List.singleton_append, String.ofList_append, String.utf8ByteSize_append,
      ← String.singleton_eq_ofList, String.utf8ByteSize_singleton]

theorem byteLength_toList (text : String) : byteLength text.toList = text.utf8ByteSize := by
  rw [byteLength_eq, String.ofList_toList]

/-- A text that fits the capacity. -/
structure Symbol where
  chars : List Char
  fits : byteLength chars ≤ symbolCapacity
deriving DecidableEq

namespace Symbol

/-- The symbol with no characters. -/
def empty : Symbol := ⟨[], by simp [byteLength]⟩

instance : Inhabited Symbol := ⟨empty⟩

/-- The text of a symbol. -/
def text (s : Symbol) : String := String.ofList s.chars

instance : ToString Symbol := ⟨text⟩

/-! ## Cutting a text -/

/-- The last place at or before so many bytes where a text can be cut between characters. Such a place
is told by the byte that follows, which begins a character, or by the end of the text. From the
beginning of the text there is no step back. -/
def cutPoint (text : String) : (offset : Nat) → Except Fault Nat
  | 0 => if String.Pos.Raw.isValid text ⟨0⟩ then .ok 0 else .error .overflow
  | offset + 1 =>
    if String.Pos.Raw.isValid text ⟨offset + 1⟩ then .ok (offset + 1) else cutPoint text offset

/-- The first so many bytes of a text, which have to be whole characters. -/
def beginning (text : String) (stop : Nat) : Except Fault String :=
  if whole : String.Pos.Raw.IsValid text ⟨stop⟩ then .ok (text.sliceTo (text.pos ⟨stop⟩ whole)).copy
  else .error .outOfBounds

/-- The symbol with all the characters of a text, which have to fit. -/
def filled (text : String) : Except Fault Symbol :=
  if fits : byteLength text.toList ≤ symbolCapacity then .ok ⟨text.toList, fits⟩
  else .error .outOfBounds

/-- Cuts a text to the capacity. -/
def cut (text : String) : Except Fault Symbol := do
  let stop ← cutPoint text (min text.utf8ByteSize symbolCapacity)
  filled (← beginning text stop)

/-- The search from an offset ends at the last of the places that are not behind it. -/
theorem cutPoint_spec (text : String) (offset : Nat) :
    ∃ stop, cutPoint text offset = .ok stop ∧ stop ≤ offset ∧
      String.Pos.Raw.IsValid text ⟨stop⟩ ∧
      ∀ other ≤ offset, String.Pos.Raw.IsValid text ⟨other⟩ → other ≤ stop := by
  induction offset with
  | zero =>
    have hvalid : String.Pos.Raw.IsValid text ⟨0⟩ := String.Pos.Raw.isValid_zero
    exact ⟨0, if_pos (String.Pos.Raw.isValid_eq_true_iff.2 hvalid), Nat.le_refl 0, hvalid,
      fun _ hle _ => hle⟩
  | succ offset ih =>
    by_cases hvalid : String.Pos.Raw.IsValid text ⟨offset + 1⟩
    · exact ⟨offset + 1, if_pos (String.Pos.Raw.isValid_eq_true_iff.2 hvalid), Nat.le_refl _, hvalid,
        fun _ hle _ => hle⟩
    · obtain ⟨stop, hstop, hle, hplace, hlast⟩ := ih
      have hback : cutPoint text (offset + 1) = cutPoint text offset :=
        if_neg (mt String.Pos.Raw.isValid_eq_true_iff.1 hvalid)
      refine ⟨stop, hback.trans hstop, Nat.le_succ_of_le hle, hplace, fun other hother hvalid' => ?_⟩
      -- `other` is a place, so it is not the offset that has just been passed over.
      have hne : other ≠ offset + 1 := by
        rintro rfl
        exact hvalid hvalid'
      exact hlast other (Nat.le_of_lt_succ (Nat.lt_of_le_of_ne hother hne)) hvalid'

theorem beginning_append (kept rest : String) :
    beginning (kept ++ rest) kept.utf8ByteSize = .ok kept := by
  have hvalid : String.Pos.Raw.IsValid (kept ++ rest) ⟨kept.utf8ByteSize⟩ :=
    String.Pos.Raw.isValid_iff_exists_append.2 ⟨kept, rest, rfl, rfl⟩
  have hsplits : ((kept ++ rest).pos ⟨kept.utf8ByteSize⟩ hvalid).Splits kept rest := ⟨rfl, rfl⟩
  rw [beginning, dif_pos hvalid, hsplits.copy_sliceTo_eq]

/-- A text is cut into a symbol and a rest, at the place that is found from the capacity backwards. -/
theorem exists_cut (text : String) : ∃ s rest, cut text = .ok s ∧ s.text ++ rest = text ∧
    cutPoint text (min text.utf8ByteSize symbolCapacity) = .ok s.text.utf8ByteSize := by
  obtain ⟨stop, hstop, hle, hplace, -⟩ := cutPoint_spec text (min text.utf8ByteSize symbolCapacity)
  obtain ⟨kept, rest, rfl, hend⟩ := String.Pos.Raw.isValid_iff_exists_append.1 hplace
  obtain rfl : stop = kept.utf8ByteSize := congrArg String.Pos.Raw.byteIdx hend
  -- The search starts at the capacity, so what stands before its end fits.
  have hfits : byteLength kept.toList ≤ symbolCapacity := by
    rw [byteLength_toList]
    exact Nat.le_trans hle (Nat.min_le_right ..)
  have htext : text ⟨kept.toList, hfits⟩ = kept := String.ofList_toList
  have hcut : cut (kept ++ rest) = .ok ⟨kept.toList, hfits⟩ := calc
    cut (kept ++ rest) = (do filled (← beginning (kept ++ rest) kept.utf8ByteSize)) := by
      rw [cut, hstop]
      rfl
    _ = filled kept := by
      rw [beginning_append]
      rfl
    _ = .ok ⟨kept.toList, hfits⟩ := dif_pos hfits
  exact ⟨⟨kept.toList, hfits⟩, rest, hcut, by rw [htext], by rw [htext, hstop]⟩

theorem isSome_cut (text : String) : (cut text).toOption.isSome = true := by
  obtain ⟨s, -, hcut, -⟩ := exists_cut text
  rw [hcut]
  rfl

/-- The symbol of a text. -/
def ofString (text : String) : Symbol := (cut text).toOption.get (isSome_cut text)

theorem cut_eq (text : String) : cut text = .ok (ofString text) := by
  obtain ⟨s, -, hcut, -⟩ := exists_cut text
  simp only [ofString, hcut]
  rfl

end Symbol
end Patchbay
