import Mathlib
import Patchbay.Text.Symbol

/-!
# What a symbol keeps of a text

A text becomes a symbol without fail, and the symbol's text is the longest beginning of whole characters
that fits the capacity (`Symbol.keeps_longest`, with `Longest` for such a beginning). A symbol holds the
whole of a text that fits (`Symbol.Holds`), and then has the same text (`Symbol.text_eq_iff`); of a longer
text the capacity is used up to the few bytes in which the next character finds no room
(`Longest.room_lt`).
-/

namespace Patchbay

/-! ## The longest beginning that fits -/

/-- That a text is the longest beginning of another, in whole characters, that takes at most `room`
bytes. -/
structure Longest (room : Nat) (text kept : String) : Prop where
  begins : ∃ rest, kept ++ rest = text
  fits : kept.utf8ByteSize ≤ room
  longest : ∀ other rest, other ++ rest = text → other.utf8ByteSize ≤ room →
    other.utf8ByteSize ≤ kept.utf8ByteSize

/-- Two beginnings of one text that take as many bytes are the same. -/
theorem append_inj_of_utf8ByteSize_eq {kept kept' rest rest' : String} (h : kept ++ rest = kept' ++ rest')
    (hsize : kept.utf8ByteSize = kept'.utf8ByteSize) : kept = kept' := by
  have hbytes := congrArg String.toByteArray h
  rw [String.toByteArray_append, String.toByteArray_append] at hbytes
  exact String.toByteArray_inj.1 (ByteArray.append_inj_left hbytes (by simpa using hsize))

namespace Longest

variable {room : Nat} {text kept kept' : String}

theorem unique (h : Longest room text kept) (h' : Longest room text kept') : kept = kept' := by
  obtain ⟨rest, hrest⟩ := h.begins
  obtain ⟨rest', hrest'⟩ := h'.begins
  refine append_inj_of_utf8ByteSize_eq (hrest.trans hrest'.symm) (Nat.le_antisymm ?_ ?_)
  · exact h'.longest kept rest hrest h.fits
  · exact h.longest kept' rest' hrest' h'.fits

theorem toByteArray_eq (h : Longest room text kept) :
    kept.toByteArray = text.toByteArray.extract 0 kept.utf8ByteSize := by
  obtain ⟨rest, rfl⟩ := h.begins
  rw [String.toByteArray_append, ByteArray.extract_append_eq_left String.size_toByteArray.symm]

/-- A text that fits is kept whole. -/
theorem self (h : text.utf8ByteSize ≤ room) : Longest room text text where
  begins := ⟨"", String.append_empty⟩
  fits := h
  longest other rest hother _ := by
    rw [← hother, String.utf8ByteSize_append]
    exact Nat.le_add_right ..

theorem eq_self_iff (h : Longest room text kept) : kept = text ↔ text.utf8ByteSize ≤ room := by
  constructor
  · rintro rfl
    exact h.fits
  · intro hfits
    exact h.unique (self hfits)

/-- A text is cut no sooner than its next character would not fit. -/
theorem room_lt (h : Longest room text kept) (hcut : kept ≠ text) : room < kept.utf8ByteSize + 4 := by
  obtain ⟨rest, hrest⟩ := h.begins
  have hne : rest.toList ≠ [] := by
    intro hnil
    rw [String.toList_eq_nil_iff.1 hnil, String.append_empty] at hrest
    exact hcut hrest
  obtain ⟨c, cs, hcs⟩ := List.exists_cons_of_ne_nil hne
  have hmore : kept ++ String.singleton c ++ String.ofList cs = text := by
    rw [← hrest, String.append_assoc, String.singleton_eq_ofList, ← String.ofList_append,
      List.singleton_append, ← hcs, String.ofList_toList]
  have hsize : (kept ++ String.singleton c).utf8ByteSize = kept.utf8ByteSize + c.utf8Size := by
    rw [String.utf8ByteSize_append, String.utf8ByteSize_singleton]
  -- With one character more it would be a longer beginning, which cannot fit.
  have hlonger := h.longest _ _ hmore
  have hfour : c.utf8Size ≤ 4 := c.utf8Size_le_four
  have hone : 0 < c.utf8Size := c.utf8Size_pos
  omega

end Longest

namespace Symbol

theorem utf8ByteSize_text_le (s : Symbol) : s.text.utf8ByteSize ≤ symbolCapacity := by
  rw [text, ← byteLength_eq]
  exact s.fits

/-- The text of a symbol is what stands before the place where the text is cut. -/
theorem ofString_append (text : String) : ∃ rest, (ofString text).text ++ rest = text ∧
    cutPoint text (min text.utf8ByteSize symbolCapacity) = .ok (ofString text).text.utf8ByteSize := by
  obtain ⟨s, rest, hcut, hrest, hpoint⟩ := exists_cut text
  obtain rfl : ofString text = s := Except.ok.inj ((cut_eq text).symm.trans hcut)
  exact ⟨rest, hrest, hpoint⟩

theorem longest_ofString (text : String) : Longest symbolCapacity text (ofString text).text := by
  obtain ⟨rest, hrest, hpoint⟩ := ofString_append text
  obtain ⟨stop, hstop, -, -, hlast⟩ := cutPoint_spec text (min text.utf8ByteSize symbolCapacity)
  obtain rfl : stop = (ofString text).text.utf8ByteSize := Except.ok.inj (hstop.symm.trans hpoint)
  refine ⟨⟨rest, hrest⟩, utf8ByteSize_text_le _, fun other rest' hother hfits => ?_⟩
  -- Every other beginning ends at one of the places of which the search finds the last.
  have hplace : String.Pos.Raw.IsValid text ⟨other.utf8ByteSize⟩ :=
    String.Pos.Raw.isValid_iff_exists_append.2 ⟨other, rest', hother.symm, rfl⟩
  exact hlast _ (Nat.le_min.2 ⟨hplace.le_utf8ByteSize, hfits⟩) hplace

theorem text_injective : Function.Injective text := by
  intro s s' h
  have hchars : s.chars = s'.chars := String.ofList_injective h
  cases s
  cases s'
  cases hchars
  rfl

/-! ## Texts that fit -/

/-- That a symbol holds the whole of a text. -/
def Holds (text : String) : Prop := byteLength text.toList ≤ symbolCapacity

instance (text : String) : Decidable (Holds text) :=
  inferInstanceAs (Decidable (byteLength text.toList ≤ symbolCapacity))

theorem text_ofString_eq_iff {text : String} : (ofString text).text = text ↔ Holds text := by
  rw [(longest_ofString text).eq_self_iff, Holds, byteLength_toList]

/-- A text is the text of its own symbol, or of none. -/
theorem text_eq_iff {text : String} {s : Symbol} :
    s.text = text ↔ Holds text ∧ s = .ofString text := by
  constructor
  · rintro rfl
    have hholds : Holds s.text := by
      rw [Holds, byteLength_toList]
      exact s.utf8ByteSize_text_le
    exact ⟨hholds, text_injective (text_ofString_eq_iff.2 hholds).symm⟩
  · rintro ⟨hholds, rfl⟩
    exact text_ofString_eq_iff.2 hholds

theorem ofString_text (s : Symbol) : ofString s.text = s := (text_eq_iff.1 rfl).2.symm

/-! ## The main statement -/

/-- A text becomes a symbol without fail: stepping back from the capacity ends between two characters,
and the symbol's text is what stands before that place. It is the one longest beginning that fits. So a
text that fits is kept whole, and so is the text of a symbol; where a text is cut, at most three bytes are
left over; and two texts become the same symbol exactly when their longest beginnings agree. -/
theorem keeps_longest (text : String) :
    (∃ stop, cutPoint text (min text.utf8ByteSize symbolCapacity) = .ok stop ∧
      (ofString text).text.toByteArray = text.toByteArray.extract 0 stop) ∧
    cut text = .ok (ofString text) ∧
    (∀ kept, Longest symbolCapacity text kept ↔ kept = (ofString text).text) ∧
    ((ofString text).text = text ↔ text.utf8ByteSize ≤ symbolCapacity) ∧
    ofString (ofString text).text = ofString text ∧
    ((ofString text).text = text ∨ symbolCapacity ≤ (ofString text).text.utf8ByteSize + 3) ∧
    ∀ other, ofString text = ofString other ↔
      ∃ kept, Longest symbolCapacity text kept ∧ Longest symbolCapacity other kept := by
  have hlongest := longest_ofString text
  refine ⟨?_, cut_eq text, fun kept => ⟨fun h => h.unique hlongest, fun h => h ▸ hlongest⟩,
    hlongest.eq_self_iff, ofString_text _, ?_, fun other => ⟨fun h => ?_, ?_⟩⟩
  · obtain ⟨-, -, hpoint⟩ := ofString_append text
    exact ⟨_, hpoint, hlongest.toByteArray_eq⟩
  · by_cases hwhole : (ofString text).text = text
    · exact .inl hwhole
    · have hroom := hlongest.room_lt hwhole
      exact .inr (by omega)
  · exact ⟨_, hlongest, h ▸ longest_ofString other⟩
  · rintro ⟨kept, hkept, hkept'⟩
    exact text_injective ((hlongest.unique hkept).trans (hkept'.unique (longest_ofString other)))

-- Three bytes are left over where a character of four would begin with the thirtieth.
example : (ofString "aaaaaaaaaaaaaaaaaaaaaaaaaaaaa𝒫").text = "aaaaaaaaaaaaaaaaaaaaaaaaaaaaa" := by
  decide +kernel

end Symbol
end Patchbay
