import Patchbay.Message
import Patchbay.Proofs.Number.Notation
import Patchbay.Proofs.Symbol

/-!
# Messages read back

The text of a message is split into the texts of its atoms again (`words_intercalate`), so reading it
back comes to reading each atom back. A bang, a finite number and a symbol that holds its whole word are
read back as they are. Of a longer word a symbol keeps just the beginning, and the beginning of what is
no number may be one: such a word is misread (`Atom.misreading?`).

    Message.parse t (Message.parse t s).text  has the atoms of  Message.parse t s
      ↔  none of the words that make an atom is misread                 (Message.read_back)
-/

namespace Patchbay

/-! ## Words -/

/-- A text that is one word: not empty, and without blanks. -/
def IsWord (cs : List Char) : Prop := cs ≠ [] ∧ ∀ c ∈ cs, isBlank c = false

variable {w rest : List Char}

/-- The first word reaches up to the first blank. -/
theorem wordsOf_append (hw : IsWord w) (hrest : ∀ c ∈ rest.head?, isBlank c = true) :
    wordsOf (w ++ rest) = w :: wordsOf rest := by
  obtain ⟨hne, hclear⟩ := hw
  obtain ⟨c, cs, rfl⟩ := List.exists_cons_of_ne_nil hne
  have hcs : ∀ d ∈ cs, (!isBlank d) = true := fun d hd => by
    rw [hclear d (List.mem_cons_of_mem c hd)]
    rfl
  have hstop : ∀ d ∈ rest.head?, (!isBlank d) = false := fun d hd => by
    rw [hrest d hd]
    rfl
  obtain ⟨hfirst, hafter⟩ := takeWhile_dropWhile_append hcs hstop
  rw [List.cons_append, wordsOf, if_neg (by simp [hclear c List.mem_cons_self]), firstWord, hfirst,
    afterWord, hafter]

theorem isWord_of_mem_wordsOf {cs : List Char} (h : w ∈ wordsOf cs) : IsWord w := by
  induction cs using wordsOf.induct with
  | case1 =>
    rw [wordsOf] at h
    cases h
  | case2 c cs hblank ih =>
    rw [wordsOf, if_pos hblank] at h
    exact ih h
  | case3 c cs hclear ih =>
    rw [wordsOf, if_neg hclear] at h
    obtain rfl | h := List.mem_cons.1 h
    · refine ⟨List.cons_ne_nil _ _, fun d hd => ?_⟩
      obtain rfl | hd := List.mem_cons.1 hd
      · exact Bool.eq_false_iff.2 hclear
      · simpa using List.mem_takeWhile_imp hd
    · exact ih h

/-- Words with a blank between them are found again. -/
theorem wordsOf_intercalate {ws : List (List Char)} (h : ∀ w ∈ ws, IsWord w) :
    wordsOf ([' '].intercalate ws) = ws := by
  induction ws with
  | nil => rw [List.intercalate_nil, wordsOf]
  | cons w ws ih =>
    have hw : IsWord w := h w List.mem_cons_self
    have hws : ∀ w ∈ ws, IsWord w := fun w hmem => h w (List.mem_cons_of_mem _ hmem)
    cases ws with
    | nil =>
      have hlast : wordsOf (w ++ []) = w :: wordsOf [] :=
        wordsOf_append hw (by intro c hc; cases hc)
      rw [List.append_nil, wordsOf] at hlast
      rw [List.intercalate_singleton, hlast]
    | cons w' ws =>
      rw [List.intercalate_cons_cons, List.append_assoc, wordsOf_append hw (by rintro c ⟨⟩; rfl),
        List.singleton_append, wordsOf, if_pos (by decide), ih hws]

theorem words_intercalate {ws : List String} (h : ∀ w ∈ ws, IsWord w.toList) :
    words (" ".intercalate ws) = ws := by
  have htoList : (" ".intercalate ws).toList = [' '].intercalate (ws.map String.toList) :=
    String.toList_intercalate
  rw [words, htoList, wordsOf_intercalate (List.forall_mem_map.2 h), List.map_map]
  exact (List.map_congr_left fun w _ => String.ofList_toList).trans (List.map_id ws)

theorem isWord_of_mem_words {word text : String} (h : word ∈ words text) : IsWord word.toList := by
  obtain ⟨cs, hcs, rfl⟩ := List.mem_map.1 h
  rw [String.toList_ofList]
  exact isWord_of_mem_wordsOf hcs

/-! ## Atoms -/

/-- A finite number is written as one word. -/
theorem isWord_writeSingle {x : Float32} (h : x.isFinite = true) : IsWord (writeSingle x).toList := by
  have hdigit : ∀ c : Char, c.isDigit = true → isBlank c = false := by
    intro c hc
    have hlow : 48 ≤ c.toNat := by
      simp only [Char.isDigit, Bool.and_eq_true, decide_eq_true_eq] at hc
      exact hc.1
    have hhigh : c.toNat ≤ 57 := by
      simp only [Char.isDigit, Bool.and_eq_true, decide_eq_true_eq] at hc
      exact hc.2
    simp [isBlank, blankRanges]
    omega
  have hpositional : ∀ d : Decimal, IsWord d.positional.toList := by
    intro d
    obtain ⟨whole, part, hwhole, hpart, hne, ⟨htext, -⟩ | ⟨htext, -⟩⟩ := Numeral.toList_positional d
    · rw [htext]
      exact ⟨hne, fun c hc => hdigit c (hwhole c hc)⟩
    · rw [htext]
      refine ⟨List.append_ne_nil_of_left_ne_nil hne _, fun c hc => ?_⟩
      obtain hc | hc := List.mem_append.1 hc
      · exact hdigit c (hwhole c hc)
      · obtain rfl | hc := List.mem_cons.1 hc
        · decide
        · exact hdigit c (hpart c hc)
  rw [writeSingle_eq h, String.toList_append]
  obtain ⟨hne, hclear⟩ := hpositional (Decimal.shortest Binary.single (Binary.Parts.ofSingle x).code)
  refine ⟨List.append_ne_nil_of_right_ne_nil _ hne, fun c hc => ?_⟩
  obtain hc | hc := List.mem_append.1 hc
  · split at hc
    · obtain rfl := List.mem_singleton.1 hc
      decide
    · cases hc
  · exact hclear c hc

namespace Symbol

/-- A symbol that could not hold its whole word is long. -/
theorem lt_byteLength_of_not_holds {word : String} (h : ¬ Holds word) :
    28 < byteLength (ofString word).text.toList := by
  have hlong := (longest_ofString word).room_lt (mt text_ofString_eq_iff.1 h)
  rw [byteLength_toList]
  unfold symbolCapacity at hlong
  omega

/-- A symbol keeps a beginning of its word. -/
theorem isWord_ofString {word : String} (h : IsWord word.toList) : IsWord (ofString word).text.toList := by
  by_cases hholds : Holds word
  · rwa [text_eq_iff.2 ⟨hholds, rfl⟩]
  · have hlong := lt_byteLength_of_not_holds hholds
    obtain ⟨rest, hrest⟩ := (longest_ofString word).begins
    refine ⟨fun hnil => ?_, fun c hc => h.2 c ?_⟩
    · rw [hnil] at hlong
      exact absurd hlong (by decide)
    · rw [← hrest, String.toList_append]
      exact List.mem_append_left rest.toList hc

end Symbol

namespace Atom

variable {word : String}

/-- The finite number that a word spells, if it spells one. -/
def number? (word : String) : Option Float32 :=
  (readSingle? word).filter Float32.isFinite

/-- The number that a word turns into when it is read, written and read again. -/
def misreading? (word : String) : Option Float32 :=
  if Symbol.Holds word ∨ (number? word).isSome then none else number? (Symbol.ofString word).text

theorem parse_eq (hbang : word ≠ "bang") :
    parse word = ((number? word).map float).getD (.symbol (.ofString word)) := by
  unfold parse number?
  rw [if_neg hbang]
  cases readSingle? word with
  | none => rfl
  | some value => by_cases hfinite : value.isFinite = true <;> simp [hfinite, Option.filter]

theorem isFinite_of_number? {value : Float32} (h : number? word = some value) :
    value.isFinite = true :=
  (Option.filter_eq_some_iff.1 h).2

/-- A finite number is read back. -/
theorem parse_writeSingle {value : Float32} (h : value.isFinite = true) :
    parse (writeSingle value) = .float value := by
  have hread := readSingle?_writeSingle h
  have hbang : writeSingle value ≠ "bang" := by
    intro hbang
    rw [hbang, show readSingle? "bang" = none from rfl] at hread
    cases hread
  rw [parse_eq hbang, number?, hread, Option.filter_some_pos h]
  rfl

/-- What the text of an atom is read as. -/
theorem parse_text_parse (word : String) :
    parse (parse word).text = ((misreading? word).map float).getD (parse word) := by
  by_cases hbang : word = "bang"
  · subst hbang
    rfl
  cases hnumber : number? word with
  | some value =>
    have hmisread : misreading? word = none := if_pos (.inr (by rw [hnumber]; rfl))
    rw [hmisread, parse_eq hbang, hnumber]
    exact parse_writeSingle (isFinite_of_number? hnumber)
  | none =>
    have hparse : parse word = .symbol (.ofString word) := by rw [parse_eq hbang, hnumber]; rfl
    rw [hparse]
    show parse (Symbol.ofString word).text = _
    by_cases hholds : Symbol.Holds word
    · have hmisread : misreading? word = none := if_pos (.inl hholds)
      rw [hmisread, Symbol.text_eq_iff.2 ⟨hholds, rfl⟩, hparse]
      rfl
    · have hmisread : misreading? word = number? (Symbol.ofString word).text :=
        if_neg (not_or.2 ⟨hholds, by simp [hnumber]⟩)
      have hlong := Symbol.lt_byteLength_of_not_holds hholds
      have hcut : (Symbol.ofString word).text ≠ "bang" := by
        intro hcut
        rw [hcut] at hlong
        exact absurd hlong (by decide)
      rw [parse_eq hcut, hmisread, Symbol.ofString_text]

theorem parse_ne_float_of_misreading? {value : Float32} (h : misreading? word = some value) :
    parse word ≠ .float value := by
  unfold misreading? at h
  split at h
  · cases h
  · next hword =>
    obtain ⟨hholds, hnumber⟩ := not_or.1 hword
    have hbang : word ≠ "bang" := by
      rintro rfl
      exact hholds (by decide)
    rw [parse_eq hbang, Option.not_isSome_iff_eq_none.1 hnumber]
    exact nofun

/-- An atom is written as one word. -/
theorem isWord_text_parse (h : IsWord word.toList) : IsWord (parse word).text.toList := by
  by_cases hbang : word = "bang"
  · subst hbang
    exact h
  rw [parse_eq hbang]
  cases hnumber : number? word with
  | some value => exact isWord_writeSingle (isFinite_of_number? hnumber)
  | none => exact Symbol.isWord_ofString h

end Atom

/-! ## Messages -/

namespace Message

/-- A message is read back atom by atom. -/
theorem atoms_parse_text (timestamp : Float) (text : String) :
    (parse timestamp (parse timestamp text).text).atoms =
      ((words text).take maxAtoms).map fun word => Atom.parse (Atom.parse word).text := by
  have hatoms : ∀ text, (parse timestamp text).atoms = ((words text).take maxAtoms).map Atom.parse :=
    fun text => List.map_take.symm
  have hwords : words (parse timestamp text).text =
      ((words text).take maxAtoms).map fun word => (Atom.parse word).text := by
    rw [Message.text, hatoms, List.map_map]
    refine words_intercalate (List.forall_mem_map.2 fun word hword => ?_)
    exact Atom.isWord_text_parse (isWord_of_mem_words (List.mem_of_mem_take hword))
  have hfew : ((words text).take maxAtoms).length ≤ maxAtoms := List.length_take_le _ _
  rw [hatoms, hwords, List.take_of_length_le (by rwa [List.length_map]), List.map_map]
  rfl

/-- Reading a message back gives an atom for each of its atoms, the same ones but for the numbers that
words are misread as; and all of them exactly when there is no such word. -/
theorem read_back (timestamp : Float) (text : String) :
    (parse timestamp (parse timestamp text).text).atoms = ((words text).take maxAtoms).map (fun word =>
        ((Atom.misreading? word).map .float).getD (.parse word)) ∧
      ((parse timestamp (parse timestamp text).text).atoms = (parse timestamp text).atoms ↔
        ∀ word ∈ (words text).take maxAtoms, Atom.misreading? word = none) := by
  have hread : (parse timestamp (parse timestamp text).text).atoms =
      ((words text).take maxAtoms).map (fun word =>
        ((Atom.misreading? word).map .float).getD (.parse word)) :=
    (atoms_parse_text timestamp text).trans (List.map_congr_left fun word _ =>
      Atom.parse_text_parse word)
  refine ⟨hread, ?_⟩
  have hatoms : (parse timestamp text).atoms = ((words text).take maxAtoms).map Atom.parse :=
    List.map_take.symm
  rw [hread, hatoms, List.map_inj_left]
  refine forall₂_congr fun word _ => ?_
  cases hmisread : Atom.misreading? word with
  | none => simp
  | some value =>
    have hne := Atom.parse_ne_float_of_misreading? hmisread
    simpa using hne.symm

/-- Thirty-two digits before a letter are misread, for the letter is cut off. -/
theorem not_read_back : ¬ ∀ timestamp text,
    (parse timestamp (parse timestamp text).text).atoms = (parse timestamp text).atoms := by
  intro h
  have hsame := h 0 "11111111111111111111111111111111x"
  revert hsame
  decide +kernel

end Message
end Patchbay
