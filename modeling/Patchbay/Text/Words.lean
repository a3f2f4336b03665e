/-!
# Words

A text is split into words at its blanks. A blank is any character with the Unicode property
`White_Space`, which is more than the handful of blanks that `Char.isWhitespace` knows.
-/

namespace Patchbay

/-- The code points with the property `White_Space`, as closed ranges in rising order. -/
def blankRanges : List (Nat × Nat) :=
  [ (0x0009, 0x000d), (0x0020, 0x0020), (0x0085, 0x0085), (0x00a0, 0x00a0),
    (0x1680, 0x1680), (0x2000, 0x200a), (0x2028, 0x2029), (0x202f, 0x202f),
    (0x205f, 0x205f), (0x3000, 0x3000) ]

/-- Whether a character is a blank. -/
def isBlank (c : Char) : Bool :=
  blankRanges.any fun r => r.1 ≤ c.toNat && c.toNat ≤ r.2

/-- The word at the front of a text: its longest beginning without blanks. -/
def firstWord (cs : List Char) : List Char := cs.takeWhile (!isBlank ·)

/-- The text after its first word. -/
def afterWord (cs : List Char) : List Char := cs.dropWhile (!isBlank ·)

theorem length_dropWhile_le_length (p : Char → Bool) (cs : List Char) :
    (cs.dropWhile p).length ≤ cs.length := by
  induction cs with
  | nil => simp
  | cons c cs ih =>
    rw [List.dropWhile_cons]
    split
    · exact Nat.le_succ_of_le ih
    · exact Nat.le_refl _

/-- The words of a text, in order. -/
def wordsOf : List Char → List (List Char)
  | [] => []
  | c :: cs =>
    if isBlank c then wordsOf cs
    else (c :: firstWord cs) :: wordsOf (afterWord cs)
termination_by cs => cs.length
decreasing_by
  · simp
  · exact Nat.lt_succ_of_le (length_dropWhile_le_length _ cs)

/-- A text cut at the first of the given marks: what comes before it, and what comes behind it if
there is such a mark. -/
def cutAt (mark : Char) (cs : List Char) : String × Option String :=
  let front := String.ofList (cs.takeWhile (· != mark))
  match cs.dropWhile (· != mark) with
  | _ :: rest => (front, some (String.ofList rest))
  | [] => (front, none)

/-- The words of a text, in order. -/
def words (text : String) : List String :=
  (wordsOf text.toList).map String.ofList

end Patchbay
