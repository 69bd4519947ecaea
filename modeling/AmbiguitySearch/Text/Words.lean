import AmbiguitySearch.Text.Blank

/-!
# Words

A text falls into words, its maximal runs of characters that are not blank.
`splitWord` takes the run at the very beginning, which is empty if the text
starts with a blank; `words` takes all of them, none empty.
-/

namespace AmbiguitySearch.Text

/-- The run of characters before the first blank, and everything from there. -/
def splitWord (text : List Char) : List Char × List Char :=
  (text.takeWhile (!isBlank ·), text.dropWhile (!isBlank ·))

/-- A text without the blanks it starts with. -/
def skipBlanks (text : List Char) : List Char := text.dropWhile isBlank

theorem splitWord_append (text : List Char) :
    (splitWord text).1 ++ (splitWord text).2 = text :=
  List.takeWhile_append_dropWhile

/-- What follows a word is shorter than a text that starts with one. -/
theorem length_splitWord_lt {c : Char} {rest : List Char} (letter : isBlank c = false) :
    (splitWord (c :: rest)).2.length < (c :: rest).length := by
  simp only [splitWord, List.dropWhile_cons, letter, Bool.not_false, if_true, List.length_cons]
  exact Nat.lt_succ_of_le (List.dropWhile_sublist _).length_le

theorem length_skipBlanks_le (text : List Char) : (skipBlanks text).length ≤ text.length :=
  (List.dropWhile_sublist _).length_le

/-- What is left after the leading blanks does not start with a blank. -/
theorem isBlank_of_skipBlanks {text rest : List Char} {c : Char}
    (left : skipBlanks text = c :: rest) : isBlank c = false := by
  induction text with
  | nil => cases left
  | cons d text later =>
    simp only [skipBlanks, List.dropWhile_cons] at left later
    split at left
    next => exact later left
    next visible => cases left; simpa using visible

/-- The words of a text, in order. -/
def words (text : List Char) : List (List Char) :=
  match _left : skipBlanks text with
  | [] => []
  | c :: rest =>
    let parts := splitWord (c :: rest)
    parts.1 :: words parts.2
termination_by text.length
decreasing_by
  have visible := @length_splitWord_lt c rest (isBlank_of_skipBlanks _left)
  have shorter := length_skipBlanks_le text
  rw [_left] at shorter
  exact Nat.lt_of_lt_of_le visible shorter

end AmbiguitySearch.Text
