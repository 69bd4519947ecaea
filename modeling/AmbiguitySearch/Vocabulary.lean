import AmbiguitySearch.Grammar.Basic

/-!
# All words in shortlex order

A `Vocabulary` enumerates the words over an alphabet: the empty word, then all
words of one letter, then of two, and within each length lexicographically by
the position of the letters in the alphabet. Letters are told apart by position
only, so an alphabet may repeat a symbol.

The last word produced is kept as a list of positions with the last letter
first, and `advance` moves it like an odometer. Read as a numeral with digits
from one upwards, that list is the index of the word in the enumeration
(`rank_advance`), which bounds the number of words of a given length
(`rank_lt_wordsUpTo`) and lets whoever walks through the vocabulary see the
end coming (`remaining_lt_of_next?`).
-/

namespace AmbiguitySearch

/-- An enumeration under way. -/
structure Vocabulary where
  alphabet : List Symbol
  /-- The positions of the letters of the last word produced, the last letter
  first; none before the first word. -/
  last : Option (List (Fin alphabet.length))

namespace Vocabulary

/-- The enumeration of an alphabet, from the start. -/
def ofAlphabet (alphabet : List Symbol) : Vocabulary := ⟨alphabet, none⟩

def ofGrammar (g : Grammar) : Vocabulary := ofAlphabet g.alphabet

/-- The positions of the next word: the last letter moves on, and each letter
that has no successor starts over and moves its neighbour on. -/
def advance {size : Nat} (positive : 0 < size) : List (Fin size) → List (Fin size)
  | [] => [⟨0, positive⟩]
  | digit :: rest =>
    if more : digit.val + 1 < size then ⟨digit.val + 1, more⟩ :: rest
    else ⟨0, positive⟩ :: advance positive rest

/-- The word at given positions. -/
def spell (alphabet : List Symbol) (digits : List (Fin alphabet.length)) : Form :=
  digits.reverse.map alphabet.get

/-- The next word, and the enumeration after it. Only the empty alphabet comes
to an end, after the empty word. -/
def next? (vocabulary : Vocabulary) : Option (Form × Vocabulary) :=
  match vocabulary.last with
  | none => some ([], { vocabulary with last := some [] })
  | some digits =>
    if positive : 0 < vocabulary.alphabet.length then
      let digits := advance positive digits
      some (spell vocabulary.alphabet digits, { vocabulary with last := some digits })
    else none

/-- Passes over some words, or over all if there are not that many. -/
def skip (vocabulary : Vocabulary) : Nat → Vocabulary
  | 0 => vocabulary
  | count + 1 =>
    match vocabulary.next? with
    | none => vocabulary
    | some (_, rest) => rest.skip count

/-- The next words, fewer than asked for if there are not that many. -/
def take (vocabulary : Vocabulary) : Nat → List Form
  | 0 => []
  | count + 1 =>
    match vocabulary.next? with
    | none => []
    | some (word, rest) => word :: rest.take count

/-! ## The index of a word -/

/-- The index of the word at given positions: a numeral whose digits run from
one to the size of the alphabet. -/
def rank {size : Nat} : List (Fin size) → Nat
  | [] => 0
  | digit :: rest => (digit.val + 1) + size * rank rest

/-- The number of words of at most a given length. -/
def wordsUpTo (size : Nat) : (length : Nat) → Nat
  | 0 => 1
  | length + 1 => 1 + size * wordsUpTo size length

/-- Advancing moves on by exactly one. -/
theorem rank_advance {size : Nat} (positive : 0 < size) :
    ∀ digits : List (Fin size), rank (advance positive digits) = rank digits + 1
  | [] => by simp [advance, rank]
  | digit :: rest => by
    unfold advance
    split
    next => simp only [rank]; omega
    next full =>
      have top : digit.val + 1 = size := by omega
      simp only [rank, rank_advance positive rest, top, Nat.mul_add]
      omega

/-- The words of at most a given length come first. -/
theorem rank_lt_wordsUpTo {size : Nat} :
    ∀ (digits : List (Fin size)) {length : Nat}, digits.length ≤ length →
      rank digits < wordsUpTo size length
  | [], 0, _ => by simp [rank, wordsUpTo]
  | [], length + 1, _ => by simp only [rank, wordsUpTo]; omega
  | digit :: rest, length + 1, fits => by
    have below := rank_lt_wordsUpTo rest (Nat.le_of_succ_le_succ fits)
    have scaled : size * (rank rest + 1) ≤ size * wordsUpTo size length :=
      Nat.mul_le_mul_left size below
    simp only [rank, wordsUpTo]
    rw [Nat.mul_add, Nat.mul_one] at scaled
    omega

/-- How many words of at most a given length are still to come, counting one
more at the very start. -/
def remaining (vocabulary : Vocabulary) (length : Nat) : Nat :=
  match vocabulary.last with
  | none => wordsUpTo vocabulary.alphabet.length length + 1
  | some digits => wordsUpTo vocabulary.alphabet.length length - rank digits

theorem length_spell (alphabet : List Symbol) (digits : List (Fin alphabet.length)) :
    (spell alphabet digits).length = digits.length := by
  simp [spell]

/-- A word of at most the given length leaves fewer such words to come. -/
theorem remaining_lt_of_next? {vocabulary rest : Vocabulary} {word : Form} {length : Nat}
    (next : vocabulary.next? = some (word, rest)) (fits : word.length ≤ length) :
    rest.remaining length < vocabulary.remaining length := by
  obtain ⟨alphabet, last⟩ := vocabulary
  cases last with
  | none =>
    cases next
    exact Nat.lt_succ_of_le (Nat.sub_le ..)
  | some digits =>
    unfold next? at next
    dsimp only at next
    split at next
    next positive =>
      cases next
      rw [length_spell] at fits
      have within := rank_lt_wordsUpTo _ fits
      rw [rank_advance] at within
      simp only [remaining, rank_advance]
      omega
    next => cases next

end Vocabulary

end AmbiguitySearch
