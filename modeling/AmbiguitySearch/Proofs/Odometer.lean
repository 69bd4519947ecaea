import AmbiguitySearch.Proofs.Grammar.Definition
import AmbiguitySearch.Proofs.Search.Indexed
import AmbiguitySearch.Vocabulary

/-!
# The enumeration over positions

A `Vocabulary` knows of every position in it that the alphabet has it, and its last
letter comes first, so that advancing is a recursion. An `Indexed.Odometer` keeps
plain numbers with the first letter first. It has to find the digit that takes the
carry, to fill up the digits after it, and to look every digit up in the alphabet,
whose last position it asks for. As in `Indexed.Search` every access is checked.

> `next?_ofVocabulary`: none is out of range, and the words are those of `Vocabulary`.
-/

namespace AmbiguitySearch.Indexed

/-- An enumeration under way. -/
structure Odometer where
  alphabet : List Symbol
  /-- The positions of the letters of the last word produced, the first letter first;
  none before the first word. -/
  current : Option (List Nat)

namespace Odometer

/-- The last position of an alphabet, which has to have one. -/
def lastPosition : (size : Nat) → Except OutOfRange Nat
  | 0 => .error ⟨0, 0⟩
  | size + 1 => .ok size

/-- Where the last digit stands that is not the largest. -/
def carryAt (largest : Nat) : List Nat → Option Nat
  | [] => none
  | digit :: rest =>
    match carryAt largest rest with
    | some position => some (position + 1)
    | none => if digit = largest then none else some 0

/-- Starts the digits from a position on over. The position may be that of the end. -/
def startOver (digits : List Nat) (position : Nat) : Except OutOfRange (List Nat) :=
  if position ≤ digits.length then
    .ok (digits.take position ++ List.replicate (digits.length - position) 0)
  else .error ⟨digits.length, position⟩

/-- The next digits: those after the carry start over, and the carry goes to the digit
before them, or to a new one. -/
def advance (largest : Nat) (digits : List Nat) : Except OutOfRange (List Nat) :=
  match carryAt largest digits with
  | some position => do
    let cleared ← startOver digits (position + 1)
    let digit ← entry cleared position
    return cleared.set position (digit + 1)
  | none => do return 0 :: (← startOver digits 0)

/-- The digits of the next word, if there is one. -/
def nextDigits? (odometer : Odometer) : Except OutOfRange (Option (List Nat)) :=
  match odometer.current with
  | none => return some []
  | some digits =>
    if odometer.alphabet.isEmpty then return none
    else do return some (← advance (← lastPosition odometer.alphabet.length) digits)

/-- The next word, and the enumeration after it. -/
def next? (odometer : Odometer) : Except OutOfRange (Option (Form × Odometer)) := do
  match ← odometer.nextDigits? with
  | none => return none
  | some digits =>
    let word ← digits.mapM (entry odometer.alphabet)
    return some (word, { odometer with current := some digits })

/-! ## Digits -/

section Digits

variable {largest digit : Nat} {digits : List Nat}

theorem carryAt_concat : ∀ digits : List Nat, carryAt largest (digits ++ [digit]) =
    if digit = largest then carryAt largest digits else some digits.length
  | [] => by
    by_cases heq : digit = largest
    · rw [if_pos heq, List.nil_append, carryAt, carryAt]
      exact if_pos heq
    · rw [if_neg heq, List.nil_append, carryAt, carryAt]
      exact if_neg heq
  | first :: digits => by
    rw [List.cons_append, carryAt, carryAt_concat digits]
    by_cases heq : digit = largest
    · rw [if_pos heq, if_pos heq, carryAt]
    · rw [if_neg heq, if_neg heq]
      rfl

theorem startOver_length (digits : List Nat) : startOver digits digits.length = .ok digits := by
  rw [startOver, if_pos (Nat.le_refl _), Nat.sub_self, List.take_length, List.replicate_zero,
    List.append_nil]

/-- A digit after the position starts over with the others. -/
theorem startOver_concat {position : Nat} {cleared : List Nat}
    (h : startOver digits position = .ok cleared) :
    startOver (digits ++ [digit]) position = .ok (cleared ++ [0]) := by
  unfold startOver at h
  by_cases hinside : position ≤ digits.length
  · rw [if_pos hinside] at h
    cases h
    have hinside' : position ≤ (digits ++ [digit]).length := by
      rw [List.length_append]
      exact Nat.le_add_right_of_le hinside
    rw [startOver, if_pos hinside', List.take_append_of_le_length hinside, List.length_append,
      List.length_singleton, Nat.succ_sub hinside, List.replicate_succ', List.append_assoc]
  · rw [if_neg hinside] at h
    cases h

/-- A last digit that can go on takes the carry. -/
theorem advance_concat_of_ne (digits : List Nat) (h : digit ≠ largest) :
    advance largest (digits ++ [digit]) = .ok (digits ++ [digit + 1]) := by
  have hcleared : startOver (digits ++ [digit]) (digits.length + 1) = .ok (digits ++ [digit]) := by
    have hlen : (digits ++ [digit]).length = digits.length + 1 := List.length_append ..
    rw [← hlen]
    exact startOver_length _
  have hentry : entry (digits ++ [digit]) digits.length = .ok digit := by
    rw [entry_eq_ok_iff, List.getElem?_append_right (Nat.le_refl _), Nat.sub_self]
    rfl
  rw [advance, carryAt_concat, if_neg h]
  dsimp only
  rw [hcleared]
  dsimp only [bind, Except.bind]
  rw [hentry]
  show Except.ok ((digits ++ [digit]).set digits.length (digit + 1)) = _
  rw [List.set_append_right _ _ (Nat.le_refl _), Nat.sub_self]
  rfl

/-- A last digit that cannot go on starts over, and the carry goes to those before it. -/
theorem advance_concat_of_eq {advanced : List Nat} (h : advance largest digits = .ok advanced) :
    advance largest (digits ++ [largest]) = .ok (advanced ++ [0]) := by
  unfold advance at h
  rw [advance, carryAt_concat, if_pos rfl]
  cases hcarry : carryAt largest digits with
  | none =>
    rw [hcarry] at h
    obtain ⟨cleared, hcleared, h⟩ := bind_eq_ok h
    cases h
    dsimp only
    rw [startOver_concat hcleared]
    rfl
  | some position =>
    rw [hcarry] at h
    obtain ⟨cleared, hcleared, h⟩ := bind_eq_ok h
    obtain ⟨digit, hdigit, h⟩ := bind_eq_ok h
    cases h
    obtain ⟨hlt, -⟩ := List.getElem?_eq_some_iff.mp (entry_eq_ok_iff.mp hdigit)
    have hentry : entry (cleared ++ [0]) position = .ok digit := by
      rw [entry_eq_ok_iff, List.getElem?_append_left hlt]
      exact entry_eq_ok_iff.mp hdigit
    dsimp only
    rw [startOver_concat hcleared]
    dsimp only [bind, Except.bind]
    rw [hentry]
    exact congrArg Except.ok (List.set_append_left _ _ hlt)

end Digits

/-! ## The words -/

/-- The positions of a word, the first letter first. -/
def positions {size : Nat} (digits : List (Fin size)) : List Nat := (digits.map Fin.val).reverse

theorem positions_cons {size : Nat} (digit : Fin size) (digits : List (Fin size)) :
    positions (digit :: digits) = positions digits ++ [digit.val] := by
  rw [positions, List.map_cons, List.reverse_cons, positions]

/-- The digits move on as those of `Vocabulary` do. -/
theorem advance_positions {size : Nat} (positive : 0 < size) : ∀ digits : List (Fin size),
    advance (size - 1) (positions digits) = .ok (positions (Vocabulary.advance positive digits))
  | [] => rfl
  | digit :: digits => by
    -- the first digit there is the last one here
    rw [positions_cons, Vocabulary.advance]
    by_cases hmore : digit.val + 1 < size
    · have hne : digit.val ≠ size - 1 := by omega
      rw [dif_pos hmore, positions_cons, advance_concat_of_ne _ hne]
    · have heq : digit.val = size - 1 := by omega
      rw [dif_neg hmore, positions_cons, heq]
      exact advance_concat_of_eq (advance_positions positive digits)

theorem mapM_entry_positions {alphabet : List Symbol} (digits : List (Fin alphabet.length)) :
    (positions digits).mapM (entry alphabet) = .ok (Vocabulary.spell alphabet digits) := by
  rw [mapM_eq_ok_iff, positions, ← List.map_reverse, Vocabulary.spell,
    List.forall₂_map_left_iff, List.forall₂_map_right_iff, List.forall₂_same]
  intro digit _
  exact entry_eq_ok digit.isLt

/-- The enumeration that is as far as a vocabulary. -/
def ofVocabulary (vocabulary : Vocabulary) : Odometer where
  alphabet := vocabulary.alphabet
  current := vocabulary.last.map positions

/-- A letter there is has a last one. -/
theorem nextDigits?_positions {alphabet : List Symbol} (positive : 0 < alphabet.length)
    (digits : List (Fin alphabet.length)) : nextDigits? ⟨alphabet, some (positions digits)⟩ =
      .ok (some (positions (Vocabulary.advance positive digits))) := by
  have hadvance := advance_positions positive digits
  cases alphabet with
  | nil => cases positive
  | cons letter letters =>
    show (do return some (← advance letters.length (positions digits))) = _
    rw [show letters.length = (letter :: letters).length - 1 from rfl, hadvance]
    rfl

/-- **No access of the enumeration is out of range.** An empty alphabet is not asked for
its last position, and every digit is the position of a letter. -/
theorem next?_ofVocabulary (vocabulary : Vocabulary) :
    (ofVocabulary vocabulary).next? =
      .ok (vocabulary.next?.map fun next => (next.1, ofVocabulary next.2)) := by
  obtain ⟨alphabet, last⟩ := vocabulary
  cases last with
  | none => rfl
  | some digits =>
    by_cases hpositive : 0 < alphabet.length
    · have hdigits : (ofVocabulary ⟨alphabet, some digits⟩).nextDigits? =
          .ok (some (positions (Vocabulary.advance hpositive digits))) :=
        nextDigits?_positions hpositive digits
      have hword : (positions (Vocabulary.advance hpositive digits)).mapM
          (entry (ofVocabulary ⟨alphabet, some digits⟩).alphabet) =
            .ok (Vocabulary.spell alphabet (Vocabulary.advance hpositive digits)) :=
        mapM_entry_positions _
      have hnext : Vocabulary.next? ⟨alphabet, some digits⟩ =
          some (Vocabulary.spell alphabet (Vocabulary.advance hpositive digits),
            ⟨alphabet, some (Vocabulary.advance hpositive digits)⟩) := dif_pos hpositive
      rw [hnext, next?, hdigits]
      dsimp only [bind, Except.bind]
      rw [hword]
      rfl
    · -- without letters the empty word was the last
      obtain rfl := List.eq_nil_of_length_eq_zero (Nat.eq_zero_of_not_pos hpositive)
      rfl

end Odometer

end AmbiguitySearch.Indexed
