import AmbiguitySearch.Vocabulary
import Mathlib.Algebra.BigOperators.Ring.Finset
import Mathlib.Algebra.Order.BigOperators.Group.Finset
import Mathlib.Data.List.Shortlex
import Mathlib.Data.Nat.Digits.Defs

/-!
# The vocabulary is complete and in shortlex order

The odometer counts: after so many advances the numeral it shows has that index
(`rank_digitsAt`), and every list of positions is shown at its index
(`digitsAt_rank`). The index itself is what one expects of shortlex order, all
shorter words first and then the words of the same length by numerical value
(`rank_eq_sum_add_value`), so that indices compare as words do
(`rank_lt_rank_iff_shortlex`).

Call by call, the enumeration is what the index says it is:

> `next?_shortlex`: every string of positions comes once, at its index, and only the
> empty alphabet comes to an end.

For a survey it is enough to know the words that it meets before it reaches a
length it does not want (`upTo`):

> `mem_upTo`: they are the words over the alphabet of at most that length.

> `length_upTo`: there are as many as the powers of the alphabet's size add up to.

> `pairwise_upTo_ofGrammar`: each comes before the next.
-/

namespace AmbiguitySearch

/-- Terminals in the order of their table. -/
def Symbol.Precedes : Symbol → Symbol → Prop
  | .terminal id, .terminal id' => id < id'
  | _, _ => False

instance : Std.Asymm Symbol.Precedes where
  asymm
    | .terminal _, .terminal _, h, h' => Nat.lt_asymm h h'

namespace Vocabulary

/-! ## The index as a number -/

section Positions

variable {size : Nat}

/-- The value of the positions as a numeral with digits from zero. -/
def value (digits : List (Fin size)) : Nat :=
  Nat.ofDigits size (digits.map Fin.val)

theorem value_cons (digit : Fin size) (digits : List (Fin size)) :
    value (digit :: digits) = digit + size * value digits :=
  Nat.ofDigits_cons

theorem value_concat (digits : List (Fin size)) (digit : Fin size) :
    value (digits ++ [digit]) = value digits + size ^ digits.length * digit := by
  rw [value, List.map_append, Nat.ofDigits_append, List.length_map]
  rfl

theorem value_lt_pow : ∀ digits : List (Fin size), value digits < size ^ digits.length
  | [] => Nat.one_pos
  | digit :: digits => by
    have hrest : size * (value digits + 1) ≤ size * size ^ digits.length :=
      Nat.mul_le_mul_left size (value_lt_pow digits)
    have hdigit := digit.isLt
    rw [value_cons, List.length_cons, Nat.pow_succ']
    rw [Nat.mul_add, Nat.mul_one] at hrest
    omega

/-- One power of the size for each length. -/
theorem wordsUpTo_eq_sum (size : Nat) :
    ∀ length, wordsUpTo size length = ∑ i ∈ Finset.range (length + 1), size ^ i
  | 0 => by simp [wordsUpTo]
  | length + 1 => by
    rw [wordsUpTo, wordsUpTo_eq_sum size length, Finset.sum_range_succ' _ (length + 1),
      Finset.mul_sum, pow_zero, Nat.add_comm]
    simp only [Nat.pow_succ']

/-- All shorter words come first, then the words of the same length by value. -/
theorem rank_eq_sum_add_value : ∀ digits : List (Fin size),
    rank digits = ∑ i ∈ Finset.range digits.length, size ^ i + value digits
  | [] => rfl
  | digit :: digits => by
    rw [rank, rank_eq_sum_add_value digits, value_cons, List.length_cons,
      Finset.sum_range_succ', Nat.mul_add, Finset.mul_sum, pow_zero]
    simp only [Nat.pow_succ']
    omega

theorem value_lt_of_lex {digits digits' : List (Fin size)}
    (h : List.Lex (· < ·) digits digits') (hlen : digits.length = digits'.length) :
    value digits.reverse < value digits'.reverse := by
  induction h with
  | nil => cases hlen
  | cons _ ih =>
    have hrest := Nat.succ.inj hlen
    rw [List.reverse_cons, List.reverse_cons, value_concat, value_concat, List.length_reverse,
      List.length_reverse, hrest]
    exact Nat.add_lt_add_right (ih hrest) _
  | @rel digit digits digit' digits' hlt =>
    -- one more in front outweighs whatever follows
    have hrest : digits.length = digits'.length := Nat.succ.inj hlen
    have hval := value_lt_pow digits.reverse
    have hmul := Nat.mul_le_mul_left (size ^ digits.length) (Nat.succ_le_of_lt hlt)
    rw [List.reverse_cons, List.reverse_cons, value_concat, value_concat, List.length_reverse,
      List.length_reverse, ← hrest]
    rw [List.length_reverse] at hval
    rw [Nat.succ_eq_add_one, Nat.mul_add, Nat.mul_one] at hmul
    omega

/-- The first word of a length comes after all shorter words. -/
theorem wordsUpTo_le_rank {digits : List (Fin size)} {length : Nat}
    (h : length < digits.length) : wordsUpTo size length ≤ rank digits := by
  rw [wordsUpTo_eq_sum, rank_eq_sum_add_value]
  exact Nat.le_add_right_of_le
    (Finset.sum_le_sum_of_subset (Finset.range_subset_range.mpr (Nat.succ_le_of_lt h)))

theorem length_le_iff_rank_lt {digits : List (Fin size)} {length : Nat} :
    digits.length ≤ length ↔ rank digits < wordsUpTo size length := by
  constructor
  · intro h
    exact rank_lt_wordsUpTo digits h
  · intro h
    by_contra hlong
    have hle := wordsUpTo_le_rank (Nat.lt_of_not_le hlong)
    omega

theorem rank_lt_of_shortlex {digits digits' : List (Fin size)}
    (h : List.Shortlex (· < ·) digits.reverse digits'.reverse) : rank digits < rank digits' := by
  rcases List.shortlex_def.mp h with hlen | ⟨hlen, hlex⟩
  · rw [List.length_reverse, List.length_reverse] at hlen
    exact Nat.lt_of_lt_of_le (rank_lt_wordsUpTo digits (Nat.le_refl _)) (wordsUpTo_le_rank hlen)
  · have hval := value_lt_of_lex hlex hlen
    rw [List.reverse_reverse, List.reverse_reverse] at hval
    rw [List.length_reverse, List.length_reverse] at hlen
    rw [rank_eq_sum_add_value, rank_eq_sum_add_value, hlen]
    exact Nat.add_lt_add_left hval _

/-- Indices compare as words do. -/
theorem rank_lt_rank_iff_shortlex {digits digits' : List (Fin size)} :
    rank digits < rank digits' ↔ List.Shortlex (· < ·) digits.reverse digits'.reverse := by
  constructor
  · intro h
    rcases trichotomous_of (List.Shortlex (· < ·)) digits.reverse digits'.reverse with
      hlt | heq | hgt
    · exact hlt
    · rw [List.reverse_injective heq] at h
      exact absurd h (Nat.lt_irrefl _)
    · exact absurd (rank_lt_of_shortlex hgt) (Nat.lt_asymm h)
  · intro h
    exact rank_lt_of_shortlex h

theorem rank_injective : Function.Injective (rank : List (Fin size) → Nat) := by
  intro digits digits' heq
  rcases trichotomous_of (List.Shortlex (· < ·)) digits.reverse digits'.reverse with
    hlt | hrev | hgt
  · exact absurd heq (Nat.ne_of_lt (rank_lt_of_shortlex hlt))
  · exact List.reverse_injective hrev
  · exact absurd heq (Nat.ne_of_gt (rank_lt_of_shortlex hgt))

/-! ## The word at an index -/

/-- The positions of the word at an index. -/
def digitsAt (positive : 0 < size) (index : Nat) : List (Fin size) :=
  (advance positive)^[index] []

theorem digitsAt_succ (positive : 0 < size) (index : Nat) :
    digitsAt positive (index + 1) = advance positive (digitsAt positive index) :=
  Function.iterate_succ_apply' _ _ _

/-- The odometer counts. -/
theorem rank_digitsAt (positive : 0 < size) : ∀ index, rank (digitsAt positive index) = index
  | 0 => rfl
  | index + 1 => by rw [digitsAt_succ, rank_advance, rank_digitsAt positive index]

/-- Every list of positions is shown, at its index. -/
theorem digitsAt_rank (positive : 0 < size) (digits : List (Fin size)) :
    digitsAt positive (rank digits) = digits :=
  rank_injective (rank_digitsAt positive (rank digits))

theorem length_digitsAt_le_iff (positive : 0 < size) {index length : Nat} :
    (digitsAt positive index).length ≤ length ↔ index < wordsUpTo size length := by
  rw [length_le_iff_rank_lt, rank_digitsAt]

end Positions

/-- The word at an index. -/
def wordAt {alphabet : List Symbol} (positive : 0 < alphabet.length) (index : Nat) : Form :=
  spell alphabet (digitsAt positive index)

/-- Every word over the alphabet is spelled by some positions. -/
theorem exists_spell_eq {alphabet : List Symbol} : ∀ {word : Form},
    (∀ symbol ∈ word, symbol ∈ alphabet) → ∃ digits, spell alphabet digits = word
  | [], _ => ⟨[], rfl⟩
  | symbol :: word, h => by
    obtain ⟨hsymbol, hword⟩ := List.forall_mem_cons.mp h
    obtain ⟨digit, hdigit⟩ := List.mem_iff_get.mp hsymbol
    obtain ⟨digits, hdigits⟩ := exists_spell_eq hword
    refine ⟨digits ++ [digit], ?_⟩
    rw [spell, List.reverse_append]
    show alphabet.get digit :: spell alphabet digits = symbol :: word
    rw [hdigit, hdigits]

theorem mem_of_mem_spell {alphabet : List Symbol} {digits : List (Fin alphabet.length)}
    {symbol : Symbol} (h : symbol ∈ spell alphabet digits) : symbol ∈ alphabet := by
  obtain ⟨digit, -, rfl⟩ := List.mem_map.mp h
  exact List.get_mem alphabet digit

/-! ## The words of at most a given length -/

/-- The words still to come, as long as they are no longer than `length`. -/
def upTo (vocabulary : Vocabulary) (length : Nat) : List Form :=
  match _next : vocabulary.next? with
  | none => []
  | some (word, rest) => if _fits : word.length ≤ length then word :: rest.upTo length else []
termination_by vocabulary.remaining length
decreasing_by exact remaining_lt_of_next? _next _fits

theorem upTo_of_none {vocabulary : Vocabulary} (length : Nat) (h : vocabulary.next? = none) :
    vocabulary.upTo length = [] := by
  rw [upTo]
  split
  next => rfl
  next heq => cases h.symm.trans heq

theorem upTo_of_some {vocabulary rest : Vocabulary} {word : Form} (length : Nat)
    (h : vocabulary.next? = some (word, rest)) :
    vocabulary.upTo length = if word.length ≤ length then word :: rest.upTo length else [] := by
  rw [upTo]
  split
  next heq => cases h.symm.trans heq
  next heq =>
    cases h.symm.trans heq
    rfl

/-- After the word at `index` comes the word at the following index. -/
theorem next?_digitsAt {alphabet : List Symbol} (positive : 0 < alphabet.length) (index : Nat) :
    next? ⟨alphabet, some (digitsAt positive index)⟩ =
      some (wordAt positive (index + 1), ⟨alphabet, some (digitsAt positive (index + 1))⟩) := by
  rw [wordAt, digitsAt_succ]
  exact dif_pos positive

/-- After the word at `index` come the words at the following indices. -/
theorem upTo_digitsAt {alphabet : List Symbol} (positive : 0 < alphabet.length) (length : Nat) :
    ∀ (count index : Nat), wordsUpTo alphabet.length length = index + 1 + count →
      upTo ⟨alphabet, some (digitsAt positive index)⟩ length =
        (List.range' (index + 1) count).map (wordAt positive)
  | count, index, hcount => by
    have hfits : (wordAt positive (index + 1)).length ≤ length ↔ 0 < count := by
      rw [wordAt, length_spell, length_digitsAt_le_iff, hcount]
      omega
    rw [upTo_of_some length (next?_digitsAt positive index)]
    -- the next word fits as long as the count is not used up
    cases count with
    | zero =>
      rw [if_neg (fun hle => Nat.lt_irrefl 0 (hfits.mp hle))]
      rfl
    | succ count =>
      rw [if_pos (hfits.mpr (Nat.succ_pos count)), List.range'_succ, List.map_cons,
        upTo_digitsAt positive length count (index + 1) (by omega)]

theorem wordsUpTo_pos (size : Nat) : ∀ length, 0 < wordsUpTo size length
  | 0 => Nat.one_pos
  | _ + 1 => Nat.add_pos_left Nat.one_pos _

theorem upTo_ofAlphabet {alphabet : List Symbol} (positive : 0 < alphabet.length)
    (length : Nat) : (ofAlphabet alphabet).upTo length =
      (List.range (wordsUpTo alphabet.length length)).map (wordAt positive) := by
  obtain ⟨count, hcount⟩ := Nat.exists_eq_add_of_le (wordsUpTo_pos alphabet.length length)
  have hnext : (ofAlphabet alphabet).next? =
      some (wordAt positive 0, ⟨alphabet, some (digitsAt positive 0)⟩) := rfl
  have hfits : (wordAt positive 0).length ≤ length := Nat.zero_le length
  rw [upTo_of_some length hnext, if_pos hfits,
    upTo_digitsAt positive length count 0 (by omega), hcount, List.range_eq_range', Nat.add_comm 1,
    List.range'_succ, List.map_cons]

/-- Without letters there is only the empty word. -/
theorem upTo_ofAlphabet_nil (length : Nat) : (ofAlphabet []).upTo length = [[]] := by
  have hnext : (ofAlphabet []).next? = some ([], ⟨[], some []⟩) := rfl
  have hfits : ([] : Form).length ≤ length := Nat.zero_le length
  rw [upTo_of_some length hnext, if_pos hfits, upTo_of_none length rfl]

/-- **The words are those over the alphabet**, up to the length. -/
theorem mem_upTo {alphabet : List Symbol} {length : Nat} {word : Form} :
    word ∈ (ofAlphabet alphabet).upTo length ↔
      (∀ symbol ∈ word, symbol ∈ alphabet) ∧ word.length ≤ length := by
  rcases Nat.eq_zero_or_pos alphabet.length with hnil | positive
  · rw [List.length_eq_zero_iff.mp hnil, upTo_ofAlphabet_nil, List.mem_singleton]
    constructor
    · rintro rfl
      exact ⟨fun _ hmem => hmem, Nat.zero_le length⟩
    · rintro ⟨hletters, -⟩
      exact List.eq_nil_iff_forall_not_mem.mpr fun symbol hmem => nomatch hletters symbol hmem
  · rw [upTo_ofAlphabet positive, List.mem_map]
    constructor
    · rintro ⟨index, hindex, rfl⟩
      refine ⟨fun symbol hmem => mem_of_mem_spell hmem, ?_⟩
      rw [wordAt, length_spell, length_digitsAt_le_iff]
      exact List.mem_range.mp hindex
    · rintro ⟨hletters, hlen⟩
      obtain ⟨digits, rfl⟩ := exists_spell_eq hletters
      rw [length_spell, length_le_iff_rank_lt] at hlen
      refine ⟨rank digits, List.mem_range.mpr hlen, ?_⟩
      rw [wordAt, digitsAt_rank]

/-- **As many words as the powers of the alphabet's size add up to.** -/
theorem length_upTo (alphabet : List Symbol) (length : Nat) :
    ((ofAlphabet alphabet).upTo length).length =
      ∑ i ∈ Finset.range (length + 1), alphabet.length ^ i := by
  rw [← wordsUpTo_eq_sum]
  rcases Nat.eq_zero_or_pos alphabet.length with hnil | positive
  · rw [List.length_eq_zero_iff.mp hnil, upTo_ofAlphabet_nil]
    cases length with
    | zero => rfl
    | succ length => simp [wordsUpTo]
  · rw [upTo_ofAlphabet positive, List.length_map, List.length_range]

/-! ## One call after the other -/

/-- From the word at `index`, so many calls lead to the word so much further on. -/
theorem skip_digitsAt {alphabet : List Symbol} (positive : 0 < alphabet.length) :
    ∀ calls index : Nat, skip ⟨alphabet, some (digitsAt positive index)⟩ calls =
      ⟨alphabet, some (digitsAt positive (index + calls))⟩
  | 0, _ => rfl
  | calls + 1, index => by
    rw [skip, next?_digitsAt positive index]
    dsimp only
    rw [skip_digitsAt positive calls (index + 1), Nat.add_assoc, Nat.add_comm 1]

/-- What the call after so many others produces: the word at that index. -/
theorem next?_skip {alphabet : List Symbol} (positive : 0 < alphabet.length) :
    ∀ index : Nat, ((ofAlphabet alphabet).skip index).next? =
      some (wordAt positive index, ⟨alphabet, some (digitsAt positive index)⟩)
  | 0 => rfl
  | index + 1 => by
    have hfirst : (ofAlphabet alphabet).skip (index + 1) =
        skip ⟨alphabet, some (digitsAt positive 0)⟩ index := rfl
    rw [hfirst, skip_digitsAt, Nat.zero_add, next?_digitsAt]

/-- The enumeration without letters stays at its end. -/
theorem skip_nil : ∀ calls : Nat, (ofAlphabet []).skip (calls + 1) = ⟨[], some []⟩
  | 0 => rfl
  | calls + 1 => by
    have hfirst : (ofAlphabet []).skip (calls + 1 + 1) = skip ⟨[], some []⟩ (calls + 1) := rfl
    rw [hfirst, skip]
    rfl

/-- **Every string of positions, once, in shortlex order.** Every call on an enumeration
with letters produces a word. The positions behind the words ascend, and a string of
positions is behind the word whose index is the number of shorter strings plus its value
in the base of the alphabet's size. Without letters the first call produces the empty
word, and no later call produces any. -/
theorem next?_shortlex (alphabet : List Symbol) :
    (0 < alphabet.length → ∃ positions : Nat → List (Fin alphabet.length),
      (∀ index, ((ofAlphabet alphabet).skip index).next? =
        some ((positions index).map alphabet.get,
          ⟨alphabet, some (positions index).reverse⟩)) ∧
      (∀ index index', index < index' →
        List.Shortlex (· < ·) (positions index) (positions index')) ∧
      ∀ index (string : List (Fin alphabet.length)), positions index = string ↔
        index = ∑ i ∈ Finset.range string.length, alphabet.length ^ i +
          Nat.ofDigits alphabet.length (string.reverse.map Fin.val)) ∧
    (alphabet = [] → (∃ rest, (ofAlphabet alphabet).next? = some ([], rest)) ∧
      ∀ calls, 0 < calls → ((ofAlphabet alphabet).skip calls).next? = none) := by
  constructor
  · intro positive
    refine ⟨fun index => (digitsAt positive index).reverse, ?_, ?_, ?_⟩
    · intro index
      rw [next?_skip positive, wordAt, spell, List.reverse_reverse]
    · intro index index' hlt
      rw [← rank_lt_rank_iff_shortlex, rank_digitsAt, rank_digitsAt]
      exact hlt
    · intro index string
      have hrank : rank string.reverse = ∑ i ∈ Finset.range string.length, alphabet.length ^ i +
          Nat.ofDigits alphabet.length (string.reverse.map Fin.val) := by
        rw [rank_eq_sum_add_value, List.length_reverse, value]
      rw [← hrank]
      constructor
      · rintro rfl
        rw [List.reverse_reverse, rank_digitsAt]
      · rintro rfl
        show (digitsAt positive (rank string.reverse)).reverse = string
        rw [digitsAt_rank, List.reverse_reverse]
  · rintro rfl
    refine ⟨⟨_, rfl⟩, ?_⟩
    intro calls hcalls
    obtain ⟨later, rfl⟩ := Nat.exists_eq_succ_of_ne_zero (Nat.ne_of_gt hcalls)
    rw [skip_nil]
    rfl

/-- The word `c b a` over three letters comes after the thirteen shorter words and
the twenty-one of its length that are smaller. -/
theorem next?_shortlex_ternary :
    ∃ rest, ((ofAlphabet [.terminal 0, .terminal 1, .terminal 2]).skip 34).next? =
      some ([.terminal 2, .terminal 1, .terminal 0], rest) := by
  obtain ⟨positions, hnext, -, hindex⟩ :=
    (next?_shortlex [.terminal 0, .terminal 1, .terminal 2]).1 (Nat.succ_pos 2)
  have hstring : positions 34 = [2, 1, 0] := (hindex 34 [2, 1, 0]).mpr (by decide)
  rw [hnext 34, hstring]
  exact ⟨_, rfl⟩

/-! ## Words over the terminals of a grammar -/

theorem lex_map {α β : Type} {before : α → α → Prop} {before' : β → β → Prop} {f : α → β}
    (hf : ∀ a a', before a a' → before' (f a) (f a')) {items items' : List α}
    (h : List.Lex before items items') : List.Lex before' (items.map f) (items'.map f) := by
  induction h with
  | nil => exact .nil
  | cons _ ih => exact .cons ih
  | rel hbefore => exact .rel (hf _ _ hbefore)

theorem get_alphabet (g : Grammar) : ∀ i : Fin g.alphabet.length, g.alphabet.get i = .terminal i
  | ⟨i, h⟩ => by
    show g.alphabet[i] = .terminal i
    simp [Grammar.alphabet]

/-- Positions in the alphabet of a grammar compare as its terminals do. -/
theorem shortlex_spell {g : Grammar} {digits digits' : List (Fin g.alphabet.length)}
    (h : rank digits < rank digits') :
    List.Shortlex Symbol.Precedes (spell g.alphabet digits) (spell g.alphabet digits') := by
  have hletter : ∀ i i' : Fin g.alphabet.length, i < i' →
      Symbol.Precedes (g.alphabet.get i) (g.alphabet.get i') := by
    intro i i' hlt
    rw [get_alphabet, get_alphabet]
    exact hlt
  rw [rank_lt_rank_iff_shortlex, List.shortlex_def] at h
  rw [List.shortlex_def, spell, spell, List.length_map, List.length_map]
  exact h.imp_right (And.imp_right (lex_map hletter))

/-- **Each word comes before the next** in shortlex order. -/
theorem pairwise_upTo_ofGrammar (g : Grammar) (length : Nat) :
    ((ofGrammar g).upTo length).Pairwise (List.Shortlex Symbol.Precedes) := by
  unfold ofGrammar
  rcases Nat.eq_zero_or_pos g.alphabet.length with hnil | positive
  · rw [List.length_eq_zero_iff.mp hnil, upTo_ofAlphabet_nil]
    exact List.pairwise_singleton _ _
  · rw [upTo_ofAlphabet positive, List.pairwise_map]
    refine List.pairwise_lt_range.imp fun hlt => shortlex_spell ?_
    rw [rank_digitsAt, rank_digitsAt]
    exact hlt

end Vocabulary

end AmbiguitySearch
