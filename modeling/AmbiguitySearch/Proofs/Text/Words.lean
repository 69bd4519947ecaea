import AmbiguitySearch.Text.Words
import Mathlib.Data.List.TakeWhile

/-!
# The words of a text

The words of a text follow from its blanks: a text that is blank has none, and any other
has the run of visible characters behind its first blanks, and the words after that
(`words_of_blank`, `words_of_visible`).

> `words_concat_blank`: a blank at the end makes no difference.

> `isBlank_of_mem_words`: there is no blank in a word.

Said without going through the text, the words are what stands between the blanks:

> `words_eq_splitOnP`: the words are the pieces between blanks that hold anything.
-/

namespace AmbiguitySearch.Text

theorem words_of_blank {text : List Char} (h : skipBlanks text = []) : words text = [] := by
  rw [words]
  split
  next => rfl
  next heq => cases h.symm.trans heq

theorem words_of_visible {text rest : List Char} {c : Char} (h : skipBlanks text = c :: rest) :
    words text = (splitWord (c :: rest)).1 :: words (splitWord (c :: rest)).2 := by
  rw [words]
  split
  next heq => cases h.symm.trans heq
  next heq =>
    cases h.symm.trans heq
    rfl

/-- The first word of a text starts where the blanks end. -/
theorem exists_words_eq {text rest : List Char} {c : Char} (h : skipBlanks text = c :: rest) :
    ∃ word later, words text = (c :: word) :: later := by
  have hfirst : (splitWord (c :: rest)).1 = c :: rest.takeWhile (!isBlank ·) := by
    simp [splitWord, isBlank_of_skipBlanks h]
  rw [words_of_visible h, hfirst]
  exact ⟨_, _, rfl⟩

/-- Going on behind the first word, there is less to go through. -/
theorem length_splitWord_lt_of_visible {text rest : List Char} {c : Char}
    (h : skipBlanks text = c :: rest) : (splitWord (c :: rest)).2.length < text.length :=
  Nat.lt_of_lt_of_le (length_splitWord_lt (isBlank_of_skipBlanks h))
    (h ▸ length_skipBlanks_le text)

/-! ## Blanks -/

theorem splitWord_concat_blank {b : Char} (hb : isBlank b = true) (text : List Char) :
    splitWord (text ++ [b]) = ((splitWord text).1, (splitWord text).2 ++ [b]) := by
  induction text with
  | nil => simp [splitWord, hb]
  | cons c text ih =>
    simp only [splitWord, Prod.mk.injEq] at ih
    cases hc : isBlank c with
    | true => simp [splitWord, hc]
    | false => simp [splitWord, hc, ih]

/-- A blank at the end of a text is in none of its words. -/
theorem words_concat_blank {b : Char} (hb : isBlank b = true) (text : List Char) :
    words (text ++ [b]) = words text := by
  cases hskip : skipBlanks text with
  | nil =>
    have hskip' : skipBlanks (text ++ [b]) = [] := by
      rw [skipBlanks, List.dropWhile_append, ← skipBlanks, hskip]
      simp [hb]
    rw [words_of_blank hskip, words_of_blank hskip']
  | cons c rest =>
    have hskip' : skipBlanks (text ++ [b]) = c :: (rest ++ [b]) := by
      rw [skipBlanks, List.dropWhile_append, ← skipBlanks, hskip]
      rfl
    have hshorter := length_splitWord_lt_of_visible hskip
    rw [words_of_visible hskip, words_of_visible hskip', ← List.cons_append,
      splitWord_concat_blank hb, words_concat_blank hb]
termination_by text.length
decreasing_by exact hshorter

theorem words_append_blanks {b : Char} (hb : isBlank b = true) (text : List Char) (count : Nat) :
    words (text ++ List.replicate count b) = words text := by
  induction count with
  | zero => rw [List.replicate_zero, List.append_nil]
  | succ count ih => rw [List.replicate_succ', ← List.append_assoc, words_concat_blank hb, ih]

theorem isBlank_of_mem_splitWord {text : List Char} {c : Char} (h : c ∈ (splitWord text).1) :
    isBlank c = false := by
  simpa using List.mem_takeWhile_imp h

/-- What is left behind a word begins with a blank. -/
theorem isBlank_of_mem_head?_splitWord {text : List Char} :
    ∀ c ∈ (splitWord text).2.head?, isBlank c = true := by
  intro c hc
  have hfirst := List.head?_dropWhile_not (!isBlank ·) text
  rw [show (text.dropWhile (!isBlank ·)).head? = some c from hc] at hfirst
  simpa using hfirst

/-- There is no blank in a word. -/
theorem isBlank_of_mem_words {word : List Char} {c : Char} (hc : c ∈ word) :
    ∀ {text : List Char}, word ∈ words text → isBlank c = false := by
  intro text hmem
  cases hskip : skipBlanks text with
  | nil =>
    rw [words_of_blank hskip] at hmem
    cases hmem
  | cons first rest =>
    have hshorter := length_splitWord_lt_of_visible hskip
    rw [words_of_visible hskip] at hmem
    rcases List.mem_cons.mp hmem with rfl | hmem
    · exact isBlank_of_mem_splitWord hc
    · exact isBlank_of_mem_words hc hmem
termination_by text => text.length
decreasing_by exact hshorter

/-! ## Words and what follows them -/

theorem words_nil : words [] = [] := words_of_blank rfl

theorem words_cons_blank {b : Char} (hb : isBlank b = true) (text : List Char) :
    words (b :: text) = words text := by
  have hskip : skipBlanks (b :: text) = skipBlanks text := List.dropWhile_cons_of_pos hb
  cases h : skipBlanks text with
  | nil => rw [words_of_blank h, words_of_blank (hskip.trans h)]
  | cons c rest => rw [words_of_visible h, words_of_visible (hskip.trans h)]

theorem words_append_blank {blanks : List Char} (h : ∀ c ∈ blanks, isBlank c = true)
    (text : List Char) : words (blanks ++ text) = words text := by
  induction blanks with
  | nil => rfl
  | cons b blanks ih =>
    obtain ⟨hb, hblanks⟩ := List.forall_mem_cons.mp h
    rw [List.cons_append, words_cons_blank hb, ih hblanks]

/-- A word at the beginning, with a blank or nothing after it, is what is split off. -/
theorem splitWord_eq {word rest : List Char} (hword : ∀ c ∈ word, isBlank c = false)
    (hrest : ∀ c ∈ rest.head?, isBlank c = true) : splitWord (word ++ rest) = (word, rest) := by
  have hvisible : ∀ c ∈ word, (!isBlank c) = true := by
    intro c hc
    rw [hword c hc]
    rfl
  rw [splitWord, List.takeWhile_append_of_pos hvisible, List.dropWhile_append_of_pos hvisible]
  cases rest with
  | nil => simp
  | cons b rest => simp [hrest b rfl]

/-- It is the first word. -/
theorem words_append {word rest : List Char} (hne : word ≠ [])
    (hword : ∀ c ∈ word, isBlank c = false) (hrest : ∀ c ∈ rest.head?, isBlank c = true) :
    words (word ++ rest) = word :: words rest := by
  obtain ⟨c, tail, rfl⟩ := List.exists_cons_of_ne_nil hne
  have hskip : skipBlanks (c :: tail ++ rest) = c :: (tail ++ rest) := by
    refine List.dropWhile_cons_of_neg ?_
    simp [hword c (List.mem_cons_self ..)]
  rw [words_of_visible hskip, ← List.cons_append, splitWord_eq hword hrest]

/-- **The words are the pieces between blanks that hold anything.** -/
theorem words_eq_splitOnP (text : List Char) :
    words text = (text.splitOnP isBlank).filter (· ≠ []) := by
  have hvisible : ∀ c ∈ (splitWord text).1, isBlank c = false := fun c => isBlank_of_mem_splitWord
  have hparts := splitWord_append text
  cases hrest : (splitWord text).2 with
  | nil =>
    -- no blank at all
    rw [hrest, List.append_nil] at hparts
    rw [hparts] at hvisible
    rw [List.splitOnP_eq_singleton hvisible]
    by_cases hnil : text = []
    · rw [hnil, words_nil]
      rfl
    · have hwords : words (text ++ []) = text :: words [] := words_append hnil hvisible nofun
      rw [List.append_nil, words_nil] at hwords
      simp [hwords, hnil]
  | cons b rest =>
    have hb : isBlank b = true := isBlank_of_mem_head?_splitWord b (by rw [hrest]; rfl)
    have hshorter : rest.length < text.length := by
      rw [← hparts, hrest, List.length_append, List.length_cons]
      omega
    have ih := words_eq_splitOnP rest
    rw [← hparts, hrest, List.splitOnP_append_cons_of_forall_mem hvisible b hb rest]
    by_cases hnil : (splitWord text).1 = []
    · rw [hnil, List.nil_append, words_cons_blank hb, ih]
      rfl
    · rw [words_append hnil hvisible (by simpa using hb), words_cons_blank hb, ih]
      simp [hnil]
termination_by text.length
decreasing_by exact hshorter

end AmbiguitySearch.Text
