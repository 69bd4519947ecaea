import AmbiguitySearch.Proofs.Source.RoundTrip
import AmbiguitySearch.Proofs.Text.Runs
import Mathlib.Logic.Relation

/-!
# Tokens and blanks

Scanning a text is nothing but splitting it at blanks. A sign is a sign where it stands
alone, and any other run of visible characters is a name as it stands, whatever signs it
holds. So the tokens of a text can be told from its runs, and a text that is made up of
tokens and blanks can be told from its tokens (`Layout`).

The scanner itself goes through a text in turns. It looks at one character, passes over it
if it is a blank, and otherwise reads the word that begins there up to the blank after it
(`Scanner.turn?`). That blank is left for the next turn, which begins with it, so that every
turn has something to read.

> `scan_runs`: the tokens are the runs of the text, the scanner comes to its end with them,
> and tokens laid out with blanks are read again.
-/

namespace AmbiguitySearch.Token

/-- The token is read as it is spelled. -/
def Legible : Token → Prop
  | .symbol name => Source.Legible name
  | _ => True

theorem toList_spelling_ofWord (word : List Char) :
    (ofWord (String.ofList word)).spelling.toList = word := by
  rw [spelling_ofWord, String.toList_ofList]

theorem map_spelling_scan (text : List Char) :
    (scan text).map (·.spelling.toList) = Text.words text := by
  rw [scan, List.map_map, ← List.map_id (Text.words text), List.map_map]
  exact List.map_congr_left fun word _ => toList_spelling_ofWord word

/-- A name is not read from a sign. -/
theorem isSign_of_ofWord_eq_symbol {word name : String} (h : ofWord word = .symbol name) :
    word = name ∧ Source.isSign name = false := by
  have hname : word = name := by rw [← spelling_ofWord word, h, spelling]
  subst hname
  refine ⟨rfl, decide_eq_false fun hsign => ?_⟩
  rcases hsign with hsign | hsign
  · rw [hsign] at h
    cases h
  · rw [hsign] at h
    cases h

/-- **The names read** are words and no signs. -/
theorem legible_of_mem_scan {text : List Char} {name : String} (h : .symbol name ∈ scan text) :
    Source.Legible name := by
  obtain ⟨word, hword, htoken⟩ := List.mem_map.mp h
  obtain ⟨rfl, hsign⟩ := isSign_of_ofWord_eq_symbol htoken
  have hmem : String.ofList word ∈ Source.wordsOf text := by
    rw [Source.wordsOf_eq]
    exact List.mem_map_of_mem hword
  exact Source.legible_of_mem_wordsOf hmem hsign

namespace Legible

variable {token : Token}

theorem ofWord_spelling (h : token.Legible) : ofWord token.spelling = token := by
  cases token with
  | arrow => rfl
  | bar => rfl
  | symbol name =>
    have hsign : ¬ (name = "->" ∨ name = "|") := of_decide_eq_false h.not_sign
    rw [not_or] at hsign
    rw [spelling, ofWord, if_neg hsign.1, if_neg hsign.2]

/-- It is spelled by a word. -/
theorem word (h : token.Legible) : token.spelling.toList ≠ [] ∧
    ∀ c ∈ token.spelling.toList, Text.isBlank c = false := by
  cases token with
  | arrow => exact ⟨by decide, Source.visible_of_all (by decide)⟩
  | bar => exact ⟨by decide, Source.visible_of_all (by decide)⟩
  | symbol name => exact ⟨h.ne_nil, h.visible⟩

end Legible

/-! ## One token -/

/-- **The token at the beginning of a text** is spelled by all that stands before the first
blank, and the rest is what stands from there on. -/
theorem take_spec (text : List Char) :
    (take text).1.spelling.toList ++ (take text).2 = text ∧
      (∀ c ∈ (take text).1.spelling.toList, Text.isBlank c = false) ∧
        ∀ c ∈ (take text).2.head?, Text.isBlank c = true := by
  have hspelling : (take text).1.spelling.toList = (Text.splitWord text).1 :=
    toList_spelling_ofWord _
  rw [hspelling]
  exact ⟨Text.splitWord_append text, fun c => Text.isBlank_of_mem_splitWord,
    Text.isBlank_of_mem_head?_splitWord⟩

/-! ## Turns of the scanner -/

/-- A scanner on its way: the tokens read so far and the text not read yet. -/
structure Scanner where
  read : List Token
  rest : List Char

namespace Scanner

/-- What a scanner does next. At the end of the text there is nothing left to do. -/
def turn? : Scanner → Option Scanner
  | ⟨_, []⟩ => none
  | ⟨read, c :: rest⟩ =>
    if Text.isBlank c then some ⟨read, rest⟩
    else
      let (token, rest) := take (c :: rest)
      some ⟨read ++ [token], rest⟩

/-- One turn leads from the first scanner to the second. -/
def Turns (scanner next : Scanner) : Prop := scanner.turn? = some next

variable {scanner next : Scanner}

theorem turn?_cons_blank {c : Char} (hc : Text.isBlank c = true) (read : List Token)
    (rest : List Char) : turn? ⟨read, c :: rest⟩ = some ⟨read, rest⟩ := if_pos hc

theorem turn?_cons_visible {c : Char} (hc : Text.isBlank c = false) (read : List Token)
    (rest : List Char) : turn? ⟨read, c :: rest⟩ =
      some ⟨read ++ [(take (c :: rest)).1], (take (c :: rest)).2⟩ :=
  if_neg (ne_true_of_eq_false hc)

theorem scan_cons_blank {b : Char} (hb : Text.isBlank b = true) (text : List Char) :
    scan (b :: text) = scan text := by
  rw [scan, Text.words_cons_blank hb, scan]

theorem scan_cons_visible {c : Char} (hc : Text.isBlank c = false) (text : List Char) :
    scan (c :: text) = (take (c :: text)).1 :: scan (take (c :: text)).2 := by
  have hskip : Text.skipBlanks (c :: text) = c :: text := by
    refine List.dropWhile_cons_of_neg ?_
    rw [hc]
    nofun
  rw [scan, Text.words_of_visible hskip]
  rfl

/-- **A turn** reads something, and all in all the tokens to be read stay the same. -/
theorem Turns.step (h : scanner.Turns next) : next.rest.length < scanner.rest.length ∧
    next.read ++ scan next.rest = scanner.read ++ scan scanner.rest := by
  obtain ⟨read, rest⟩ := scanner
  cases rest with
  | nil => cases h
  | cons c rest =>
    unfold Turns at h
    by_cases hc : Text.isBlank c = true
    · rw [turn?_cons_blank hc] at h
      cases h
      exact ⟨Nat.lt_succ_self _, by rw [scan_cons_blank hc]⟩
    · have hvisible : Text.isBlank c = false := eq_false_of_ne_true hc
      rw [turn?_cons_visible hvisible] at h
      cases h
      refine ⟨Text.length_splitWord_lt hvisible, ?_⟩
      rw [scan_cons_visible hvisible, List.append_assoc]
      rfl

theorem exists_turns (h : scanner.rest ≠ []) : ∃ next, scanner.Turns next := by
  obtain ⟨read, rest⟩ := scanner
  obtain ⟨c, rest, rfl⟩ := List.exists_cons_of_ne_nil h
  by_cases hc : Text.isBlank c = true
  · exact ⟨_, turn?_cons_blank hc read rest⟩
  · exact ⟨_, turn?_cons_visible (eq_false_of_ne_true hc) read rest⟩

/-- **The scanner comes to an end**, and then it has read the tokens of its text. -/
theorem reaches_end (scanner : Scanner) :
    Relation.ReflTransGen Turns scanner ⟨scanner.read ++ scan scanner.rest, []⟩ := by
  by_cases hnil : scanner.rest = []
  · have hscan : scan [] = [] := by rw [scan, Text.words_nil, List.map_nil]
    obtain ⟨read, rest⟩ := scanner
    subst hnil
    rw [hscan, List.append_nil]
  · obtain ⟨next, hturn⟩ := exists_turns hnil
    obtain ⟨hshorter, hsame⟩ := hturn.step
    rw [← hsame]
    exact .head hturn (reaches_end next)
termination_by scanner.rest.length

end Scanner

/-! ## Tokens laid out -/

/-- Tokens in a text, with blanks before, between and behind them. -/
structure Layout where
  front : List Char
  /-- The tokens, each with the blanks behind it. -/
  pieces : List (Token × List Char)
  blank_front : ∀ c ∈ front, Text.isBlank c = true
  blank_behind : ∀ piece ∈ pieces, ∀ c ∈ piece.2, Text.isBlank c = true
  /-- Only behind the last token there need not be any. -/
  apart : ∀ piece ∈ pieces.dropLast, piece.2 ≠ []

namespace Layout

/-- Blanks behind tokens can be tested one by one. -/
theorem blank_behind_of_all {pieces : List (Token × List Char)}
    (h : pieces.all (fun piece => piece.2.all Text.isBlank) = true) :
    ∀ piece ∈ pieces, ∀ c ∈ piece.2, Text.isBlank c = true := by
  intro piece hpiece
  exact List.all_eq_true.mp (List.all_eq_true.mp h piece hpiece)

def tokens (layout : Layout) : List Token := layout.pieces.map Prod.fst

def text (layout : Layout) : List Char :=
  layout.front ++ layout.pieces.flatMap fun piece => piece.1.spelling.toList ++ piece.2

/-- **Tokens laid out are read again.** -/
theorem scan_text (layout : Layout) (h : ∀ token ∈ layout.tokens, token.Legible) :
    scan layout.text = layout.tokens := by
  obtain ⟨front, pieces, hfront, hbehind, hapart⟩ := layout
  let spelled : Token × List Char → List Char × List Char := fun piece =>
    (piece.1.spelling.toList, piece.2)
  have hlegible : ∀ piece ∈ pieces, piece.1.Legible := fun piece hpiece =>
    h piece.1 (List.mem_map_of_mem hpiece)
  have hwords : Text.words ((pieces.map spelled).flatMap fun piece => piece.1 ++ piece.2) =
      (pieces.map spelled).map Prod.fst := by
    refine Text.words_flatMap ?_ ?_ ?_
    · intro piece hpiece
      obtain ⟨piece, hmem, rfl⟩ := List.mem_map.mp hpiece
      exact (hlegible piece hmem).word
    · intro piece hpiece
      obtain ⟨piece, hmem, rfl⟩ := List.mem_map.mp hpiece
      exact hbehind piece hmem
    · intro piece hpiece
      rw [← List.map_dropLast] at hpiece
      obtain ⟨piece, hmem, rfl⟩ := List.mem_map.mp hpiece
      exact hapart piece hmem
  rw [List.flatMap_map, List.map_map] at hwords
  show scan (front ++ pieces.flatMap fun piece => piece.1.spelling.toList ++ piece.2) =
    pieces.map Prod.fst
  rw [scan, Text.words_append_blank hfront, hwords, List.map_map]
  refine List.map_congr_left fun piece hmem => ?_
  show ofWord (String.ofList piece.1.spelling.toList) = piece.1
  rw [String.ofList_toList, (hlegible piece hmem).ofWord_spelling]

end Layout

/-! ## The statement -/

/-- **Scanning is splitting at blanks.** The tokens of a text are spelled by its runs, in
order, and the scanner comes to its end with these tokens. No name among them is empty,
holds a blank or is a sign. Tokens of such names are read again from any text in which they
are laid out with blanks. The token at the beginning of a text is what stands before its
first blank, and nothing is lost of the text behind it. -/
theorem scan_runs (text : List Char) :
    (∃ runs, Text.Runs text runs ∧
      (scan text).map (·.spelling.toList) = runs.map Prod.snd) ∧
    (Relation.ReflTransGen Scanner.Turns ⟨[], text⟩ ⟨scan text, []⟩ ∧
      ∀ next, ¬ Scanner.Turns ⟨scan text, []⟩ next) ∧
    (∀ name, .symbol name ∈ scan text → Source.Legible name) ∧
    (∀ layout : Layout, (∀ token ∈ layout.tokens, token.Legible) →
      scan layout.text = layout.tokens) ∧
    (take text).1.spelling.toList ++ (take text).2 = text ∧
      (∀ c ∈ (take text).1.spelling.toList, Text.isBlank c = false) ∧
        ∀ c ∈ (take text).2.head?, Text.isBlank c = true := by
  refine ⟨?_, ⟨Scanner.reaches_end ⟨[], text⟩, nofun⟩, fun name => legible_of_mem_scan,
    Layout.scan_text, take_spec text⟩
  obtain ⟨runs, hruns, hwords⟩ := Text.exists_runs text
  exact ⟨runs, hruns, by rw [map_spelling_scan, hwords]⟩

/-- A name with a bar in it, an arrow and a bar, with a wide space, a tab and a line end. -/
def signsAndSpaces : Layout where
  front := [' ']
  pieces := [(.symbol "a|->", ['\u3000']), (.arrow, ['\t', ' ']), (.bar, ['\n'])]
  blank_front := List.all_eq_true.mp (by decide)
  blank_behind := Layout.blank_behind_of_all (by decide)
  apart := by decide

/-- Only the signs that stand alone are signs. -/
theorem scan_runs_signsAndSpaces :
    signsAndSpaces.text = " a|->\u3000->\t |\n".toList ∧
      scan " a|->\u3000->\t |\n".toList = [.symbol "a|->", .arrow, .bar] := by
  have htext : signsAndSpaces.text = " a|->\u3000->\t |\n".toList := by decide +kernel
  have hname : Source.Legible "a|->" :=
    ⟨by decide, Source.visible_of_all (by decide), by decide⟩
  have hlegible : ∀ token ∈ signsAndSpaces.tokens, token.Legible :=
    List.forall_mem_cons.mpr ⟨hname, List.forall_mem_cons.mpr ⟨trivial,
      List.forall_mem_singleton.mpr trivial⟩⟩
  obtain ⟨-, -, -, hlaid, -⟩ := scan_runs signsAndSpaces.text
  have hscan := hlaid signsAndSpaces hlegible
  rw [htext] at hscan
  exact ⟨htext, hscan⟩

end AmbiguitySearch.Token
