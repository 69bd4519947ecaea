import AmbiguitySearch.Proofs.Grammar.Definition
import AmbiguitySearch.Proofs.Text.Lines
import AmbiguitySearch.Proofs.Text.Words
import AmbiguitySearch.Source.Reader

/-!
# The format of a grammar file

A file is a text, and what it has to look like can be said of the text alone: of its lines,
numbered from 1 with none left out, those that are neither blank nor comments, and of the
words on such a line, what stands between blanks (`ruleLines`). A line is in order or it has
one fault (`RuleLine.fault?`), and only if all are in order is there more to ask of the file
(`Answers`).

> `read_answers`: the reader tells exactly that of every text.

It finds out otherwise. It cuts bytes into lines before it decodes them, drops the ends of
lines, numbers and filters in one go, turns words into tokens, and collects the faults of
the lines apart from what the lines define. So the proof goes through its stages from the
inside: an alternative (`Definition.alternativeOfTokens_eq`), a line
(`Definition.ofLine_eq`), all lines (`readLines_encode`), the file.
-/

namespace AmbiguitySearch

/-- The value, unless something is wrong with it. -/
def judge {α : Type} (fault? : Option Fault) (value : α) : Except Fault α :=
  match fault? with
  | some fault => .error fault
  | none => .ok value

namespace Source

/-! ## Lines, words and what is wrong with them -/

/-- The pieces of a line between blanks, as far as they hold anything. -/
def wordsOf (line : List Char) : List String :=
  ((line.splitOnP Text.isBlank).filter (· ≠ [])).map String.ofList

/-- Whether a line is neither blank nor a comment. -/
def isRuleLine (line : List Char) : Bool :=
  (line.find? (!Text.isBlank ·)).any (· ≠ ';')

/-- A line that is neither blank nor a comment. -/
structure RuleLine where
  number : Nat
  words : List String

def ruleLine? (numbered : List Char × Nat) : Option RuleLine :=
  if isRuleLine numbered.1 then some ⟨numbered.2, wordsOf numbered.1⟩ else none

/-- The rule lines of a text. All lines are counted. -/
def ruleLines (text : String) : List RuleLine :=
  ((text.toList.splitOn '\n').zipIdx 1).filterMap ruleLine?

def isSign (word : String) : Bool := word = "->" ∨ word = "|"

def alternativeFault? (alternative : List String) : Option Fault :=
  if alternative = [] then some .emptyAlternative
  else if "->" ∈ alternative then some .unexpectedArrow
  else none

theorem alternativeFault?_eq_none_iff {alternative : List String} :
    alternativeFault? alternative = none ↔ alternative ≠ [] ∧ "->" ∉ alternative := by
  unfold alternativeFault?
  by_cases hnil : alternative = []
  · simp [hnil]
  · by_cases harrow : "->" ∈ alternative
    · simp [hnil, harrow]
    · simp [hnil, harrow]

namespace RuleLine

def left (line : RuleLine) : String := line.words.headD ""

/-- What stands between the bars behind the arrow. -/
def alternatives (line : RuleLine) : List (List String) := (line.words.drop 2).splitOn "|"

def definition (line : RuleLine) : Definition := ⟨line.left, line.alternatives⟩

/-- The first thing wrong with a line, from left to right. -/
def fault? (line : RuleLine) : Option Fault :=
  if line.words.head?.any isSign then some .missingNonterminal
  else if line.words[1]? ≠ some "->" then some .missingArrow
  else line.alternatives.findSome? alternativeFault?

def error? (path : String) (line : RuleLine) : Option SourceError :=
  line.fault?.map fun fault => ⟨⟨path, line.number⟩, fault⟩

end RuleLine

/-- One error for each line that is not in order. -/
def lineErrors (path : String) (lines : List RuleLine) : List SourceError :=
  lines.filterMap (·.error? path)

/-- One error for each line that defines `epsilon`. -/
def epsilonErrors (path : String) (lines : List RuleLine) : List SourceError :=
  (lines.filter (·.left = epsilon)).map fun line => ⟨⟨path, line.number⟩, .epsilonDefined⟩

end Source

namespace Token

theorem ofWord_eq_bar_iff (word : String) : (ofWord word == .bar) = (word == "|") := by
  rw [Bool.eq_iff_iff, beq_iff_eq, beq_iff_eq]
  constructor
  · intro h
    rw [← spelling_ofWord word, h]
    rfl
  · rintro rfl
    rfl

end Token

/-! ## Splitting lists -/

theorem splitOnP_map {α β : Type} (f : α → β) (p : β → Bool) (items : List α) :
    (items.map f).splitOnP p = (items.splitOnP fun item => p (f item)).map (List.map f) := by
  induction items with
  | nil => rfl
  | cons item items ih =>
    rw [List.map_cons, List.splitOnP_cons_eq_if_modifyHead,
      List.splitOnP_cons_eq_if_modifyHead, ih]
    split
    next => rfl
    next => cases items.splitOnP fun item => p (f item) <;> rfl

/-- What stands between separators is there and is no separator. -/
theorem of_mem_splitOnP {α : Type} {p : α → Bool} {piece : List α} {item : α}
    (hitem : item ∈ piece) : ∀ {items : List α}, piece ∈ items.splitOnP p →
      item ∈ items ∧ p item = false := by
  intro items
  induction items generalizing piece with
  | nil =>
    intro hpiece
    obtain rfl := List.mem_singleton.mp hpiece
    cases hitem
  | cons first items ih =>
    intro hpiece
    suffices hsuffices : (item = first ∧ p first = false) ∨ (item ∈ items ∧ p item = false) by
      rcases hsuffices with ⟨rfl, hfirst⟩ | ⟨hlater, hitem⟩
      · exact ⟨List.mem_cons_self .., hfirst⟩
      · exact ⟨List.mem_cons_of_mem _ hlater, hitem⟩
    rw [List.splitOnP_cons_eq_if_modifyHead] at hpiece
    split at hpiece
    next =>
      rcases List.mem_cons.mp hpiece with rfl | hpiece
      · cases hitem
      · exact Or.inr (ih hitem hpiece)
    next hfirst =>
      cases hsplit : items.splitOnP p with
      | nil => exact absurd hsplit (List.splitOnP_ne_nil _ _)
      | cons front pieces =>
        rw [hsplit] at ih hpiece
        rcases List.mem_cons.mp hpiece with rfl | hpiece
        · rcases List.mem_cons.mp hitem with rfl | hitem
          · exact Or.inl ⟨rfl, by simpa using hfirst⟩
          · exact Or.inr (ih hitem (List.mem_cons_self ..))
        · exact Or.inr (ih hitem (List.mem_cons_of_mem _ hpiece))

/-! ## Alternatives and lines -/

/-- Items are accepted one after the other, up to the first fault. -/
theorem mapM_judge {α : Type} {f : α → Except Fault α} (fault? : α → Option Fault) {items : List α}
    (h : ∀ item ∈ items, f item = judge (fault? item) item) :
    items.mapM f = judge (items.findSome? fault?) items := by
  induction items with
  | nil => rfl
  | cons item items ih =>
    obtain ⟨hitem, hitems⟩ := List.forall_mem_cons.mp h
    rw [List.mapM_cons, hitem, ih hitems, List.findSome?_cons]
    cases fault? item with
    | some fault => rfl
    | none => cases items.findSome? fault? <;> rfl

theorem findSome?_if_eq {α β : Type} [DecidableEq α] (wanted : α) (found : β) (items : List α) :
    (items.findSome? fun item => if item = wanted then some found else none) =
      if wanted ∈ items then some found else none := by
  induction items with
  | nil => rfl
  | cons item items ih =>
    rw [List.findSome?_cons, ih]
    by_cases heq : item = wanted
    · simp [heq]
    · simp [heq, Ne.symm heq]

namespace Definition

/-- **An alternative** is accepted unless it has a fault. -/
theorem alternativeOfTokens_eq {words : List String} (hbar : "|" ∉ words) :
    alternativeOfTokens (words.map Token.ofWord) = judge (Source.alternativeFault? words) words := by
  cases words with
  | nil => rfl
  | cons first words =>
    rw [Source.alternativeFault?, if_neg (List.cons_ne_nil _ _), List.map_cons, alternativeOfTokens,
      ← List.map_cons, List.mapM_map]
    · generalize first :: words = all at hbar
      let wordFault? : String → Option Fault := fun word =>
        if word = "->" then some .unexpectedArrow else none
      rw [mapM_judge wordFault?]
      · rw [findSome?_if_eq]
      · intro word hmem
        have hne : word ≠ "|" := fun heq => hbar (heq ▸ hmem)
        by_cases harrow : word = "->"
        · simp [Token.ofWord, harrow, judge, wordFault?]
        · simp [Token.ofWord, harrow, hne, judge, wordFault?]
    · exact nofun

/-- All alternatives are accepted unless one has a fault. The leftmost one counts. -/
theorem mapM_alternativeOfTokens_eq (words : List String) :
    ((words.map Token.ofWord).splitOnP (· == .bar)).mapM alternativeOfTokens =
      judge ((words.splitOn "|").findSome? Source.alternativeFault?) (words.splitOn "|") := by
  rw [splitOnP_map, List.mapM_map]
  simp only [Token.ofWord_eq_bar_iff]
  refine mapM_judge Source.alternativeFault? fun alternative hmem => ?_
  refine alternativeOfTokens_eq fun hbar => ?_
  have hseparator := (of_mem_splitOnP hbar hmem).2
  simp at hseparator

/-- **The words of a line** make its definition unless the line has a fault. -/
theorem ofTokens_eq (number : Nat) {words : List String} (hne : words ≠ []) :
    ofTokens (words.map Token.ofWord) =
      judge (Source.RuleLine.mk number words).fault? (Source.RuleLine.mk number words).definition := by
  obtain ⟨name, rest, rfl⟩ := List.exists_cons_of_ne_nil hne
  show ofTokens (Token.ofWord name :: rest.map Token.ofWord) =
    judge (if Source.isSign name then some .missingNonterminal
      else if rest[0]? ≠ some "->" then some .missingArrow
      else ((rest.drop 1).splitOn "|").findSome? Source.alternativeFault?)
      ⟨name, (rest.drop 1).splitOn "|"⟩
  by_cases hsign : Source.isSign name = true
  · rw [if_pos hsign]
    rcases of_decide_eq_true hsign with rfl | rfl
    · rfl
    · rfl
  · rw [if_neg hsign]
    have hname : Token.ofWord name = .symbol name := by
      simp only [Source.isSign, decide_eq_true_eq, not_or] at hsign
      rw [Token.ofWord, if_neg hsign.1, if_neg hsign.2]
    rw [hname]
    cases rest with
    | nil => rfl
    | cons second body =>
      by_cases harrow : second = "->"
      · subst harrow
        have haccepted : ofTokens (.symbol name :: .arrow :: body.map Token.ofWord) = do
            let alternatives ←
              ((body.map Token.ofWord).splitOnP (· == .bar)).mapM alternativeOfTokens
            return { name, alternatives } := rfl
        rw [mapM_alternativeOfTokens_eq] at haccepted
        refine haccepted.trans ?_
        rw [if_neg (by simp), List.drop_one, List.tail_cons]
        cases (body.splitOn "|").findSome? Source.alternativeFault? <;> rfl
      · rw [if_pos (by simpa using harrow), List.map_cons, Token.ofWord, if_neg harrow]
        split <;> rfl

end Definition

namespace Source

theorem wordsOf_eq (line : List Char) : wordsOf line = (Text.words line).map String.ofList := by
  rw [wordsOf, Text.words_eq_splitOnP]

/-- The character that decides about a line is the first that is not blank. -/
theorem isRuleLine_eq (line : List Char) :
    isRuleLine line = (Text.skipBlanks line).head?.any (· ≠ ';') := by
  rw [isRuleLine, List.find?_eq_head?_dropWhile_not]
  simp only [Bool.not_not]
  rfl

/-- A line that is neither blank nor a comment has a first word, which starts no comment. -/
theorem exists_words_of_isRuleLine {line : List Char} (h : isRuleLine line = true) :
    ∃ c word later, Text.words line = (c :: word) :: later ∧ c ≠ ';' := by
  rw [isRuleLine_eq] at h
  cases hskip : Text.skipBlanks line with
  | nil =>
    rw [hskip] at h
    cases h
  | cons c visible =>
    obtain ⟨word, later, hwords⟩ := Text.exists_words_eq hskip
    exact ⟨c, word, later, hwords, by simpa [hskip] using h⟩

end Source

namespace Definition

/-- **A line** that is neither blank nor a comment makes a definition unless it has a fault. -/
theorem ofLine_eq (line : List Char) (number : Nat) :
    ofLine line =
      if Source.isRuleLine line then
        (judge (Source.RuleLine.mk number (Source.wordsOf line)).fault?
          (Source.RuleLine.mk number (Source.wordsOf line)).definition).map some
      else .ok none := by
  rw [Source.isRuleLine_eq]
  unfold ofLine
  split
  next hblank => simp [hblank]
  next hcomment => simp [hcomment]
  next hblank hcomment =>
    obtain ⟨c, visible, hskip⟩ := List.exists_cons_of_ne_nil hblank
    have hc : c ≠ ';' := by
      intro heq
      rw [heq] at hskip
      exact hcomment visible hskip
    have hwords : Source.wordsOf line ≠ [] := by
      obtain ⟨word, later, hwords⟩ := Text.exists_words_eq hskip
      simp [Source.wordsOf_eq, hwords]
    have hscan : Token.scan line = (Source.wordsOf line).map Token.ofWord := by
      rw [Source.wordsOf_eq, List.map_map]
      rfl
    rw [hskip, if_pos (by simpa using hc), hscan]
    exact congrArg (Except.map some) (ofTokens_eq number hwords)

end Definition

namespace Source

/-! ## All lines -/

theorem readLine_encode (line : List Char) :
    readLine (Text.encode line) = Definition.ofLine line := by
  rw [readLine, Text.decode?_encode]
  show Definition.ofLine (String.ofList line).toList = Definition.ofLine line
  rw [String.toList_ofList]

/-- What a line comes to, given its number. -/
def readPlaced (path : String) (number : Nat) (bytes : List UInt8) :
    Option (Except SourceError Placed) :=
  match readLine bytes with
  | .error fault => some (.error (placeFault path number fault))
  | .ok none => none
  | .ok (some definition) => some (.ok { line := number, definition })

theorem RuleLine.fault?_mem {line : RuleLine} {fault : Fault} (h : line.fault? = some fault) :
    fault ∈ [.missingNonterminal, .missingArrow, .emptyAlternative, .unexpectedArrow] := by
  unfold fault? at h
  split at h
  next =>
    cases h
    decide
  next =>
    split at h
    next =>
      cases h
      decide
    next =>
      obtain ⟨alternative, -, hfault⟩ := List.exists_of_findSome?_eq_some h
      unfold alternativeFault? at hfault
      split at hfault
      next =>
        cases hfault
        decide
      next =>
        split at hfault
        next =>
          cases hfault
          decide
        next => cases hfault

/-- What a line looks like that is in order. -/
theorem RuleLine.exists_words_eq {line : RuleLine} (hne : line.words ≠ []) (h : line.fault? = none) :
    ∃ body, line.words = line.left :: "->" :: body ∧ isSign line.left = false ∧
      line.alternatives = body.splitOn "|" ∧
        ∀ alternative ∈ line.alternatives, alternativeFault? alternative = none := by
  obtain ⟨number, words⟩ := line
  obtain ⟨name, rest, rfl⟩ := List.exists_cons_of_ne_nil hne
  unfold fault? at h
  split at h
  next => cases h
  next hsign =>
    split at h
    next => cases h
    next harrow =>
      have hsecond : rest[0]? = some "->" := Decidable.not_not.mp harrow
      obtain ⟨second, body, rfl⟩ : ∃ second body, rest = second :: body := by
        cases rest with
        | nil => cases hsecond
        | cons second body => exact ⟨second, body, rfl⟩
      obtain rfl : second = "->" := Option.some.inj hsecond
      exact ⟨body, rfl, eq_false_of_ne_true hsign, rfl, List.findSome?_eq_none_iff.mp h⟩

/-- What a rule line comes to. -/
def RuleLine.result (path : String) (line : RuleLine) : Except SourceError Placed :=
  match line.error? path with
  | some error => .error error
  | none => .ok ⟨line.number, line.definition⟩

theorem readPlaced_encode (path : String) (number : Nat) (line : List Char) :
    readPlaced path number (Text.encode line) = (ruleLine? (line, number)).map (·.result path) := by
  unfold readPlaced ruleLine?
  rw [readLine_encode, Definition.ofLine_eq line number]
  by_cases hrule : isRuleLine line = true
  · rw [if_pos hrule, if_pos hrule, Option.map_some, RuleLine.result, RuleLine.error?]
    cases hfault : (RuleLine.mk number (wordsOf line)).fault? with
    | none => rfl
    | some fault =>
      have hmem := RuleLine.fault?_mem hfault
      -- none of these faults concerns the file as a whole
      simp only [List.mem_cons, List.not_mem_nil, or_false] at hmem
      rcases hmem with rfl | rfl | rfl | rfl <;> rfl
  · rw [if_neg hrule, if_neg hrule]
    rfl

/-- How a line ends makes no difference. -/
theorem isRuleLine_concat_carriageReturn (line : List Char) :
    isRuleLine (line ++ ['\r']) = isRuleLine line := by
  have hblank : List.find? (!Text.isBlank ·) ['\r'] = none := by decide
  rw [isRuleLine, List.find?_append, hblank, Option.or_none, isRuleLine]

theorem wordsOf_concat_carriageReturn (line : List Char) :
    wordsOf (line ++ ['\r']) = wordsOf line := by
  rw [wordsOf_eq, wordsOf_eq, Text.words_concat_blank (by decide)]

theorem readPlaced_of_decode?_eq_some (path : String) (number : Nat) {bytes : List UInt8}
    {text : String} (h : Text.decode? bytes = some text) :
    readPlaced path number bytes = (ruleLine? (text.toList, number)).map (·.result path) := by
  rw [Text.eq_encode_of_decode? h, readPlaced_encode]

theorem readPlaced_of_decode?_eq_none (path : String) (number : Nat) {bytes : List UInt8}
    (h : Text.decode? bytes = none) :
    readPlaced path number bytes = some (.error ⟨.wholeFile path, .file .notText⟩) := by
  rw [readPlaced, readLine, h]
  rfl

/-- Neither does it to bytes that are no text. -/
theorem readPlaced_concat_carriageReturn (path : String) (number : Nat) (line : List UInt8) :
    readPlaced path number (line ++ [Text.carriageReturn]) = readPlaced path number line := by
  have hcut := Text.decode?_concat_carriageReturn line
  cases hline : Text.decode? line with
  | none =>
    rw [hline] at hcut
    rw [readPlaced_of_decode?_eq_none path number hline,
      readPlaced_of_decode?_eq_none path number hcut]
  | some text =>
    rw [hline] at hcut
    rw [readPlaced_of_decode?_eq_some path number hline,
      readPlaced_of_decode?_eq_some path number hcut, ruleLine?, ruleLine?, String.toList_ofList,
      isRuleLine_concat_carriageReturn, wordsOf_concat_carriageReturn]

/-- **The lines of any source** come to what its pieces between newlines come to. -/
theorem readLines_eq (path : String) (bytes : List UInt8) : readLines path bytes =
    ((bytes.splitOn Text.newline).zipIdx 1).filterMap
      fun piece => readPlaced path piece.2 piece.1 := by
  refine Text.filterMap_lines (fun number => ?_) (fun line number => ?_) bytes 1
  · exact readPlaced_encode path number []
  · exact readPlaced_concat_carriageReturn path number line

/-- **The lines of a file** come to what its rule lines come to. -/
theorem readLines_encode (path text : String) :
    readLines path (Text.encode text.toList) = (ruleLines text).map (·.result path) := by
  rw [readLines_eq, Text.splitOn_encode, List.zipIdx_map, List.filterMap_map, ruleLines,
    List.map_filterMap]
  exact List.filterMap_congr fun piece _ => readPlaced_encode path piece.2 piece.1

theorem lineErrors_eq_nil_iff {path : String} {lines : List RuleLine} :
    lineErrors path lines = [] ↔ ∀ line ∈ lines, line.fault? = none := by
  rw [lineErrors, List.filterMap_eq_nil_iff]
  simp only [RuleLine.error?, Option.map_eq_none_iff]

theorem epsilonErrors_eq_nil_iff {path : String} {lines : List RuleLine} :
    epsilonErrors path lines = [] ↔ ∀ line ∈ lines, line.left ≠ epsilon := by
  rw [epsilonErrors, List.map_eq_nil_iff, List.filter_eq_nil_iff]
  simp only [decide_eq_true_eq]

theorem errors_result (path : String) (lines : List RuleLine) :
    errors (lines.map (·.result path)) = lineErrors path lines := by
  rw [errors, List.filterMap_map, lineErrors]
  refine List.filterMap_congr fun line _ => ?_
  rw [Function.comp, RuleLine.result]
  cases line.error? path <;> rfl

theorem values_result {path : String} {lines : List RuleLine} (h : lineErrors path lines = []) :
    values (lines.map (·.result path)) = lines.map fun line => ⟨line.number, line.definition⟩ := by
  rw [values, List.filterMap_map, ← List.filterMap_eq_map]
  refine List.filterMap_congr fun line hmem => ?_
  have hnone : line.error? path = none := List.filterMap_eq_nil_iff.mp h line hmem
  rw [Function.comp, RuleLine.result, hnone]
  rfl

/-- The rule lines come in the order of their numbers. -/
theorem pairwise_ruleLines (text : String) :
    (ruleLines text).Pairwise fun line line' => line.number < line'.number := by
  have hnumbers : ((text.toList.splitOn '\n').zipIdx 1).Pairwise fun numbered numbered' =>
      numbered.2 < numbered'.2 := by
    rw [← List.pairwise_map (f := Prod.snd), List.zipIdx_map_snd]
    exact List.pairwise_lt_range'
  rw [ruleLines, List.pairwise_filterMap]
  refine hnumbers.imp ?_
  intro numbered numbered' hlt line hline line' hline'
  obtain ⟨-, hline⟩ := Option.ite_none_right_eq_some.mp hline
  obtain ⟨-, hline'⟩ := Option.ite_none_right_eq_some.mp hline'
  rw [← Option.some.inj hline, ← Option.some.inj hline']
  exact hlt

/-- So do their errors. -/
theorem pairwise_lineErrors (path text : String) :
    (lineErrors path (ruleLines text)).Pairwise fun error error' =>
      error.location.line < error'.location.line := by
  rw [lineErrors, List.pairwise_filterMap]
  refine (pairwise_ruleLines text).imp ?_
  intro line line' hlt error herror error' herror'
  obtain ⟨fault, -, rfl⟩ := Option.map_eq_some_iff.mp herror
  obtain ⟨fault', -, rfl⟩ := Option.map_eq_some_iff.mp herror'
  exact hlt

/-! ## The file -/

/-- Nothing is wrong with the rule lines of a file, and there are some. -/
structure InOrder (path : String) (lines : List RuleLine) : Prop where
  lineErrors_eq_nil : lineErrors path lines = []
  ne_nil : lines ≠ []
  epsilonErrors_eq_nil : epsilonErrors path lines = []

/-- What there is to tell of a file with these rule lines. -/
inductive Answers (path : String) (start? : Option String) (lines : List RuleLine) :
    Except (List SourceError) Grammar → Prop where
  | malformed (faulty : lineErrors path lines ≠ []) :
    Answers path start? lines (.error (lineErrors path lines))
  | empty (blank : lines = []) :
    Answers path start? lines (.error [⟨.wholeFile path, .emptyGrammar⟩])
  | epsilonDefined (wellFormed : lineErrors path lines = [])
      (defined : epsilonErrors path lines ≠ []) :
    Answers path start? lines (.error (epsilonErrors path lines))
  | undefinedStart {start : String} (inOrder : InOrder path lines) (asked : start? = some start)
      (undefined : start ∉ lines.map (·.left)) :
    Answers path start? lines (.error [⟨.wholeFile path, .undefinedStart start⟩])
  | accepted (inOrder : InOrder path lines) (unasked : start? = none) :
    Answers path start? lines (.ok (.ofDefinitions (lines.map (·.definition))))
  | moved {start : String} {id : Nat} (inOrder : InOrder path lines) (asked : start? = some start)
      (declared : (Grammar.ofDefinitions (lines.map (·.definition))).nonterminals[id]? = some start) :
    Answers path start? lines (.ok { Grammar.ofDefinitions (lines.map (·.definition)) with start := id })

/-- The definitions of lines that are in order, each with the number of its line. -/
def placedLines (lines : List RuleLine) : List Placed :=
  lines.map fun line => ⟨line.number, line.definition⟩

theorem definition_placedLines (lines : List RuleLine) :
    (placedLines lines).map (·.definition) = lines.map (·.definition) := by
  rw [placedLines, List.map_map]
  rfl

theorem wholeFaults_placedLines (path : String) (lines : List RuleLine) :
    wholeFaults path (placedLines lines) =
      if lines = [] then [⟨.wholeFile path, .emptyGrammar⟩] else epsilonErrors path lines := by
  unfold wholeFaults placedLines epsilonErrors
  by_cases hnil : lines = []
  · simp [hnil]
  · rw [if_neg hnil, if_neg (by simpa using hnil), List.filter_map, List.map_map]
    rfl

theorem assemble_of_inOrder {path : String} {lines : List RuleLine} (h : InOrder path lines) :
    assemble path none (placedLines lines) = .ok (.ofDefinitions (lines.map (·.definition))) := by
  unfold assemble
  rw [wholeFaults_placedLines, if_neg h.ne_nil, h.epsilonErrors_eq_nil, definition_placedLines]

/-- Assembling lines that are not malformed. -/
theorem answers_assemble {path : String} {lines : List RuleLine} (start? : Option String)
    (h : lineErrors path lines = []) :
    Answers path start? lines (assemble path start? (placedLines lines)) := by
  unfold assemble
  rw [wholeFaults_placedLines]
  by_cases hnil : lines = []
  · rw [if_pos hnil]
    exact .empty hnil
  · rw [if_neg hnil]
    by_cases hepsilon : epsilonErrors path lines = []
    · have hinOrder : InOrder path lines := ⟨h, hnil, hepsilon⟩
      rw [hepsilon, definition_placedLines]
      cases start? with
      | none => exact .accepted hinOrder rfl
      | some start =>
        dsimp only
        by_cases hdefined : start ∈ (Grammar.ofDefinitions (lines.map (·.definition))).nonterminals
        · obtain ⟨id, hid, hmoved⟩ := Grammar.exists_withStart?_eq_some hdefined
          rw [hmoved]
          exact .moved hinOrder rfl hid
        · rw [Grammar.withStart?_eq_none_iff.mpr hdefined]
          refine .undefinedStart hinOrder rfl fun hleft => hdefined ?_
          refine List.mem_eraseDups.mpr ?_
          rw [List.map_map]
          exact hleft
    · split
      next hnone => exact absurd hnone hepsilon
      next => exact .epsilonDefined h hepsilon

/-- A file is assembled if none of its lines is bad. -/
theorem read_encode (path text : String) (start? : Option String) :
    read path (Text.encode text.toList) start? =
      if lineErrors path (ruleLines text) = [] then
        assemble path start? (placedLines (ruleLines text))
      else .error (lineErrors path (ruleLines text)) := by
  unfold read
  dsimp only
  rw [readLines_encode, errors_result]
  split
  next hnone => rw [if_pos hnone, values_result hnone, placedLines]
  next hsome => rw [if_neg hsome]

/-- **A reader accepts its format and nothing else**, and tells of each fault where it is.
The errors of bad lines are in the order of the file, at most one for each line, and they
are of four kinds: no line that the reader takes for a rule turns out to be blank. -/
theorem read_answers (path text : String) (start? : Option String) :
    Answers path start? (ruleLines text) (read path (Text.encode text.toList) start?) ∧
      ((lineErrors path (ruleLines text)).Pairwise fun error error' =>
        error.location.line < error'.location.line) ∧
      ∀ error ∈ lineErrors path (ruleLines text), error.location.file = path ∧
        error.fault ∈ [.missingNonterminal, .missingArrow, .emptyAlternative, .unexpectedArrow] := by
  refine ⟨?_, pairwise_lineErrors path text, ?_⟩
  · rw [read_encode]
    by_cases hnone : lineErrors path (ruleLines text) = []
    · rw [if_pos hnone]
      exact answers_assemble start? hnone
    · rw [if_neg hnone]
      exact .malformed hnone
  · intro error herror
    obtain ⟨line, -, hline⟩ := List.mem_filterMap.mp herror
    obtain ⟨fault, hfault, rfl⟩ := Option.map_eq_some_iff.mp hline
    exact ⟨rfl, RuleLine.fault?_mem hfault⟩

/-- Every line is counted, and of two bad alternatives the left one counts. -/
example : lineErrors "g" (ruleLines "; rules\n\n S -> a | | b -> c\r\n-> a\nS a -> b\nS -> -> |") =
    [⟨⟨"g", 3⟩, .emptyAlternative⟩, ⟨⟨"g", 4⟩, .missingNonterminal⟩, ⟨⟨"g", 5⟩, .missingArrow⟩,
      ⟨⟨"g", 6⟩, .unexpectedArrow⟩] := by decide +kernel

end Source

end AmbiguitySearch
