import AmbiguitySearch.Proofs.Grammar.Printed
import AmbiguitySearch.Proofs.Source.Format

/-!
# A grammar in print is read back

Printing and reading were not made for each other. The printer writes any name there is and
has a word of its own for the empty body; the reader takes some words for signs, some lines
for comments, and refuses to define that word. They fit because of what names can come out
of the reader: a name is a word, no sign, and a left-hand side neither starts a comment nor
spells the empty body (`LegibleRule`).

* `read_rulesText`: the text of legible rules is read back as those rules.
* `legible_of_read`: the rules of a grammar that was read are legible.

> `read_printed`: the text of a grammar that was read is accepted, the grammar read back has
> the same rules by name in the same order, and its text is the same.
-/

namespace AmbiguitySearch

open Grammar

namespace Text

/-- Words with spaces between them. -/
theorem words_intercalate : ∀ {items : List (List Char)},
    (∀ word ∈ items, word ≠ [] ∧ ∀ c ∈ word, isBlank c = false) →
      words ([' '].intercalate items) = items
  | [], _ => words_nil
  | [word], h => by
    obtain ⟨hne, hword⟩ := h word (List.mem_singleton_self word)
    have hwords : words (word ++ []) = word :: words [] := words_append hne hword nofun
    rw [List.append_nil, words_nil] at hwords
    simpa using hwords
  | word :: next :: items, h => by
    obtain ⟨⟨hne, hword⟩, hlater⟩ := List.forall_mem_cons.mp h
    have hspace : isBlank ' ' = true := by decide
    have htext : [' '].intercalate (word :: next :: items) =
        word ++ ' ' :: [' '].intercalate (next :: items) := by
      rw [List.intercalate_cons_cons]
      simp
    rw [htext, words_append hne hword (by simpa using hspace), words_cons_blank hspace,
      words_intercalate hlater]

theorem mem_intercalate {α : Type} {separator : List α} {item : α} : ∀ {items : List (List α)},
    item ∈ separator.intercalate items → item ∈ separator ∨ ∃ piece ∈ items, item ∈ piece
  | [], h => by cases h
  | [piece], h => by
    rw [List.intercalate_singleton] at h
    exact Or.inr ⟨piece, List.mem_singleton_self piece, h⟩
  | piece :: next :: items, h => by
    rw [List.intercalate_cons_cons, List.mem_append, List.mem_append] at h
    rcases h with (hpiece | hseparator) | hlater
    · exact Or.inr ⟨piece, List.mem_cons_self .., hpiece⟩
    · exact Or.inl hseparator
    · rcases mem_intercalate hlater with hseparator | ⟨other, hother, hitem⟩
      · exact Or.inl hseparator
      · exact Or.inr ⟨other, List.mem_cons_of_mem _ hother, hitem⟩

end Text

namespace Source

/-- A name that is read as it is written. -/
structure Legible (name : String) : Prop where
  ne_nil : name.toList ≠ []
  visible : ∀ c ∈ name.toList, Text.isBlank c = false
  not_sign : isSign name = false

/-- A rule whose line is read as it is written. -/
structure LegibleRule (rule : String × List String) : Prop where
  left : Legible rule.1
  no_comment : rule.1.toList.head? ≠ some ';'
  ne_epsilon : rule.1 ≠ epsilon
  body : ∀ name ∈ rule.2, Legible name

/-! ## Printed lines -/

theorem visible_of_all {word : List Char} (h : word.all (!Text.isBlank ·) = true) :
    ∀ c ∈ word, Text.isBlank c = false := by
  simpa using h

theorem legible_epsilon : Legible epsilon := ⟨by decide, visible_of_all (by decide), by decide⟩

variable {rule : String × List String} {rules : List (String × List String)}

theorem legible_writtenBody {names : List String} (h : ∀ name ∈ names, Legible name) :
    ∀ name ∈ writtenBody names, Legible name := by
  unfold writtenBody
  split
  next =>
    intro name hname
    rw [List.mem_singleton.mp hname]
    exact legible_epsilon
  next => exact h

theorem toList_ruleText (rule : String × List String) :
    (ruleText rule).toList = rule.1.toList ++ (" -> ".toList ++
      [' '].intercalate ((writtenBody rule.2).map String.toList)) := by
  have htext : ruleText rule = rule.1 ++ " -> " ++ " ".intercalate (writtenBody rule.2) := rfl
  rw [htext, String.toList_append, String.toList_append, String.toList_intercalate,
    List.append_assoc]
  rfl

/-- The words of a written body. -/
theorem words_writtenBody {names : List String} (h : ∀ name ∈ names, Legible name) :
    Text.words ([' '].intercalate ((writtenBody names).map String.toList)) =
      (writtenBody names).map String.toList := by
  refine Text.words_intercalate fun word hword => ?_
  obtain ⟨name, hname, rfl⟩ := List.mem_map.mp hword
  have hlegible := legible_writtenBody h name hname
  exact ⟨hlegible.ne_nil, hlegible.visible⟩

/-- The words of a line are those of its rule. -/
theorem wordsOf_ruleText (h : LegibleRule rule) :
    wordsOf (ruleText rule).toList = rule.1 :: "->" :: writtenBody rule.2 := by
  have hspace : Text.isBlank ' ' = true := by decide
  have hbody := words_writtenBody h.body
  have hline := toList_ruleText rule
  generalize [' '].intercalate ((writtenBody rule.2).map String.toList) = body at hbody hline
  have harrow : Text.words (" -> ".toList ++ body) = "->".toList :: Text.words body := by
    show Text.words (' ' :: ("->".toList ++ ' ' :: body)) = _
    rw [Text.words_cons_blank hspace, Text.words_append (by decide) (visible_of_all (by decide))
      (by simpa using hspace), Text.words_cons_blank hspace]
  have hleft : Text.words (rule.1.toList ++ (" -> ".toList ++ body)) =
      rule.1.toList :: Text.words (" -> ".toList ++ body) :=
    Text.words_append h.left.ne_nil h.left.visible (by simpa using hspace)
  rw [wordsOf_eq, hline, hleft, harrow, hbody]
  simp [List.map_map, Function.comp_def]

theorem isRuleLine_ruleText (h : LegibleRule rule) : isRuleLine (ruleText rule).toList = true := by
  obtain ⟨c, rest, hleft⟩ := List.exists_cons_of_ne_nil h.left.ne_nil
  have hc : Text.isBlank c = false := by
    refine h.left.visible c ?_
    rw [hleft]
    exact List.mem_cons_self ..
  have hcomment : c ≠ ';' := by
    intro heq
    refine h.no_comment ?_
    rw [hleft, heq]
    rfl
  rw [toList_ruleText, hleft]
  simp [isRuleLine, hc, hcomment]

theorem Legible.newline_notMem {name : String} (h : Legible name) : '\n' ∉ name.toList := by
  intro hmem
  have hblank : Text.isBlank '\n' = true := by decide
  rw [h.visible '\n' hmem] at hblank
  cases hblank

/-- Names that break no line make a body that breaks none. -/
theorem newline_notMem_writtenBody {names : List String}
    (h : ∀ name ∈ names, '\n' ∉ name.toList) :
    '\n' ∉ [' '].intercalate ((writtenBody names).map String.toList) := by
  intro hbody
  rcases Text.mem_intercalate hbody with hspace | ⟨piece, hpiece, hmem⟩
  · exact absurd hspace (by decide)
  · obtain ⟨name, hname, rfl⟩ := List.mem_map.mp hpiece
    unfold writtenBody at hname
    split at hname
    next =>
      rw [List.mem_singleton.mp hname] at hmem
      exact absurd hmem (by decide)
    next => exact h name hname hmem

theorem newline_notMem_ruleText (hleft : '\n' ∉ rule.1.toList)
    (hbody : ∀ name ∈ rule.2, '\n' ∉ name.toList) : '\n' ∉ (ruleText rule).toList := by
  rw [toList_ruleText, List.mem_append, List.mem_append]
  rintro (hmem | harrow | hmem)
  · exact hleft hmem
  · exact absurd harrow (by decide)
  · exact newline_notMem_writtenBody hbody hmem

/-- No line is broken. -/
theorem LegibleRule.newline_notMem (h : LegibleRule rule) : '\n' ∉ (ruleText rule).toList :=
  newline_notMem_ruleText h.left.newline_notMem fun name hmem => (h.body name hmem).newline_notMem

/-- The line of a rule, as it is read. -/
def printedLine (rule : String × List String) (number : Nat) : RuleLine :=
  ⟨number, rule.1 :: "->" :: writtenBody rule.2⟩

theorem alternatives_printedLine (h : LegibleRule rule) (number : Nat) :
    (printedLine rule number).alternatives = [writtenBody rule.2] := by
  show (writtenBody rule.2).splitOn "|" = _
  refine List.splitOnP_eq_singleton fun name hname => ?_
  have hsign := (legible_writtenBody h.body name hname).not_sign
  simp only [isSign, decide_eq_false_iff_not, not_or] at hsign
  simpa using hsign.2

theorem fault?_printedLine (h : LegibleRule rule) (number : Nat) :
    (printedLine rule number).fault? = none := by
  have hleft : ¬ (printedLine rule number).words.head?.any isSign = true := by
    simp [printedLine, h.left.not_sign]
  have harrow : ¬ (printedLine rule number).words[1]? ≠ some "->" := by simp [printedLine]
  have hne : writtenBody rule.2 ≠ [] := by
    unfold writtenBody
    split
    next => exact List.cons_ne_nil _ _
    next hne => exact hne
  have hbody : "->" ∉ writtenBody rule.2 := by
    intro hmem
    have hsign := (legible_writtenBody h.body _ hmem).not_sign
    cases hsign
  rw [RuleLine.fault?, if_neg hleft, if_neg harrow, alternatives_printedLine h]
  simp [alternativeFault?, hne, hbody]

theorem definition_printedLine (h : LegibleRule rule) (number : Nat) :
    (printedLine rule number).definition = writtenAs rule := by
  rw [RuleLine.definition, alternatives_printedLine h]
  rfl

/-! ## Printed files -/

/-- The rule lines of a text of rules are the lines of the rules. -/
theorem filterMap_ruleLine?_rulesText : ∀ {rules : List (String × List String)} (number : Nat),
    (∀ rule ∈ rules, LegibleRule rule) →
      (((rulesText rules).toList.splitOn '\n').zipIdx number).filterMap ruleLine? =
        (rules.zipIdx number).map fun numbered => printedLine numbered.1 numbered.2
  | [], number, _ => rfl
  | rule :: rules, number, h => by
    obtain ⟨hrule, hrules⟩ := List.forall_mem_cons.mp h
    have htext : (rulesText (rule :: rules)).toList =
        (ruleText rule).toList ++ '\n' :: (rulesText rules).toList := by
      rw [rulesText, List.map_cons, String.join_cons, String.toList_append, String.toList_append,
        ← rulesText, List.append_assoc]
      rfl
    have hsplit : (rulesText (rule :: rules)).toList.splitOn '\n' =
        (ruleText rule).toList :: (rulesText rules).toList.splitOn '\n' := by
      rw [htext]
      refine List.splitOnP_append_cons_of_forall_mem (fun c hc => ?_) '\n' (by simp) _
      have hne : c ≠ '\n' := fun heq => hrule.newline_notMem (heq ▸ hc)
      simpa using hne
    have hline : ruleLine? ((ruleText rule).toList, number) = some (printedLine rule number) := by
      rw [ruleLine?, if_pos (isRuleLine_ruleText hrule), wordsOf_ruleText hrule]
      rfl
    rw [hsplit, List.zipIdx_cons, List.filterMap_cons_some hline,
      filterMap_ruleLine?_rulesText (number + 1) hrules]
    rfl

/-- **The text of legible rules is read back** as those rules. -/
theorem read_rulesText (path : String) (hne : rules ≠ []) (h : ∀ rule ∈ rules, LegibleRule rule) :
    read path (Text.encode (rulesText rules).toList) none = .ok (ofDefinitions (rules.map writtenAs)) := by
  have hlines : ruleLines (rulesText rules) =
      (rules.zipIdx 1).map fun numbered => printedLine numbered.1 numbered.2 :=
    filterMap_ruleLine?_rulesText 1 h
  have hlegible : ∀ numbered ∈ rules.zipIdx 1, LegibleRule numbered.1 := fun numbered hmem =>
    h numbered.1 (List.fst_mem_of_mem_zipIdx hmem)
  have hinOrder : InOrder path (ruleLines (rulesText rules)) := by
    rw [hlines]
    refine ⟨lineErrors_eq_nil_iff.mpr ?_, ?_, ?_⟩
    · intro line hline
      obtain ⟨numbered, hmem, rfl⟩ := List.mem_map.mp hline
      exact fault?_printedLine (hlegible numbered hmem) numbered.2
    · simpa using hne
    · refine epsilonErrors_eq_nil_iff.mpr fun line hline => ?_
      obtain ⟨numbered, hmem, rfl⟩ := List.mem_map.mp hline
      exact (hlegible numbered hmem).ne_epsilon
  have hdefinitions : (ruleLines (rulesText rules)).map (·.definition) = rules.map writtenAs := by
    rw [hlines, List.map_map]
    conv_rhs => rw [← List.zipIdx_map_fst 1 rules, List.map_map]
    refine List.map_congr_left fun numbered hmem => ?_
    exact definition_printedLine (hlegible numbered hmem) numbered.2
  rw [read_encode, if_pos hinOrder.lineErrors_eq_nil, assemble_of_inOrder hinOrder, hdefinitions]

/-! ## Names that come out of the reader -/

theorem legible_of_mem_wordsOf {line : List Char} {name : String} (hmem : name ∈ wordsOf line)
    (hsign : isSign name = false) : Legible name := by
  have hword : ∃ word ∈ Text.words line, String.ofList word = name := by
    rw [wordsOf_eq] at hmem
    exact List.mem_map.mp hmem
  obtain ⟨word, hword, rfl⟩ := hword
  have hne : word ≠ [] := by
    rw [Text.words_eq_splitOnP, List.mem_filter] at hword
    exact of_decide_eq_true hword.2
  refine ⟨?_, fun c hc => ?_, hsign⟩
  · rw [String.toList_ofList]
    exact hne
  · rw [String.toList_ofList] at hc
    exact Text.isBlank_of_mem_words hc hword

/-- A line that is in order defines a name by legible rules. -/
theorem legibleRule_of_line {line : List Char} {number : Nat} (hrule : isRuleLine line = true)
    (h : (RuleLine.mk number (wordsOf line)).fault? = none)
    (hne : (RuleLine.mk number (wordsOf line)).left ≠ epsilon) :
    ∀ rule ∈ namedRules [(RuleLine.mk number (wordsOf line)).definition], LegibleRule rule := by
  obtain ⟨c, word, later, hwords, hc⟩ := exists_words_of_isRuleLine hrule
  have hleft : (RuleLine.mk number (wordsOf line)).left = String.ofList (c :: word) := by
    simp [RuleLine.left, wordsOf_eq, hwords]
  have hsome : (RuleLine.mk number (wordsOf line)).words ≠ [] := by
    simp [wordsOf_eq, hwords]
  obtain ⟨body, hbody, hsign, halternatives, hsound⟩ := RuleLine.exists_words_eq hsome h
  have hword : ∀ name ∈ (RuleLine.mk number (wordsOf line)).left :: "->" :: body,
      name ∈ wordsOf line := by
    intro name hname
    rw [← hbody] at hname
    exact hname
  intro rule hmem
  rw [namedRules_singleton] at hmem
  obtain ⟨alternative, halternative, rfl⟩ := List.mem_map.mp hmem
  refine ⟨legible_of_mem_wordsOf (hword _ (List.mem_cons_self ..)) hsign, ?_, hne, ?_⟩
  · show (RuleLine.mk number (wordsOf line)).left.toList.head? ≠ some ';'
    rw [hleft, String.toList_ofList]
    simpa using hc
  · intro name hname
    have hin : name ∈ alternative := (List.mem_filter.mp hname).1
    have hfault : alternativeFault? alternative = none := hsound alternative halternative
    have hpiece : alternative ∈ body.splitOn "|" := by
      rw [← halternatives]
      exact halternative
    obtain ⟨hmem, hbar⟩ := of_mem_splitOnP hin hpiece
    have harrow : name ≠ "->" := by
      rintro rfl
      exact (alternativeFault?_eq_none_iff.mp hfault).2 hin
    refine legible_of_mem_wordsOf
      (hword name (List.mem_cons_of_mem _ (List.mem_cons_of_mem _ hmem))) ?_
    simp only [beq_eq_false_iff_ne, ne_eq] at hbar
    simp [isSign, harrow, hbar]

/-- What is read without a fault is what the words of some line make. -/
theorem exists_line_of_mem_values {path : String} {bytes : List UInt8} {placed : Placed}
    (h : placed ∈ values (readLines path bytes)) : ∃ (line : List Char) (number : Nat),
      isRuleLine line = true ∧ (RuleLine.mk number (wordsOf line)).fault? = none ∧
        placed.definition = (RuleLine.mk number (wordsOf line)).definition := by
  rw [readLines_eq] at h
  obtain ⟨result, hresult, hvalue⟩ := List.mem_filterMap.mp h
  obtain ⟨⟨piece, number⟩, -, hplaced⟩ := List.mem_filterMap.mp hresult
  cases htext : Text.decode? piece with
  | none =>
    rw [readPlaced_of_decode?_eq_none path number htext] at hplaced
    cases hplaced
    cases hvalue
  | some text =>
    rw [readPlaced_of_decode?_eq_some path number htext] at hplaced
    obtain ⟨line, hline, rfl⟩ := Option.map_eq_some_iff.mp hplaced
    obtain ⟨hrule, rfl⟩ : isRuleLine text.toList = true ∧
        RuleLine.mk number (wordsOf text.toList) = line := by
      simpa [ruleLine?] using hline
    cases hfault : (RuleLine.mk number (wordsOf text.toList)).fault? with
    | some fault =>
      rw [RuleLine.result, RuleLine.error?, hfault] at hvalue
      cases hvalue
    | none =>
      rw [RuleLine.result, RuleLine.error?, hfault] at hvalue
      cases hvalue
      exact ⟨text.toList, number, hrule, hfault, rfl⟩

/-- What is assembled defines something, and not `epsilon`. -/
theorem assemble_eq_ok {path : String} {placed : List Placed} {g : Grammar}
    (h : assemble path none placed = .ok g) : g = ofDefinitions (placed.map (·.definition)) ∧
      placed ≠ [] ∧ ∀ line ∈ placed, line.definition.name ≠ epsilon := by
  unfold assemble at h
  split at h
  next hfaults =>
    cases h
    by_cases hnil : placed = []
    · rw [hnil] at hfaults
      cases hfaults
    · rw [wholeFaults, if_neg (by simpa using hnil), List.map_eq_nil_iff,
        List.filter_eq_nil_iff] at hfaults
      refine ⟨rfl, hnil, fun line hline => ?_⟩
      have hname := hfaults line hline
      simpa using hname
  next => cases h

/-- **The rules of a grammar that was read are legible.** -/
theorem legible_of_read {path : String} {bytes : List UInt8} {g : Grammar}
    (h : read path bytes none = .ok g) : ∃ definitions, g = ofDefinitions definitions ∧
      definitions ≠ [] ∧ (∀ definition ∈ definitions, definition.alternatives ≠ []) ∧
        ∀ rule ∈ namedRules definitions, LegibleRule rule := by
  unfold read at h
  dsimp only at h
  split at h
  next =>
    obtain ⟨hg, hne, hepsilon⟩ := assemble_eq_ok h
    refine ⟨_, hg, by simpa using hne, ?_, ?_⟩
    · intro definition hmem
      obtain ⟨placed, hplaced, rfl⟩ := List.mem_map.mp hmem
      obtain ⟨line, number, -, -, hdefinition⟩ := exists_line_of_mem_values hplaced
      rw [hdefinition]
      exact List.splitOnP_ne_nil _ _
    · intro rule hrule
      rw [namedRules_eq_flatMap] at hrule
      obtain ⟨definition, hmem, hrule⟩ := List.mem_flatMap.mp hrule
      obtain ⟨placed, hplaced, rfl⟩ := List.mem_map.mp hmem
      obtain ⟨line, number, hline, hfault, hdefinition⟩ := exists_line_of_mem_values hplaced
      have hname := hepsilon placed hplaced
      rw [hdefinition] at hrule hname
      refine legibleRule_of_line hline hfault hname rule ?_
      rw [namedRules_singleton]
      exact hrule
  next => cases h

/-! ## There and back -/

/-- **A grammar in print is read back.** The text of a grammar that was read is accepted
wherever it is put. The grammar read back has the same nonterminals and the same rules by
name, in the same order, and the same terminals in some order; what vanishes and whether
there is a word at all are the same. Its text is the same, so that another round changes
nothing any more. -/
theorem read_printed {path : String} {bytes : List UInt8} {g : Grammar}
    (h : read path bytes none = .ok g) :
    ∃ text g', g.printed = .ok text ∧
      (∀ path', read path' (Text.encode text.toList) none = .ok g') ∧
      g'.nonterminals = g.nonterminals ∧
      (∃ bodies, g.namedBodies = .ok bodies ∧ g'.namedBodies = .ok bodies) ∧
      g'.nullable = g.nullable ∧ g'.vocabularyEmpty = g.vocabularyEmpty ∧
      g'.terminals.Perm g.terminals ∧ g'.start = g.start ∧ g'.printed = .ok text := by
  obtain ⟨definitions, rfl, hsome, hne, hlegible⟩ := legible_of_read h
  have hrules : ∀ rule ∈ tableRules definitions, LegibleRule rule := fun rule hrule =>
    hlegible rule (mem_tableRules_iff.mp hrule)
  have hrestates := restates_writtenAs hne
  have hbodies := namedBodies_ofDefinitions definitions
  refine ⟨_, _, printed_ofDefinitions definitions, fun path' =>
      read_rulesText path' (tableRules_ne_nil hne hsome) hrules,
    definedNames_writtenAs hne, ⟨_, hbodies, (namedBodies_writtenAs hne).trans hbodies⟩,
    nullable_writtenAs hne, ?_, ?_, rfl, ?_⟩
  · exact (hrestates.corresponds.vocabularyEmpty_eq (.ofDefinitions _) (.ofDefinitions _)).symm
  · have hperm := hrestates.perm_terminals
    rw [List.map_id] at hperm
    exact hperm.symm
  · rw [printed_ofDefinitions, tableRules_writtenAs hne]

/-- Two lines for `B`, with a line for `A` between them. -/
def interleavedText : String := "B -> b A\nA -> a\nB -> c | epsilon\n"

def interleaved : Grammar :=
  .ofDefinitions [⟨"B", [["b", "A"]]⟩, ⟨"A", [["a"]]⟩, ⟨"B", [["c"], ["epsilon"]]⟩]

/-- In print the lines of `B` stand together, and the terminals may come in another order. -/
theorem read_printed_interleaved : ∃ g',
    read "h" (Text.encode "B -> b A\nB -> c\nB -> epsilon\nA -> a\n".toList) none = .ok g' ∧
      g'.terminals.Perm ["b", "a", "c"] ∧
        g'.namedBodies = .ok [[["b", "A"], ["c"], []], [["a"]]] := by
  have hread : read "g" (Text.encode interleavedText.toList) none = .ok interleaved := by
    decide +kernel
  have hprinted : interleaved.printed = .ok "B -> b A\nB -> c\nB -> epsilon\nA -> a\n" := by
    decide +kernel
  have hnamed : interleaved.namedBodies = .ok [[["b", "A"], ["c"], []], [["a"]]] := by rfl
  obtain ⟨text, g', htext, hagain, -, ⟨bodies, hbodies, hbodies'⟩, -, -, hperm, -⟩ :=
    read_printed hread
  cases htext.symm.trans hprinted
  cases hbodies.symm.trans hnamed
  exact ⟨g', hagain "h", hperm, hbodies'⟩

end Source

end AmbiguitySearch
