import AmbiguitySearch.Proofs.Grammar.Repetition
import AmbiguitySearch.Proofs.Source.Loading
import AmbiguitySearch.Proofs.Source.Rules

/-!
# Redundant text

There are many ways to write one grammar down. A line can be split at a bar, a line or an
alternative can be written once more behind itself, and `epsilon` can be put in beside names
or taken away from them (`Edited`). None of it has a meaning of its own: the grammar that is
read is the same, with every id, the order of the rules and the flags.

What an edit does to the text it does to the rules that the text states, line by line
(`rulesOf`). It makes rules appear that have appeared before, or it changes nothing
(`EditedLines.sameFirsts`). And it leaves the lines in order, so that the text is accepted
once more (`EditedLines.linesInOrder`).

> `read_edited`: a source that is accepted goes on to be accepted with the same grammar,
> through any number of edits.
-/

namespace AmbiguitySearch.Source

/-- The words of the line are a name, an arrow, and alternatives with bars between them. -/
structure Gives (line : List Char) (definition : Definition) : Prop where
  rule : isRuleLine line = true
  words : ∃ body, wordsOf line = definition.name :: "->" :: body ∧
    body.splitOn "|" = definition.alternatives

/-- Some lines with one edit made, wherever that is among the others. -/
inductive EditedLines : List (List Char) → List (List Char) → Prop where
  /-- A line is written in other words, with any blanks between them. -/
  | reworded {above lines below : List (List Char)} {line : List Char} {definition : Definition}
      {definitions : List Definition} (gives : Gives line definition)
      (reworded : definition.Reworded definitions) (given : List.Forall₂ Gives lines definitions) :
    EditedLines (above ++ line :: below) (above ++ (lines ++ below))
  /-- A line is written once more below itself. -/
  | again {above between below : List (List Char)} {line copy : List Char}
      {definition : Definition} (gives : Gives line definition) (given : Gives copy definition) :
    EditedLines (above ++ line :: (between ++ below)) (above ++ line :: (between ++ copy :: below))

/-- A text with one edit made. -/
def Edited (text text' : String) : Prop :=
  EditedLines (text.toList.splitOn '\n') (text'.toList.splitOn '\n')

variable {line : List Char} {lines lines' : List (List Char)} {definition : Definition}
  {definitions : List Definition} {path text text' : String} {start? : Option String}

/-! ## Lines that are in order -/

/-- There is nothing wrong with a line that gives the definition. -/
structure Acceptable (definition : Definition) : Prop where
  name_not_sign : isSign definition.name = false
  name_ne_epsilon : definition.name ≠ epsilon
  alternatives : ∀ alternative ∈ definition.alternatives, alternative ≠ [] ∧ "->" ∉ alternative

/-- Lines with which nothing is wrong, those that are neither blank nor comments giving
definitions. -/
def LinesInOrder (lines : List (List Char)) : Prop :=
  ∀ line ∈ lines, isRuleLine line = true →
    ∃ definition, Gives line definition ∧ Acceptable definition

/-- What a line gives is what is read from it. -/
theorem Gives.definition_eq (h : Gives line definition) (number : Nat) :
    (RuleLine.mk number (wordsOf line)).definition = definition := by
  obtain ⟨body, hwords, hbody⟩ := h.words
  rw [hwords, RuleLine.definition]
  show Definition.mk definition.name (body.splitOn "|") = definition
  rw [hbody]

theorem Gives.fault?_eq_none (h : Gives line definition) (hd : Acceptable definition)
    (number : Nat) : (RuleLine.mk number (wordsOf line)).fault? = none := by
  obtain ⟨body, hwords, hbody⟩ := h.words
  have hsound : (body.splitOn "|").findSome? alternativeFault? = none := by
    rw [hbody, List.findSome?_eq_none_iff]
    intro alternative hmem
    exact alternativeFault?_eq_none_iff.mpr (hd.alternatives alternative hmem)
  rw [hwords, RuleLine.fault?, if_neg (by simp [hd.name_not_sign]), if_neg (by simp)]
  exact hsound

theorem wordsOf_ne_nil (h : isRuleLine line = true) : wordsOf line ≠ [] := by
  obtain ⟨c, word, later, hwords, -⟩ := exists_words_of_isRuleLine h
  simp [wordsOf_eq, hwords]

/-- Nothing is wrong with the line at any number. -/
theorem exists_gives_iff (hrule : isRuleLine line = true) (number : Nat) :
    (∃ definition, Gives line definition ∧ Acceptable definition) ↔
      (RuleLine.mk number (wordsOf line)).fault? = none ∧
        (RuleLine.mk number (wordsOf line)).left ≠ epsilon := by
  constructor
  · intro h
    obtain ⟨definition, hgives, hd⟩ := h
    refine ⟨hgives.fault?_eq_none hd number, ?_⟩
    have hname := hd.name_ne_epsilon
    rw [← hgives.definition_eq number] at hname
    exact hname
  · intro h
    obtain ⟨body, hwords, hsign, halternatives, hsound⟩ :=
      RuleLine.exists_words_eq (wordsOf_ne_nil hrule) h.1
    refine ⟨(RuleLine.mk number (wordsOf line)).definition,
      ⟨hrule, body, hwords, halternatives.symm⟩, hsign, h.2, ?_⟩
    intro alternative hmem
    exact alternativeFault?_eq_none_iff.mp (hsound alternative hmem)

theorem LinesInOrder.acceptable (h : LinesInOrder lines) (hmem : line ∈ lines)
    (hgives : Gives line definition) : Acceptable definition := by
  obtain ⟨other, hother, hacceptable⟩ := h line hmem hgives.rule
  rw [← hgives.definition_eq 0, hother.definition_eq 0]
  exact hacceptable

/-- The rules that a line states are those of what it gives. -/
theorem Gives.rulesOfLine_eq (h : Gives line definition) (hd : Acceptable definition) :
    rulesOfLine line = Grammar.namedRules [definition] := by
  rw [Source.rulesOfLine_eq h.rule 0 (h.fault?_eq_none hd 0), h.definition_eq 0]

section Given

variable (hgiven : List.Forall₂ Gives lines definitions)
  (hacceptable : ∀ definition ∈ definitions, Acceptable definition)

include hgiven hacceptable

theorem flatMap_rulesOfLine_of_gives :
    lines.flatMap rulesOfLine = Grammar.namedRules definitions := by
  induction hgiven with
  | nil => rfl
  | @cons line definition lines definitions hgives _ ih =>
    obtain ⟨hfirst, hlater⟩ := List.forall_mem_cons.mp hacceptable
    rw [List.flatMap_cons, hgives.rulesOfLine_eq hfirst, ih hlater, ← Grammar.namedRules_append]
    rfl

theorem linesInOrder_of_gives : LinesInOrder lines := by
  intro line hmem _
  obtain ⟨definition, hdefinition, hgives⟩ := exists_of_mem_of_forall₂ hgiven hmem
  exact ⟨definition, hgives, hacceptable definition hdefinition⟩

end Given

/-! ## One edit -/

/-- Nothing is wrong with other words for what nothing was wrong with. -/
theorem acceptable_of_reworded (h : definition.Reworded definitions) (hd : Acceptable definition) :
    ∀ other ∈ definitions, Acceptable other := by
  obtain ⟨hsign, hname, halternatives⟩ := hd
  have hepsilon : "->" ≠ epsilon := by decide
  cases h with
  | split name front back =>
    obtain ⟨hfront, hback⟩ := List.forall_mem_append.mp halternatives
    exact List.forall_mem_cons.mpr ⟨⟨hsign, hname, hfront⟩,
      List.forall_mem_singleton.mpr ⟨hsign, hname, hback⟩⟩
  | again name alternative before between behind =>
    refine List.forall_mem_singleton.mpr ⟨hsign, hname, ?_⟩
    intro other hmem
    refine halternatives other ?_
    simp only [List.mem_append, List.mem_cons] at hmem ⊢
    grind
  | inserted name front back before behind =>
    refine List.forall_mem_singleton.mpr ⟨hsign, hname, ?_⟩
    obtain ⟨hbefore, hrest⟩ := List.forall_mem_append.mp halternatives
    obtain ⟨⟨-, harrow⟩, hbehind⟩ := List.forall_mem_cons.mp hrest
    refine List.forall_mem_append.mpr ⟨hbefore, List.forall_mem_cons.mpr ⟨⟨by simp, ?_⟩, hbehind⟩⟩
    simpa [hepsilon] using harrow
  | deleted name front back before behind hleft =>
    refine List.forall_mem_singleton.mpr ⟨hsign, hname, ?_⟩
    obtain ⟨hbefore, hrest⟩ := List.forall_mem_append.mp halternatives
    obtain ⟨⟨-, harrow⟩, hbehind⟩ := List.forall_mem_cons.mp hrest
    refine List.forall_mem_append.mpr ⟨hbefore, List.forall_mem_cons.mpr ⟨⟨hleft, ?_⟩, hbehind⟩⟩
    simpa [hepsilon] using harrow

/-- **One edit leaves lines in order.** -/
theorem EditedLines.linesInOrder (h : EditedLines lines lines') (hlines : LinesInOrder lines) :
    LinesInOrder lines' := by
  cases h with
  | @reworded above lines below line definition definitions hgives hreworded hgiven =>
    have hd := hlines.acceptable (List.mem_append_right _ (List.mem_cons_self ..)) hgives
    obtain ⟨habove, hrest⟩ := List.forall_mem_append.mp hlines
    obtain ⟨-, hbelow⟩ := List.forall_mem_cons.mp hrest
    exact List.forall_mem_append.mpr ⟨habove, List.forall_mem_append.mpr
      ⟨linesInOrder_of_gives hgiven (acceptable_of_reworded hreworded hd), hbelow⟩⟩
  | @again above between below line copy definition hgives hgiven =>
    have hd := hlines.acceptable (List.mem_append_right _ (List.mem_cons_self ..)) hgives
    intro other hmem hrule
    by_cases hcopy : other = copy
    · exact ⟨definition, hcopy ▸ hgiven, hd⟩
    · refine hlines other ?_ hrule
      simp only [List.mem_append, List.mem_cons] at hmem ⊢
      grind

/-- **One edit states rules again**, or nothing new at all. -/
theorem EditedLines.sameFirsts (h : EditedLines lines lines') (hlines : LinesInOrder lines) :
    SameFirsts (lines.flatMap rulesOfLine) (lines'.flatMap rulesOfLine) := by
  cases h with
  | @reworded above lines below line definition definitions hgives hreworded hgiven =>
    have hd := hlines.acceptable (List.mem_append_right _ (List.mem_cons_self ..)) hgives
    have hsame := hreworded.sameFirsts
    rw [← hgives.rulesOfLine_eq hd,
      ← flatMap_rulesOfLine_of_gives hgiven (acceptable_of_reworded hreworded hd)] at hsame
    simp only [List.flatMap_append, List.flatMap_cons]
    exact (SameFirsts.refl _).append (hsame.append_right _)
  | @again above between below line copy definition hgives hgiven =>
    have hd := hlines.acceptable (List.mem_append_right _ (List.mem_cons_self ..)) hgives
    have hcopy : rulesOfLine copy = rulesOfLine line := by
      rw [hgiven.rulesOfLine_eq hd, hgives.rulesOfLine_eq hd]
    have hseen : rulesOfLine line ⊆ (above ++ line :: between).flatMap rulesOfLine := by
      intro rule hrule
      exact List.mem_flatMap.mpr ⟨line, List.mem_append_right _ (List.mem_cons_self ..), hrule⟩
    have hagain := SameFirsts.again hseen (below.flatMap rulesOfLine)
    simpa [hcopy] using hagain

/-! ## Texts -/

/-- What holds of the words of all rule lines holds of those of the lines they are. -/
theorem forall_words_iff (text : String) (holds : List String → Prop) :
    (∀ rule ∈ ruleLines text, holds rule.words) ↔
      ∀ line ∈ text.toList.splitOn '\n', isRuleLine line = true → holds (wordsOf line) := by
  constructor
  · intro h line hmem hrule
    rw [← List.zipIdx_map_fst 1 (text.toList.splitOn '\n')] at hmem
    obtain ⟨numbered, hnumbered, rfl⟩ := List.mem_map.mp hmem
    exact h ⟨numbered.2, wordsOf numbered.1⟩
      (List.mem_filterMap.mpr ⟨numbered, hnumbered, if_pos hrule⟩)
  · intro h rule hmem
    obtain ⟨numbered, hnumbered, hsome⟩ := List.mem_filterMap.mp hmem
    obtain ⟨hrule, hline⟩ := Option.ite_none_right_eq_some.mp hsome
    rw [← Option.some.inj hline]
    exact h numbered.1 (List.fst_mem_of_mem_zipIdx hnumbered) hrule

/-- Lines are in order if they make no errors. -/
theorem linesInOrder_iff (path text : String) : LinesInOrder (text.toList.splitOn '\n') ↔
    lineErrors path (ruleLines text) = [] ∧ epsilonErrors path (ruleLines text) = [] := by
  rw [lineErrors_eq_nil_iff, epsilonErrors_eq_nil_iff, ← forall₂_and]
  have hwords := forall_words_iff text fun words =>
    (RuleLine.mk 0 words).fault? = none ∧ (RuleLine.mk 0 words).left ≠ epsilon
  refine Iff.trans ?_ hwords.symm
  exact forall₂_congr fun line _ => forall_congr' fun hrule => exists_gives_iff hrule 0

/-- Lines without a fault state a rule if any of them is a rule line. -/
theorem rulesOf_eq_nil_iff (h : lineErrors path (ruleLines text) = []) :
    rulesOf text = [] ↔ ruleLines text = [] := by
  obtain ⟨hrules, hne⟩ := lists_ruleLines h
  rw [hrules]
  constructor
  · intro hnil
    by_contra hsome
    obtain ⟨rule, hrule⟩ := List.exists_mem_of_ne_nil _
      (Grammar.tableRules_ne_nil hne (mt List.map_eq_nil_iff.mp hsome))
    rw [Grammar.mem_tableRules_iff, hnil] at hrule
    cases hrule
  · intro hnil
    rw [hnil]
    rfl

/-- Whether a text is in order can be told from its lines and the rules that they state. -/
theorem inOrder_ruleLines_iff : InOrder path (ruleLines text) ↔
    LinesInOrder (text.toList.splitOn '\n') ∧ rulesOf text ≠ [] := by
  rw [linesInOrder_iff path text]
  constructor
  · intro h
    exact ⟨⟨h.lineErrors_eq_nil, h.epsilonErrors_eq_nil⟩,
      mt (rulesOf_eq_nil_iff h.lineErrors_eq_nil).mp h.ne_nil⟩
  · intro h
    obtain ⟨⟨hline, hepsilon⟩, hsome⟩ := h
    exact ⟨hline, mt (rulesOf_eq_nil_iff hline).mpr hsome, hepsilon⟩

theorem inOrder_of_read {g : Grammar} (h : read path (Text.encode text.toList) start? = .ok g) :
    InOrder path (ruleLines text) := by
  have hanswer := (read_answers path text start?).1
  rw [h] at hanswer
  cases hanswer with
  | accepted hinOrder _ => exact hinOrder
  | moved hinOrder _ _ => exact hinOrder

/-- Texts in order are read alike if they state the same rules, each text as often as it
likes. -/
theorem read_eq_of_sameFirsts (start? : Option String) (h : InOrder path (ruleLines text))
    (h' : InOrder path (ruleLines text')) (hsame : SameFirsts (rulesOf text) (rulesOf text')) :
    read path (Text.encode text'.toList) start? = read path (Text.encode text.toList) start? := by
  obtain ⟨hrules, hne⟩ := lists_ruleLines h.lineErrors_eq_nil
  obtain ⟨hrules', hne'⟩ := lists_ruleLines h'.lineErrors_eq_nil
  rw [hrules, hrules'] at hsame
  have hgrammar := Grammar.ofDefinitions_eq_of_sameFirsts hne hne' hsame
  rw [read_encode, read_encode, if_pos h.lineErrors_eq_nil, if_pos h'.lineErrors_eq_nil]
  unfold assemble
  rw [wholeFaults_placedLines, wholeFaults_placedLines, if_neg h.ne_nil, if_neg h'.ne_nil,
    h.epsilonErrors_eq_nil, h'.epsilonErrors_eq_nil, definition_placedLines,
    definition_placedLines, hgrammar]

/-- **One edit** leaves a text in order, and the rules that it states are the same. -/
theorem Edited.inOrder (h : Edited text text') (hinOrder : InOrder path (ruleLines text)) :
    InOrder path (ruleLines text') ∧ SameFirsts (rulesOf text) (rulesOf text') := by
  obtain ⟨hlines, hsome⟩ := inOrder_ruleLines_iff.mp hinOrder
  have hsame : SameFirsts (rulesOf text) (rulesOf text') := EditedLines.sameFirsts h hlines
  refine ⟨inOrder_ruleLines_iff.mpr ⟨EditedLines.linesInOrder h hlines, ?_⟩, hsame⟩
  obtain ⟨rule, hrule⟩ := List.exists_mem_of_ne_nil _ hsome
  exact List.ne_nil_of_mem ((hsame.mem_iff rule).mp hrule)

/-- **Any number of edits**, one after the other. -/
theorem inOrder_of_reflTransGen (h : Relation.ReflTransGen Edited text text')
    (hinOrder : InOrder path (ruleLines text)) :
    InOrder path (ruleLines text') ∧ SameFirsts (rulesOf text) (rulesOf text') := by
  induction h with
  | refl => exact ⟨hinOrder, .refl _⟩
  | tail _ hedited ih =>
    obtain ⟨hagain, hsame⟩ := hedited.inOrder ih.1
    exact ⟨hagain, ih.2.trans hsame⟩

/-- **Redundant text changes nothing.** A source that is accepted is text, and however many
edits are made to that text, what comes out is accepted with the same grammar. -/
theorem read_edited {bytes : List UInt8} {g : Grammar} (h : read path bytes start? = .ok g) :
    ∃ text, Text.decode? bytes = some text ∧ ∀ text', Relation.ReflTransGen Edited text text' →
      read path (Text.encode text'.toList) start? = .ok g := by
  cases htext : Text.decode? bytes with
  | none =>
    rw [read_of_decode?_eq_none path start? htext] at h
    cases h
  | some text =>
    rw [Text.eq_encode_of_decode? htext] at h
    refine ⟨text, rfl, fun text' hedited => ?_⟩
    have hinOrder := inOrder_of_read h
    obtain ⟨hinOrder', hsame⟩ := inOrder_of_reflTransGen hedited hinOrder
    rw [read_eq_of_sameFirsts start? hinOrder hinOrder' hsame]
    exact h

theorem edited_of_lines (h : text.toList.splitOn '\n' = lines)
    (h' : text'.toList.splitOn '\n' = lines') (hedited : EditedLines lines lines') :
    Edited text text' := by
  rw [Edited, h, h']
  exact hedited

/-- Two lines, and what comes of them by five edits, one of each kind. The first line is split,
the last one loses its `epsilon`, and the second is written again at the end. There its
alternative is written again too, and has an `epsilon` put in. -/
theorem reflTransGen_edited_everyKind :
    Relation.ReflTransGen Edited "S -> a S | b\nA -> epsilon a"
      "S -> a S\nS -> b\nA -> a\n\tS -> b | b epsilon" := by
  have hlines : "S -> a S | b\nA -> epsilon a".toList.splitOn '\n' =
      ["S -> a S | b".toList, "A -> epsilon a".toList] := by decide +kernel
  have hsplit : "S -> a S\nS -> b\nA -> epsilon a".toList.splitOn '\n' =
      ["S -> a S".toList, "S -> b".toList, "A -> epsilon a".toList] := by decide +kernel
  have hdeleted : "S -> a S\nS -> b\nA -> a".toList.splitOn '\n' =
      ["S -> a S".toList, "S -> b".toList, "A -> a".toList] := by decide +kernel
  have hagain : "S -> a S\nS -> b\nA -> a\n\tS -> b".toList.splitOn '\n' =
      ["S -> a S".toList, "S -> b".toList, "A -> a".toList, "\tS -> b".toList] := by
    decide +kernel
  have htwice : "S -> a S\nS -> b\nA -> a\n\tS -> b | b".toList.splitOn '\n' =
      ["S -> a S".toList, "S -> b".toList, "A -> a".toList, "\tS -> b | b".toList] := by
    decide +kernel
  have hinserted : "S -> a S\nS -> b\nA -> a\n\tS -> b | b epsilon".toList.splitOn '\n' =
      ["S -> a S".toList, "S -> b".toList, "A -> a".toList, "\tS -> b | b epsilon".toList] := by
    decide +kernel
  have hb : Gives "S -> b".toList ⟨"S", [["b"]]⟩ := ⟨rfl, ["b"], rfl, rfl⟩
  have hb' : Gives "\tS -> b".toList ⟨"S", [["b"]]⟩ := ⟨rfl, ["b"], rfl, rfl⟩
  have hbb : Gives "\tS -> b | b".toList ⟨"S", [["b"], ["b"]]⟩ := ⟨rfl, ["b", "|", "b"], rfl, rfl⟩
  refine .head (edited_of_lines hlines hsplit ?_) (.head (edited_of_lines hsplit hdeleted ?_)
    (.head (edited_of_lines hdeleted hagain ?_) (.head (edited_of_lines hagain htwice ?_)
      (.single (edited_of_lines htwice hinserted ?_)))))
  · show EditedLines ([] ++ "S -> a S | b".toList :: ["A -> epsilon a".toList])
      ([] ++ (["S -> a S".toList, "S -> b".toList] ++ ["A -> epsilon a".toList]))
    exact .reworded ⟨rfl, ["a", "S", "|", "b"], rfl, rfl⟩ (.split "S" [["a", "S"]] [["b"]])
      (.cons ⟨rfl, ["a", "S"], rfl, rfl⟩ (.cons hb .nil))
  · show EditedLines (["S -> a S".toList, "S -> b".toList] ++ "A -> epsilon a".toList :: [])
      (["S -> a S".toList, "S -> b".toList] ++ (["A -> a".toList] ++ []))
    exact .reworded ⟨rfl, ["epsilon", "a"], rfl, rfl⟩
      (.deleted "A" [] ["a"] [] [] (List.cons_ne_nil _ _)) (.cons ⟨rfl, ["a"], rfl, rfl⟩ .nil)
  · show EditedLines (["S -> a S".toList] ++ "S -> b".toList :: (["A -> a".toList] ++ []))
      (["S -> a S".toList] ++ "S -> b".toList :: (["A -> a".toList] ++ "\tS -> b".toList :: []))
    exact .again hb hb'
  · show EditedLines (["S -> a S".toList, "S -> b".toList, "A -> a".toList] ++
        "\tS -> b".toList :: [])
      (["S -> a S".toList, "S -> b".toList, "A -> a".toList] ++ (["\tS -> b | b".toList] ++ []))
    exact .reworded hb' (.again "S" ["b"] [] [] []) (.cons hbb .nil)
  · show EditedLines (["S -> a S".toList, "S -> b".toList, "A -> a".toList] ++
        "\tS -> b | b".toList :: [])
      (["S -> a S".toList, "S -> b".toList, "A -> a".toList] ++
        (["\tS -> b | b epsilon".toList] ++ []))
    exact .reworded hbb (.inserted "S" ["b"] [] [["b"]] [])
      (.cons ⟨rfl, ["b", "|", "b", "epsilon"], rfl, rfl⟩ .nil)

/-- The grammar, started from `A`, is the same at the end. -/
theorem read_edited_everyKind : ∃ g,
    read "g" (Text.encode "S -> a S | b\nA -> epsilon a".toList) (some "A") = .ok g ∧
      read "g" (Text.encode "S -> a S\nS -> b\nA -> a\n\tS -> b | b epsilon".toList)
        (some "A") = .ok g := by
  have hread : read "g" (Text.encode "S -> a S | b\nA -> epsilon a".toList) (some "A") =
      .ok { Grammar.ofDefinitions [⟨"S", [["a", "S"], ["b"]]⟩, ⟨"A", [["epsilon", "a"]]⟩] with
        start := 1 } := by decide +kernel
  obtain ⟨text, htext, hagain⟩ := read_edited hread
  rw [Text.decode?_encode, String.ofList_toList] at htext
  cases htext
  exact ⟨_, hread, hagain _ reflTransGen_edited_everyKind⟩

end AmbiguitySearch.Source
