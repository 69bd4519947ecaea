import AmbiguitySearch.Proofs.Grammar.Named
import AmbiguitySearch.Proofs.Source.Format

/-!
# What a grammar file says

A grammar file can be read without a reader: each line that is neither blank nor a comment
has a name, an arrow and names with bars between them, and states a rule for each
alternative (`rulesOf`). The reader goes through bytes, tokens and definitions to a table,
and refuses a file at many places.

> `load_eq_ok`: a file that it accepts is text, and the grammar denotes the rules that the
> text states, with the start asked for or else the first left-hand side.
-/

namespace AmbiguitySearch

namespace Source

/-- The rules that a line states, by name: none if it is blank or a comment, and otherwise
one for each alternative, whose `epsilon` stands for nothing. -/
def rulesOfLine (line : List Char) : List (String × List String) :=
  match Text.words line with
  | (';' :: _) :: _ => []
  | name :: arrow :: rest =>
    if String.ofList arrow = "->" then
      ((rest.map String.ofList).splitOn "|").map fun alternative =>
        (String.ofList name, alternative.filter (· ≠ epsilon))
    else []
  | _ => []

theorem rulesOfLine_of_words {line name arrow : List Char} {c : Char} {rest : List (List Char)}
    (hwords : Text.words line = (c :: name) :: arrow :: rest) (hc : c ≠ ';')
    (harrow : String.ofList arrow = "->") :
    rulesOfLine line = ((rest.map String.ofList).splitOn "|").map fun alternative =>
      (String.ofList (c :: name), alternative.filter (· ≠ epsilon)) := by
  unfold rulesOfLine
  rw [hwords]
  split
  next heq =>
    cases heq
    exact absurd rfl hc
  next heq =>
    cases heq
    rw [if_pos harrow]
  next hnone => exact absurd rfl (hnone _ _ _)

/-- The rules that a text states, line by line. -/
def rulesOf (text : String) : List (String × List String) :=
  (text.toList.splitOn '\n').flatMap rulesOfLine

/-- A text as a grammar by name. Without a start asked for it starts from the first
left-hand side. -/
def namedGrammarOf (text : String) (start? : Option String) : NamedGrammar where
  rules := rulesOf text
  start := start?.getD (((rulesOf text).head?.map Prod.fst).getD "")

/-! ## Lines and files -/

/-- What a rule line states is what it defines. -/
theorem rulesOfLine_eq {line : List Char} (hrule : isRuleLine line = true) (number : Nat)
    (h : (RuleLine.mk number (wordsOf line)).fault? = none) :
    rulesOfLine line = Grammar.namedRules [(RuleLine.mk number (wordsOf line)).definition] := by
  obtain ⟨c, name, later, hline, hc⟩ := exists_words_of_isRuleLine hrule
  have hwords : wordsOf line = String.ofList (c :: name) :: later.map String.ofList := by
    rw [wordsOf_eq, hline, List.map_cons]
  rw [hwords] at h ⊢
  obtain ⟨body, hbody, -⟩ := RuleLine.exists_words_eq (List.cons_ne_nil _ _) h
  obtain ⟨arrow, rest, rfl, harrow, -⟩ := List.map_eq_cons_iff.mp (List.cons.inj hbody).2
  rw [rulesOfLine_of_words hline hc harrow, Grammar.namedRules_singleton]
  rfl

/-- Any other line states nothing. -/
theorem rulesOfLine_of_not_isRuleLine {line : List Char} (h : isRuleLine line = false) :
    rulesOfLine line = [] := by
  rw [isRuleLine_eq] at h
  cases hskip : Text.skipBlanks line with
  | nil => rw [rulesOfLine, Text.words_of_blank hskip]
  | cons c visible =>
    have hc : c = ';' := by simpa [hskip] using h
    subst hc
    rw [rulesOfLine, Text.words_of_visible hskip]
    rfl

/-- Definitions that list some rules, each of them one at least. -/
structure Lists (definitions : List Definition) (rules : List (String × List String)) : Prop where
  rules_eq : rules = Grammar.namedRules definitions
  alternatives_ne_nil : ∀ definition ∈ definitions, definition.alternatives ≠ []

/-- Lines that are in order state what they define, one after the other. -/
theorem flatMap_rulesOfLine_eq : ∀ (numbered : List (List Char × Nat)),
    (∀ line ∈ numbered.filterMap ruleLine?, line.fault? = none) →
      numbered.flatMap (fun line => rulesOfLine line.1) =
        (numbered.filterMap ruleLine?).flatMap
          fun line => Grammar.namedRules [line.definition]
  | [], _ => rfl
  | (line, number) :: numbered, h => by
    rw [List.flatMap_cons]
    by_cases hrule : isRuleLine line = true
    · have hfirst : ruleLine? (line, number) = some ⟨number, wordsOf line⟩ := if_pos hrule
      rw [List.filterMap_cons_some hfirst] at h ⊢
      obtain ⟨hnone, h⟩ := List.forall_mem_cons.mp h
      rw [List.flatMap_cons, rulesOfLine_eq hrule number hnone, flatMap_rulesOfLine_eq numbered h]
    · have hfirst : ruleLine? (line, number) = none := if_neg hrule
      rw [List.filterMap_cons_none hfirst] at h ⊢
      rw [rulesOfLine_of_not_isRuleLine (eq_false_of_ne_true hrule), List.nil_append,
        flatMap_rulesOfLine_eq numbered h]

/-- Lines that are in order list the rules that the text states. -/
theorem lists_ruleLines {path text : String} (h : lineErrors path (ruleLines text) = []) :
    Lists ((ruleLines text).map (·.definition)) (rulesOf text) where
  rules_eq := by
    rw [rulesOf, ← List.zipIdx_map_fst 1 (text.toList.splitOn '\n'), List.flatMap_map,
      flatMap_rulesOfLine_eq _ (lineErrors_eq_nil_iff.mp h), Grammar.namedRules_eq_flatMap,
      List.flatMap_map, ← ruleLines]
    refine List.flatMap_congr fun line _ => ?_
    exact Grammar.namedRules_singleton line.definition
  alternatives_ne_nil definition hmem := by
    obtain ⟨line, -, rfl⟩ := List.mem_map.mp hmem
    exact List.splitOnP_ne_nil _ _

/-- The names of a text can be told apart when they are written with spaces between them. -/
def Readable (name : String) : Prop := name ≠ epsilon ∧ ' ' ∉ name.toList

theorem readable_of_mem_rulesOfLine {line : List Char} {rule : String × List String} {name : String}
    (hrule : rule ∈ rulesOfLine line) (hname : name ∈ rule.2) : Readable name := by
  unfold rulesOfLine at hrule
  split at hrule
  next => cases hrule
  next left arrow rest hwords =>
    split at hrule
    next =>
      obtain ⟨alternative, halternative, rfl⟩ := List.mem_map.mp hrule
      obtain ⟨hmem, hne⟩ := List.mem_filter.mp hname
      obtain ⟨word, hword, rfl⟩ :=
        List.mem_map.mp ((of_mem_splitOnP hmem halternative).1)
      refine ⟨of_decide_eq_true hne, fun hspace => ?_⟩
      rw [String.toList_ofList] at hspace
      have hline : word ∈ Text.words line := by
        rw [hwords]
        exact List.mem_cons_of_mem _ (List.mem_cons_of_mem _ hword)
      exact absurd (Text.isBlank_of_mem_words hspace hline) (by decide)
    next => cases hrule
  next => cases hrule

theorem readable_of_mem_terminals {text : String} {start? : Option String} {name : String}
    (h : name ∈ (namedGrammarOf text start?).terminals) : Readable name := by
  obtain ⟨hmem, -⟩ := List.mem_filter.mp (List.mem_eraseDups.mp h)
  obtain ⟨rule, hrule, hname⟩ := List.mem_flatMap.mp hmem
  obtain ⟨line, -, hrule⟩ := List.mem_flatMap.mp hrule
  exact readable_of_mem_rulesOfLine hrule hname

/-- The first name defined is the first left-hand side. -/
theorem getElem?_definedNames_zero {definitions : List Definition}
    {rules : List (String × List String)} (hne : definitions ≠ []) (h : Lists definitions rules) :
    (Definition.definedNames definitions)[0]? = some ((rules.head?.map Prod.fst).getD "") := by
  obtain ⟨first, others, rfl⟩ := List.exists_cons_of_ne_nil hne
  obtain ⟨alternative, alternatives, halternatives⟩ :=
    List.exists_cons_of_ne_nil (h.alternatives_ne_nil first (List.mem_cons_self ..))
  rw [h.rules_eq, Grammar.namedRules_eq_flatMap, List.flatMap_cons, halternatives,
    Definition.definedNames, List.map_cons, List.eraseDups_cons]
  rfl

/-- What is assembled has the start asked for. -/
theorem denotes_assemble {path : String} {start? : Option String} {placed : List Placed}
    {g : Grammar} {rules : List (String × List String)}
    (hlists : Lists (placed.map (·.definition)) rules) (h : assemble path start? placed = .ok g) :
    g.Loaded ∧ g.Denotes ⟨rules, start?.getD ((rules.head?.map Prod.fst).getD "")⟩ := by
  unfold assemble at h
  split at h
  next hfaults =>
    have hne : placed.map (·.definition) ≠ [] := by
      intro hnil
      rw [List.map_eq_nil_iff.mp hnil] at hfaults
      cases hfaults
    cases start? with
    | none =>
      cases h
      refine ⟨.ofDefinitions _, ?_⟩
      have hstart := getElem?_definedNames_zero hne hlists
      obtain ⟨rfl, halternatives⟩ := hlists
      exact Grammar.denotes_ofDefinitions halternatives hstart
    | some start =>
      dsimp only at h
      split at h
      next moved hmoved =>
        cases h
        refine ⟨.withStart (.ofDefinitions _) hmoved, ?_⟩
        obtain ⟨id, hid, rfl⟩ := Option.map_eq_some_iff.mp hmoved
        obtain ⟨hlt, hget, -⟩ := List.idxOf?_eq_some_iff.mp hid
        obtain ⟨rfl, halternatives⟩ := hlists
        exact Grammar.denotes_ofDefinitions halternatives
          (List.getElem?_eq_some_iff.mpr ⟨hlt, hget⟩)
      next => cases h
  next => cases h

/-- **A file that is accepted is text, and the grammar denotes what the text states.** -/
theorem load_eq_ok {path : String} {contents : Except FileError (List UInt8)}
    {start? : Option String} {g : Grammar} (h : load path contents start? = .ok g) :
    ∃ bytes text, contents = .ok bytes ∧ Text.decode? bytes = some text ∧ g.Loaded ∧
      g.Denotes (namedGrammarOf text start?) := by
  unfold load at h
  split at h
  next => cases h
  next bytes =>
    split at h
    next => cases h
    next text htext =>
      rw [Text.eq_encode_of_decode? htext, read_encode] at h
      split at h
      next herrors =>
        have hlists := lists_ruleLines herrors
        rw [← definition_placedLines] at hlists
        exact ⟨bytes, text, rfl, htext, denotes_assemble hlists h⟩
      next => cases h

end Source

end AmbiguitySearch
