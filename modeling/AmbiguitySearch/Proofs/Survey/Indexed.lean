import AmbiguitySearch.Proofs.Odometer
import AmbiguitySearch.Proofs.Report.Spelled
import AmbiguitySearch.Proofs.Survey.Truth

/-!
# The survey over positions

The survey that takes its words from an `Indexed.Odometer` and looks for their
derivations by an `Indexed.Search`, so that every access that it makes is checked. It
makes the tests that `Survey` makes and comes to the same verdict, and what it has
found can be reported.

> `observed_eq`: over a grammar built from definitions no access of a survey is
> out of range.

> `never_outOfRange`: neither is one of a count, whatever the word, nor of a report.

A grammar without nonterminals has no start symbol to begin with. It derives no word,
and its survey is over before the start symbol is asked for.
-/

namespace AmbiguitySearch

namespace Grammar

variable {g : Grammar}

theorem Spells.declares {word : Form} (h : g.Spells word) : ∀ symbol ∈ word, g.Declares symbol := by
  intro symbol hmem
  obtain ⟨id, hid, rfl⟩ := List.mem_map.mp (h symbol hmem)
  exact List.mem_range.mp hid

/-- Who defines nothing uses nothing either. -/
theorem Loaded.vocabularyEmpty_of_nil (hg : g.Loaded) (hnone : g.nonterminals = []) :
    g.vocabularyEmpty = true := by
  induction hg with
  | ofDefinitions definitions =>
    cases definitions with
    | nil => rfl
    | cons first rest =>
      have hnames : Definition.definedNames (first :: rest) = [] := hnone
      rw [Definition.definedNames, List.map_cons, List.eraseDups_cons] at hnames
      cases hnames
  | withStart _ found ih =>
    obtain ⟨hterminals, hnonterminals, hrules, -⟩ := withStart?_eq_some found
    rw [hnonterminals] at hnone
    have hempty := ih hnone
    rw [vocabularyEmpty] at hempty ⊢
    rw [hterminals, hrules]
    exact hempty

end Grammar

/-! ## What a survey reports on -/

namespace Survey

variable {σ : Type} {survey : Survey σ}

/-- A grammar that declares nothing has no word to be tested. -/
theorem made_of_nil (hg : survey.grammar.Loaded) (hnone : survey.grammar.nonterminals = [])
    (source : σ) : survey.made source = ([], .emptyVocabulary) :=
  if_pos (hg.vocabularyEmpty_of_nil hnone)

/-- The tests are made on declared words and find derivations within the tables. -/
theorem declared_of_mem_outcomes (hg : survey.grammar.Loaded) {source : σ} {test : Form × Outcome}
    (h : test ∈ survey.outcomes source) :
    (∀ symbol ∈ test.1, survey.grammar.Declares symbol) ∧ test.2.Declared survey.grammar := by
  rw [outcomes_eq] at h
  have hne : survey.grammar.nonterminals ≠ [] := by
    intro hnone
    rw [made_of_nil hg hnone] at h
    cases h
  unfold made at h
  split at h
  next => cases h
  next =>
    obtain ⟨hmem, start, rest, hrun⟩ := run_of_mem_pass h
    refine ⟨(mem_words.mp hmem).1.declares, ?_⟩
    obtain ⟨word, outcome⟩ := test
    cases outcome with
    | aborted => trivial
    | found found =>
      intro trace htrace
      exact hg.declared_of_admits hne ((Search.run_found hrun).witness_sound htrace).1

/-- So does the verdict. -/
theorem declared_verdict (hg : survey.grammar.Loaded) (source : σ) :
    (survey.verdict source).Declared survey.grammar := by
  by_cases hnone : survey.grammar.nonterminals = []
  · rw [verdict_eq, made_of_nil hg hnone]
    trivial
  have hholds := (survey.verdict_holds hg source).1
  cases hverdict : survey.verdict source with
  | emptyVocabulary => trivial
  | notAmbiguous => trivial
  | inconclusive word limit =>
    rw [hverdict] at hholds
    exact hholds.1.1.declares
  | ambiguous word first second =>
    rw [hverdict] at hholds
    obtain ⟨⟨hspells, -⟩, ⟨hfirst, hsecond, -⟩, -⟩ := hholds
    exact ⟨hspells.declares, hg.declared_of_admits hnone hfirst,
      hg.declared_of_admits hnone hsecond⟩

end Survey

namespace Indexed

/-! ## The survey -/

/-- A survey whose searches and words are looked up by position. -/
structure Survey (σ : Type) where
  grammar : Grammar
  order : IndexOrder σ
  /-- How many steps a derivation may have before its search gives up. -/
  depthLimit : Nat
  /-- The length of the longest words to be tested. -/
  maxLength : Nat

namespace Survey

variable {σ : Type}

/-- The same survey over bodies. -/
def toSurvey (survey : Survey σ) : AmbiguitySearch.Survey σ where
  grammar := survey.grammar
  order := survey.order.toRuleOrder
  depthLimit := survey.depthLimit
  maxLength := survey.maxLength

def search (survey : Survey σ) (word : Form) : Search σ where
  grammar := survey.grammar
  order := survey.order
  depthLimit := survey.depthLimit
  word := word

/-- Goes on with the words of an enumeration after `tested` words, keeping the tests
made. It stops at the first access out of range. -/
def proceed (survey : Survey σ) (odometer : Odometer) (source : σ) (tested : Nat)
    (tests : List (Form × Outcome)) :
    Option (Except OutOfRange (List (Form × Outcome) × Verdict)) :=
  match odometer.next? with
  | .error miss => some (.error miss)
  | .ok none => some (.ok (tests, .notAmbiguous survey.maxLength tested))
  | .ok (some (word, rest)) =>
    if word.length ≤ survey.maxLength then
      match (survey.search word).derive source with
      | none => none
      | some (.error miss) => some (.error miss)
      | some (.ok (outcome, source)) =>
        match AmbiguitySearch.Survey.ruling? word outcome with
        | some verdict => some (.ok (tests ++ [(word, outcome)], verdict))
        -- with `apply` for the reason that `Search.resume` has
        | none => by
          apply proceed
          · exact survey
          · exact rest
          · exact source
          · exact tested + 1
          · exact tests ++ [(word, outcome)]
    else some (.ok (tests, .notAmbiguous survey.maxLength tested))
partial_fixpoint

/-- The survey from the start, with the tests that it makes. -/
def observed (survey : Survey σ) (source : σ) :
    Option (Except OutOfRange (List (Form × Outcome) × Verdict)) :=
  if survey.grammar.vocabularyEmpty then some (.ok ([], .emptyVocabulary))
  else survey.proceed ⟨survey.grammar.alphabet, none⟩ source 0 []

/-- Going on from any point of the enumeration makes the tests of a pass over the words
still to come. -/
theorem proceed_eq_pass (survey : Survey σ) (hg : survey.grammar.Loaded)
    (hne : survey.grammar.nonterminals ≠ []) (vocabulary : Vocabulary) (source : σ) (tested : Nat)
    (tests : List (Form × Outcome)) :
    survey.proceed (.ofVocabulary vocabulary) source tested tests =
      some (.ok (tests ++ (survey.toSurvey.pass (vocabulary.upTo survey.maxLength) source tested).1,
        (survey.toSurvey.pass (vocabulary.upTo survey.maxLength) source tested).2)) := by
  rw [proceed, Odometer.next?_ofVocabulary]
  match hnext : vocabulary.next? with
  | none =>
    rw [Vocabulary.upTo_of_none _ hnext]
    show some (Except.ok (tests, _)) = some (Except.ok (tests ++ [], _))
    rw [List.append_nil]
    rfl
  | some (word, rest) =>
    dsimp only [Option.map_some]
    rw [Vocabulary.upTo_of_some _ hnext]
    by_cases hfits : word.length ≤ survey.maxLength
    · have hderive : (survey.search word).derive source =
          some (.ok ((survey.toSurvey.search word).run source)) :=
        (survey.search word).derive_eq_run hg hne source
      rw [if_pos hfits, if_pos hfits, hderive]
      rcases hrun : (survey.toSurvey.search word).run source with ⟨outcome, after⟩
      dsimp only
      cases hruling : AmbiguitySearch.Survey.ruling? word outcome with
      | some verdict =>
        rw [AmbiguitySearch.Survey.pass_settled tested hrun hruling]
      | none =>
        rw [AmbiguitySearch.Survey.pass_onward tested hrun hruling]
        dsimp only
        rw [proceed_eq_pass survey hg hne rest after, List.append_assoc, List.singleton_append]
    · rw [if_neg hfits, if_neg hfits]
      show some (Except.ok (tests, _)) = some (Except.ok (tests ++ [], _))
      rw [List.append_nil]
      rfl
termination_by vocabulary.remaining survey.maxLength
decreasing_by exact Vocabulary.remaining_lt_of_next? hnext hfits

/-- **No access of a survey is out of range**, and the survey comes to an end, with the
tests and the verdict of `Survey`. -/
theorem observed_eq (survey : Survey σ) (hg : survey.grammar.Loaded) (source : σ) :
    survey.observed source =
      some (.ok (survey.toSurvey.outcomes source, survey.toSurvey.verdict source)) := by
  rw [AmbiguitySearch.Survey.outcomes_eq, AmbiguitySearch.Survey.verdict_eq, observed,
    AmbiguitySearch.Survey.made]
  by_cases hempty : survey.grammar.vocabularyEmpty = true
  · rw [if_pos hempty, if_pos (c := survey.toSurvey.grammar.vocabularyEmpty = true) hempty]
  · -- there is a word to be tested, so there is a start to look for its derivations from
    have hne : survey.grammar.nonterminals ≠ [] := by
      intro hnone
      exact hempty (hg.vocabularyEmpty_of_nil hnone)
    rw [if_neg hempty, if_neg (c := survey.toSurvey.grammar.vocabularyEmpty = true) hempty]
    exact survey.proceed_eq_pass hg hne (.ofGrammar survey.grammar) source 0 []

/-- The order in use gives the survey in use. -/
theorem toSurvey_shuffled (g : Grammar) (depthLimit maxLength : Nat) :
    toSurvey ⟨g, .shuffled, depthLimit, maxLength⟩ = ⟨g, .shuffled, depthLimit, maxLength⟩ := by
  rw [toSurvey, IndexOrder.shuffled_toRuleOrder]

end Survey

/-! ## The statement -/

/-- **No access is ever out of range**, whatever the definitions and wherever the start
is moved to. A survey in the order in use ends with the tests and the verdict of `Survey`,
and all of them can be reported, unless a table would be too wide. With nothing defined
there is no test to make. Otherwise a count ends as well, for any form sought and in
any order. -/
theorem never_outOfRange (definitions : List Definition) (names : List String) :
    let g := names.foldl Grammar.moveStart (.ofDefinitions definitions)
    (∀ (maxLength depthLimit : Nat) (seed : UInt64), ∃ tests verdict,
      Survey.observed ⟨g, .shuffled, depthLimit, maxLength⟩ (.ofSeed seed) =
          some (.ok (tests, verdict)) ∧
        AmbiguitySearch.Survey.outcomes ⟨g, .shuffled, depthLimit, maxLength⟩ (.ofSeed seed) =
          tests ∧
        AmbiguitySearch.Survey.verdict ⟨g, .shuffled, depthLimit, maxLength⟩ (.ofSeed seed) =
          verdict ∧
        (∀ test ∈ tests, Report.InRange (test.2.report g test.1)) ∧
        Report.InRange (verdict.report g) ∧
        (g.nonterminals = [] → tests = [] ∧ verdict = .emptyVocabulary)) ∧
    (g.nonterminals ≠ [] →
      ∀ (σ : Type) (order : IndexOrder σ) (depthLimit : Nat) (word : Form) (source : σ),
        ∃ outcome rest,
          Search.derive ⟨g, order, depthLimit, word⟩ source = some (.ok (outcome, rest)) ∧
            AmbiguitySearch.Search.count ⟨g, order.toRuleOrder, depthLimit, word⟩ source =
              .ok (outcome, rest)) := by
  intro g
  have hg : g.Loaded := (Grammar.Loaded.ofDefinitions definitions).foldl_moveStart names
  refine ⟨?_, ?_⟩
  · intro maxLength depthLimit seed
    have hobserved := Survey.observed_eq ⟨g, .shuffled, depthLimit, maxLength⟩ hg (.ofSeed seed)
    rw [Survey.toSurvey_shuffled] at hobserved
    refine ⟨_, _, hobserved, rfl, rfl, ?_, ?_, ?_⟩
    · intro test hmem
      obtain ⟨hword, houtcome⟩ := AmbiguitySearch.Survey.declared_of_mem_outcomes hg hmem
      exact Outcome.report_inRange hword houtcome
    · exact Verdict.report_inRange (AmbiguitySearch.Survey.declared_verdict hg _)
    · intro hnone
      rw [AmbiguitySearch.Survey.outcomes_eq, AmbiguitySearch.Survey.verdict_eq,
        AmbiguitySearch.Survey.made_of_nil hg hnone]
      exact ⟨rfl, rfl⟩
  · intro hne σ order depthLimit word source
    have hderive := Search.derive_eq_run ⟨g, order, depthLimit, word⟩ hg hne source
    exact ⟨_, _, hderive, AmbiguitySearch.Search.count_eq_run hg hne source⟩

/-- The form sought has a terminal and a nonterminal that are not in the tables, and the
start is moved to a name that is defined and then to one that is not. -/
theorem never_outOfRange_strangers :
    Search.derive ⟨["T", "X"].foldl Grammar.moveStart
        (.ofDefinitions [⟨"S", [["a", "T"]]⟩, ⟨"T", [["S"], []]⟩]),
      .asListed, 10, [.terminal 9, .nonterminal 7]⟩ () = some (.ok (.found ⟨0, [], 4⟩, ())) := by
  have hne : (["T", "X"].foldl Grammar.moveStart
      (.ofDefinitions [⟨"S", [["a", "T"]]⟩, ⟨"T", [["S"], []]⟩])).nonterminals ≠ [] := by decide
  obtain ⟨outcome, rest, hderive, hcount⟩ := (never_outOfRange _ _).2 hne Unit .asListed 10
    [.terminal 9, .nonterminal 7] ()
  rw [AmbiguitySearch.Search.count_eq_run (Grammar.Loaded.foldl_moveStart (.ofDefinitions _) _) hne,
    AmbiguitySearch.Search.run_eq_descent] at hcount
  obtain ⟨rfl, rfl⟩ := Prod.mk.inj (Except.ok.inj hcount)
  exact hderive

end Indexed

end AmbiguitySearch
