import AmbiguitySearch.Proofs.Survey.OrderIndependence
import AmbiguitySearch.Proofs.Survey.Truth

/-!
# A longer bound only extends a survey

The bound on the length of words says where a survey ends that nothing else has ended. The
words come in shortlex order, so a longer bound adds longer words after those of the shorter
one, and up to there the two surveys are one: the same searches, with the rule order in the
same state.

> `pass_extends`: a pass over more words goes on where the shorter one left off, if that one
> did not stop before.

Whatever the bound, a verdict about a word was settled by the last test, and no test before
that one could have settled any (`pass_concluded`). So the tests say by themselves what the
verdict is:

> `survey_extended`: the tests and the verdicts of two surveys that differ in their bounds.
-/

namespace AmbiguitySearch

namespace Vocabulary

variable {length length' : Nat}

/-- Words that fit a length fit a greater one. -/
theorem upTo_isPrefix (hle : length ≤ length') (vocabulary : Vocabulary) :
    vocabulary.upTo length <+: vocabulary.upTo length' := by
  match hnext : vocabulary.next? with
  | none =>
    rw [upTo_of_none _ hnext]
    exact List.nil_prefix
  | some (word, rest) =>
    rw [upTo_of_some _ hnext, upTo_of_some _ hnext]
    by_cases hfits : word.length ≤ length
    · rw [if_pos hfits, if_pos (Nat.le_trans hfits hle)]
      exact (List.prefix_cons_inj word).mpr (upTo_isPrefix hle rest)
    · rw [if_neg hfits]
      exact List.nil_prefix
termination_by vocabulary.remaining length
decreasing_by exact remaining_lt_of_next? hnext hfits

/-- Of the words up to a length, those up to a smaller one come first, and only longer ones
come after them. -/
theorem exists_upTo_append (g : Grammar) (hle : length ≤ length') :
    ∃ longer, (ofGrammar g).upTo length' = (ofGrammar g).upTo length ++ longer ∧
      ∀ word ∈ longer, length < word.length := by
  obtain ⟨longer, hwords⟩ := upTo_isPrefix hle (ofGrammar g)
  refine ⟨longer, hwords.symm, fun word hmem => ?_⟩
  by_contra hshort
  -- a word that is not longer would be among those before it as well
  have hall : word ∈ (ofGrammar g).upTo length' := by
    rw [← hwords]
    exact List.mem_append_right _ hmem
  have hbefore : word ∈ (ofGrammar g).upTo length :=
    mem_upTo.mpr ⟨(mem_upTo.mp hall).1, Nat.le_of_not_lt hshort⟩
  have hsorted := pairwise_upTo_ofGrammar g length'
  rw [← hwords, List.pairwise_append] at hsorted
  exact irrefl word (hsorted.2.2 word hbefore word hmem)

end Vocabulary

namespace Survey

variable {σ : Type} {survey : Survey σ} {g : Grammar} {order : RuleOrder σ}
  {depthLimit maxLength maxLength' : Nat}

/-! ## More words -/

/-- The tests and the verdict of a survey, and what becomes of them if there are words left to
test after those it was made for. -/
inductive Extends (maxLength : Nat) (left : List Form) :
    List (Form × Outcome) × Verdict → List (Form × Outcome) × Verdict → Prop
  /-- The verdict was settled before. -/
  | settled (tests : List (Form × Outcome)) {verdict : Verdict}
      (settles : ∀ length tested, verdict ≠ .notAmbiguous length tested) :
    Extends maxLength left (tests, verdict) (tests, verdict)
  /-- The survey goes on, with words that are left. -/
  | onward (tests : List (Form × Outcome)) (tested : Nat) {later : List (Form × Outcome)}
      (verdict : Verdict) (added : ∀ test ∈ later, test.1 ∈ left) :
    Extends maxLength left (tests, .notAmbiguous maxLength tested) (tests ++ later, verdict)

theorem Extends.cons {left : List Form} (test : Form × Outcome)
    {made made' : List (Form × Outcome) × Verdict} (h : Extends maxLength left made made') :
    Extends maxLength left (test :: made.1, made.2) (test :: made'.1, made'.2) := by
  cases h with
  | settled tests settles => exact .settled (test :: tests) settles
  | onward tests tested verdict added => exact .onward (test :: tests) tested verdict added

section Extends

variable {left : List Form} {made made' : List (Form × Outcome) × Verdict}

theorem Extends.isPrefix (h : Extends maxLength left made made') : made.1 <+: made'.1 := by
  cases h with
  | settled => exact List.prefix_rfl
  | onward => exact List.prefix_append _ _

theorem Extends.verdict_eq (h : Extends maxLength left made made')
    (hsettled : ∀ length tested, made.2 ≠ .notAmbiguous length tested) : made'.2 = made.2 := by
  cases h with
  | settled => rfl
  | onward tests tested => exact absurd rfl (hsettled maxLength tested)

theorem Extends.mem_left (h : Extends maxLength left made made') {length tested : Nat}
    (hverdict : made.2 = .notAmbiguous length tested) {test : Form × Outcome}
    (hmem : test ∈ made'.1.drop made.1.length) : test.1 ∈ left := by
  cases h with
  | settled tests settles => exact absurd hverdict (settles length tested)
  | onward tests tested verdict added =>
    rw [List.drop_left] at hmem
    exact added test hmem

end Extends

theorem ne_notAmbiguous_of_ruling? {word : Form} {outcome : Outcome} {verdict : Verdict}
    (h : ruling? word outcome = some verdict) (length tested : Nat) :
    verdict ≠ .notAmbiguous length tested := by
  rintro rfl
  cases stopsAt_of_ruling? h

/-- **A pass over more words.** Of the bound itself a pass makes no use but to name it in the
end. -/
theorem pass_extends (left : List Form) : ∀ (words : List Form) (source : σ) (tested : Nat),
    Extends maxLength left (pass ⟨g, order, depthLimit, maxLength⟩ words source tested)
      (pass ⟨g, order, depthLimit, maxLength'⟩ (words ++ left) source tested)
  | [], _, tested => .onward [] tested _ fun _ hmem => (run_of_mem_pass hmem).1
  | word :: words, source, tested => by
    rcases hrun : (search ⟨g, order, depthLimit, maxLength⟩ word).run source with ⟨outcome, rest⟩
    have hrun' : (search ⟨g, order, depthLimit, maxLength'⟩ word).run source = (outcome, rest) :=
      hrun
    rw [List.cons_append]
    cases hruling : ruling? word outcome with
    | some verdict =>
      rw [pass_settled tested hrun hruling, pass_settled tested hrun' hruling]
      exact .settled _ (ne_notAmbiguous_of_ruling? hruling)
    | none =>
      rw [pass_onward tested hrun hruling, pass_onward tested hrun' hruling]
      exact (pass_extends left words rest (tested + 1)).cons _

/-- A survey under a longer bound has longer words left to test. -/
theorem made_extends (g : Grammar) (order : RuleOrder σ) (depthLimit : Nat)
    (hle : maxLength ≤ maxLength') (source : σ) :
    ∃ longer, (∀ word ∈ longer, maxLength < word.length) ∧
      Extends maxLength longer (made ⟨g, order, depthLimit, maxLength⟩ source)
        (made ⟨g, order, depthLimit, maxLength'⟩ source) := by
  obtain ⟨longer, hwords, hlonger⟩ := Vocabulary.exists_upTo_append g hle
  refine ⟨longer, hlonger, ?_⟩
  unfold made words
  split
  next => exact .settled [] nofun
  next =>
    rw [hwords]
    exact pass_extends longer _ source 0

/-! ## The last test -/

/-- The search was not given up, and found one derivation at most. -/
def Passing (outcome : Outcome) : Prop := ∃ found, outcome = .found found ∧ found.count ≤ 1

/-- The tests of a survey with its verdict. A verdict about a word was settled by the last
test, and all tests before it were passed. -/
inductive Concluded : List (Form × Outcome) × Verdict → Prop
  | unsettled {tests : List (Form × Outcome)} (passed : ∀ test ∈ tests, Passing test.2)
      {verdict : Verdict} (silent : ∀ word, ¬ verdict.StopsAt word) : Concluded (tests, verdict)
  | ambiguous {tests : List (Form × Outcome)} (passed : ∀ test ∈ tests, Passing test.2)
      (word : Form) (first second : Trace) (explored : Nat) :
    Concluded (tests ++ [(word, .found ⟨2, [first, second], explored⟩)],
      .ambiguous word first second)
  | inconclusive {tests : List (Form × Outcome)} (passed : ∀ test ∈ tests, Passing test.2)
      (word : Form) (depthLimit : Nat) :
    Concluded (tests ++ [(word, .aborted depthLimit)], .inconclusive word depthLimit)

/-- One more test, passed before the others. -/
theorem Concluded.cons {test : Form × Outcome} {made : List (Form × Outcome) × Verdict}
    (hpassed : Passing test.2) (h : Concluded made) : Concluded (test :: made.1, made.2) := by
  cases h with
  | unsettled passed silent => exact .unsettled (List.forall_mem_cons.mpr ⟨hpassed, passed⟩) silent
  | ambiguous passed word first second explored =>
    exact .ambiguous (List.forall_mem_cons.mpr ⟨hpassed, passed⟩) word first second explored
  | inconclusive passed word depthLimit =>
    exact .inconclusive (List.forall_mem_cons.mpr ⟨hpassed, passed⟩) word depthLimit

/-- A test that settles the verdict, alone. -/
theorem concluded_of_ruling? {word : Form} {source rest : σ} {outcome : Outcome}
    {verdict : Verdict} (hrun : (survey.search word).run source = (outcome, rest))
    (hruling : ruling? word outcome = some verdict) : Concluded ([(word, outcome)], verdict) := by
  rcases outcome_of_ruling?_eq_some hruling with ⟨limit, rfl, rfl⟩ |
    ⟨count, first, second, explored, rfl, rfl⟩
  · exact .inconclusive (List.forall_mem_nil _) word limit
  · have hcount : count = 2 := (Search.run_found hrun).count_eq
    subst hcount
    exact .ambiguous (List.forall_mem_nil _) word first second explored

/-- **Only the last test settles anything.** -/
theorem pass_concluded (survey : Survey σ) : ∀ (words : List Form) (source : σ) (tested : Nat),
    Concluded (survey.pass words source tested)
  | [], _, _ => .unsettled (List.forall_mem_nil _) fun _ => nofun
  | word :: words, source, tested => by
    rcases hrun : (survey.search word).run source with ⟨outcome, rest⟩
    cases hruling : ruling? word outcome with
    | some verdict =>
      rw [pass_settled tested hrun hruling]
      exact concluded_of_ruling? hrun hruling
    | none =>
      rw [pass_onward tested hrun hruling]
      obtain ⟨found, rfl, hfew⟩ := few_of_ruling?_eq_none hrun hruling
      have hpassed : Passing (.found found) := ⟨found, rfl, Nat.le_of_lt_succ hfew⟩
      exact (pass_concluded survey words rest (tested + 1)).cons hpassed

theorem made_concluded (survey : Survey σ) (source : σ) : Concluded (survey.made source) := by
  unfold made
  split
  next => exact .unsettled (List.forall_mem_nil _) fun _ => nofun
  next => exact survey.pass_concluded _ source 0

/-- What the tests of a survey say about its verdict. -/
structure LastSettles (tests : List (Form × Outcome)) (verdict : Verdict) : Prop where
  /-- The searches before the last one were not given up and found one derivation at most. -/
  earlier : ∀ test ∈ tests.dropLast, ∃ found, test.2 = .found found ∧ found.count ≤ 1
  /-- Two derivations found by the last search are the verdict, with its witnesses. -/
  ambiguous : ∀ word found, tests.getLast? = some (word, .found found) → found.count = 2 →
    ∃ first second, found.witnesses = [first, second] ∧ verdict = .ambiguous word first second
  /-- There is no such verdict otherwise. -/
  two : ∀ word first second, verdict = .ambiguous word first second →
    ∃ found, tests.getLast? = some (word, .found found) ∧ found.count = 2 ∧
      found.witnesses = [first, second]
  /-- The last search was given up exactly if that is the verdict. -/
  inconclusive_iff : ∀ word depthLimit, verdict = .inconclusive word depthLimit ↔
    tests.getLast? = some (word, .aborted depthLimit)

theorem Concluded.lastSettles {made : List (Form × Outcome) × Verdict} (h : Concluded made) :
    LastSettles made.1 made.2 := by
  cases h with
  | unsettled passed silent =>
    have hpassed : ∀ {word outcome}, List.getLast? _ = some (word, outcome) → Passing outcome :=
      fun hlast => passed _ (List.mem_of_getLast? hlast)
    refine ⟨fun test hmem => passed test (List.mem_of_mem_dropLast hmem), ?_, ?_, ?_⟩
    · intro word found hlast htwo
      obtain ⟨_, heq, hfew⟩ := hpassed hlast
      cases heq
      omega
    · rintro word first second rfl
      exact absurd (.ambiguous first second) (silent word)
    · intro word depthLimit
      constructor
      · rintro rfl
        exact absurd (.inconclusive depthLimit) (silent word)
      · intro hlast
        obtain ⟨_, heq, -⟩ := hpassed hlast
        cases heq
  | ambiguous passed word first second explored =>
    refine ⟨?_, ?_, ?_, ?_⟩
    · rw [List.dropLast_concat]
      exact passed
    · intro word' found hlast _
      rw [List.getLast?_concat] at hlast
      cases hlast
      exact ⟨first, second, rfl, rfl⟩
    · intro word' first' second' hverdict
      cases hverdict
      exact ⟨_, List.getLast?_concat, rfl, rfl⟩
    · intro word' depthLimit
      rw [List.getLast?_concat]
      exact ⟨nofun, nofun⟩
  | inconclusive passed word depthLimit =>
    refine ⟨?_, ?_, nofun, ?_⟩
    · rw [List.dropLast_concat]
      exact passed
    · intro word' found hlast
      rw [List.getLast?_concat] at hlast
      cases hlast
    · intro word' depthLimit'
      rw [List.getLast?_concat]
      constructor
      · intro hverdict
        cases hverdict
        rfl
      · intro hlast
        cases hlast
        rfl

/-! ## The statement -/

/-- **A longer bound only extends a survey.** The tests under the shorter bound are made under
the longer one as well, with the same outcomes, before all others. A verdict under the shorter
bound stands, unless it is that no word was found; then all words that the longer survey still
tests are longer than the shorter bound. In every survey it is the last test, and no other,
that settles a verdict about a word. -/
theorem survey_extended (g : Grammar) (order : RuleOrder σ) (depthLimit : Nat)
    (hle : maxLength ≤ maxLength') (source : σ) :
    outcomes ⟨g, order, depthLimit, maxLength⟩ source <+:
        outcomes ⟨g, order, depthLimit, maxLength'⟩ source ∧
      ((∀ length tested,
          verdict ⟨g, order, depthLimit, maxLength⟩ source ≠ .notAmbiguous length tested) →
        verdict ⟨g, order, depthLimit, maxLength'⟩ source =
          verdict ⟨g, order, depthLimit, maxLength⟩ source) ∧
      (∀ length tested,
        verdict ⟨g, order, depthLimit, maxLength⟩ source = .notAmbiguous length tested →
          ∀ test ∈ (outcomes ⟨g, order, depthLimit, maxLength'⟩ source).drop
              (outcomes ⟨g, order, depthLimit, maxLength⟩ source).length,
            maxLength < test.1.length) ∧
      ∀ bound, LastSettles (outcomes ⟨g, order, depthLimit, bound⟩ source)
        (verdict ⟨g, order, depthLimit, bound⟩ source) := by
  obtain ⟨longer, hlonger, hextends⟩ := made_extends g order depthLimit hle source
  simp only [outcomes_eq, verdict_eq]
  refine ⟨hextends.isPrefix, hextends.verdict_eq, ?_,
    fun bound => (made_concluded _ source).lastSettles⟩
  intro length tested hverdict test hmem
  exact hlonger _ (hextends.mem_left hverdict hmem)

/-- Under the bounds nought and one, surveys of a grammar with a loop. -/
theorem made_unitLoop : ∃ first second,
    made ⟨unitLoop, .asListed, 2, 0⟩ () = ([([], .found ⟨0, [], 1⟩)], .notAmbiguous 0 1) ∧
      made ⟨unitLoop, .asListed, 2, 1⟩ () =
        ([([], .found ⟨0, [], 1⟩), ([.terminal 0], .found ⟨2, [first, second], 4⟩)],
          .ambiguous [.terminal 0] first second) := by
  obtain ⟨survey, hsurvey⟩ : ∃ survey : Nat → Survey Unit,
    survey = fun bound => ⟨unitLoop, .asListed, 2, bound⟩ := ⟨_, rfl⟩
  have hnonempty : ∀ bound, ¬ (survey bound).grammar.vocabularyEmpty = true := by
    intro bound
    rw [hsurvey]
    exact Bool.false_ne_true
  have hnone : (survey 0).words = [[]] := by
    rw [hsurvey, words, Vocabulary.ofGrammar, Vocabulary.upTo_ofAlphabet (by decide)]
    rfl
  have hone : (survey 1).words = [[], [.terminal 0]] := by
    rw [hsurvey, words, Vocabulary.ofGrammar, Vocabulary.upTo_ofAlphabet (by decide)]
    rfl
  have hnil : ∀ bound, ((survey bound).search []).run () = (.found ⟨0, [], 1⟩, ()) := by
    intro bound
    rw [hsurvey, Search.run_eq_descent]
    rfl
  obtain ⟨first, second, hletter⟩ : ∃ first second, ((survey 1).search [.terminal 0]).run () =
      (.found ⟨2, [first, second], 4⟩, ()) := by
    rw [hsurvey, Search.run_eq_descent]
    exact ⟨_, _, rfl⟩
  refine ⟨first, second, ?_, ?_⟩
  · have hmade : (survey 0).made () = (survey 0).pass (survey 0).words () 0 :=
      if_neg (hnonempty 0)
    rw [hnone, pass_onward 0 (hnil 0) rfl] at hmade
    subst hsurvey
    exact hmade
  · have hmade : (survey 1).made () = (survey 1).pass (survey 1).words () 0 :=
      if_neg (hnonempty 1)
    rw [hone, pass_onward 0 (hnil 1) rfl, pass_settled 1 hletter rfl] at hmade
    subst hsurvey
    exact hmade

/-- A survey that allows the empty word only has all its words before it under the bound one,
and what stops it there stops it under any other bound. -/
theorem survey_extended_unitLoop :
    (∀ test ∈ (outcomes ⟨unitLoop, .asListed, 2, 1⟩ ()).drop 1, 0 < test.1.length) ∧
      ∃ first second, verdict ⟨unitLoop, .asListed, 2, 1000⟩ () =
          .ambiguous [.terminal 0] first second ∧
        [([], .found ⟨0, [], 1⟩), ([.terminal 0], .found ⟨2, [first, second], 4⟩)] <+:
          outcomes ⟨unitLoop, .asListed, 2, 1000⟩ () := by
  obtain ⟨first, second, hnone, hone⟩ := made_unitLoop
  obtain ⟨-, -, hlonger, -⟩ := survey_extended unitLoop .asListed 2 (Nat.zero_le 1) ()
  obtain ⟨hbegins, hstands, -, -⟩ :=
    survey_extended unitLoop .asListed 2 (show 1 ≤ 1000 by decide) ()
  rw [verdict_eq, outcomes_eq ⟨unitLoop, .asListed, 2, 0⟩, hnone] at hlonger
  rw [verdict_eq ⟨unitLoop, .asListed, 2, 1⟩, hone] at hstands
  rw [outcomes_eq ⟨unitLoop, .asListed, 2, 1⟩, hone] at hbegins
  exact ⟨hlonger 0 1 rfl, first, second, hstands nofun, hbegins⟩

end Survey

end AmbiguitySearch
