import AmbiguitySearch.Proofs.Search.Exactness
import AmbiguitySearch.Proofs.Vocabulary
import AmbiguitySearch.Survey

/-!
# One pass over the words

A survey interleaves three things: it enumerates words, it searches for each,
and it shows the outcomes to an observer. Here they come apart. The words are
known beforehand (`Vocabulary.upTo`), `pass` is the survey on a list of words,
and the observer is told afterwards of the tests made:

> `observed_eq`: an observer is shown the tests of the pass, in order, and has no
> influence on them.

What is left is an induction on the list of words. A pass gets over a word only
if fewer than two derivations were found for it, so that it is made up of such
words, and possibly of one last word that settles the verdict (`pass_cases`).
-/

namespace AmbiguitySearch.Survey

variable {σ β ε : Type} {survey : Survey σ}

/-- The verdict that the outcome for a word settles, if it settles any. -/
def ruling? (word : Form) : Outcome → Option Verdict
  | .aborted depthLimit => some (.inconclusive word depthLimit)
  | .found ⟨_, [first, second], _⟩ => some (.ambiguous word first second)
  | .found _ => none

/-- The tests made on a list of words, up to the first outcome that settles the
verdict, and the verdict. -/
def pass (survey : Survey σ) : List Form → σ → Nat → List (Form × Outcome) × Verdict
  | [], _, tested => ([], .notAmbiguous survey.maxLength tested)
  | word :: words, source, tested =>
    match (survey.search word).run source with
    | (outcome, rest) =>
      match ruling? word outcome with
      | some verdict => ([(word, outcome)], verdict)
      | none =>
        match survey.pass words rest (tested + 1) with
        | (tests, verdict) => ((word, outcome) :: tests, verdict)

/-- The words that a survey has to test. -/
def words (survey : Survey σ) : List Form :=
  (Vocabulary.ofGrammar survey.grammar).upTo survey.maxLength

theorem pass_settled {word : Form} {words : List Form} {source rest : σ} {outcome : Outcome}
    {verdict : Verdict} (tested : Nat) (hrun : (survey.search word).run source = (outcome, rest))
    (hruling : ruling? word outcome = some verdict) :
    survey.pass (word :: words) source tested = ([(word, outcome)], verdict) := by
  rw [pass, hrun]
  dsimp only
  rw [hruling]

theorem pass_onward {word : Form} {words : List Form} {source rest : σ} {outcome : Outcome}
    (tested : Nat) (hrun : (survey.search word).run source = (outcome, rest))
    (hruling : ruling? word outcome = none) :
    survey.pass (word :: words) source tested =
      ((word, outcome) :: (survey.pass words rest (tested + 1)).1,
        (survey.pass words rest (tested + 1)).2) := by
  rw [pass, hrun]
  dsimp only
  rw [hruling]

/-! ## The observer -/

/-- Shows tests to an observer, and the verdict to whoever comes after it. -/
def relay (observe : β → Form → Outcome → Except ε β) (seen : β)
    (made : List (Form × Outcome) × Verdict) : Except ε (β × Verdict) := do
  let seen ← made.1.foldlM (fun seen test => observe seen test.1 test.2) seen
  return (seen, made.2)

theorem relay_cons (observe : β → Form → Outcome → Except ε β) (seen : β) (word : Form)
    (outcome : Outcome) (tests : List (Form × Outcome)) (verdict : Verdict) :
    relay observe seen ((word, outcome) :: tests, verdict) = (do
      let seen ← observe seen word outcome
      relay observe seen (tests, verdict)) := by
  unfold relay
  rw [List.foldlM_cons, bind_assoc]

theorem proceed_of_none {vocabulary : Vocabulary} (observe : β → Form → Outcome → Except ε β)
    (source : σ) (tested : Nat) (seen : β) (hnext : vocabulary.next? = none) :
    survey.proceed observe vocabulary source tested seen =
      .ok (seen, .notAmbiguous survey.maxLength tested) := by
  rw [proceed]
  split
  next => rfl
  next heq => cases hnext.symm.trans heq

theorem proceed_of_long {vocabulary rest : Vocabulary} {word : Form}
    (observe : β → Form → Outcome → Except ε β) (source : σ) (tested : Nat) (seen : β)
    (hnext : vocabulary.next? = some (word, rest)) (hlong : ¬ word.length ≤ survey.maxLength) :
    survey.proceed observe vocabulary source tested seen =
      .ok (seen, .notAmbiguous survey.maxLength tested) := by
  rw [proceed]
  split
  next => rfl
  next heq =>
    cases hnext.symm.trans heq
    exact dif_neg hlong

theorem proceed_of_fits {vocabulary rest : Vocabulary} {word : Form}
    (observe : β → Form → Outcome → Except ε β) {source after : σ} {outcome : Outcome}
    (tested : Nat) (seen : β) (hnext : vocabulary.next? = some (word, rest))
    (hfits : word.length ≤ survey.maxLength)
    (hrun : (survey.search word).run source = (outcome, after)) :
    survey.proceed observe vocabulary source tested seen = (do
      let seen ← observe seen word outcome
      (ruling? word outcome).elim (survey.proceed observe rest after (tested + 1) seen)
        fun verdict => .ok (seen, verdict)) := by
  rw [proceed]
  split
  next heq => cases hnext.symm.trans heq
  next heq =>
    cases hnext.symm.trans heq
    rw [dif_pos hfits, hrun]
    dsimp only
    cases observe seen word outcome with
    | error refusal => rfl
    | ok seen =>
      -- only a list of exactly two witnesses settles anything
      rcases outcome with ⟨count, witnesses, explored⟩ | limit
      · rcases witnesses with _ | ⟨first, _ | ⟨second, _ | ⟨third, others⟩⟩⟩ <;> rfl
      · rfl

/-- Going on from any point of the vocabulary is a pass over the words still to
come. -/
theorem proceed_eq_relay (survey : Survey σ) (observe : β → Form → Outcome → Except ε β)
    (vocabulary : Vocabulary) (source : σ) (tested : Nat) (seen : β) :
    survey.proceed observe vocabulary source tested seen =
      relay observe seen (survey.pass (vocabulary.upTo survey.maxLength) source tested) := by
  match hnext : vocabulary.next? with
  | none =>
    rw [proceed_of_none _ _ _ _ hnext, Vocabulary.upTo_of_none _ hnext]
    rfl
  | some (word, rest) =>
    rw [Vocabulary.upTo_of_some _ hnext]
    by_cases hfits : word.length ≤ survey.maxLength
    · rcases hrun : (survey.search word).run source with ⟨outcome, after⟩
      rw [proceed_of_fits _ _ _ hnext hfits hrun, if_pos hfits]
      cases hruling : ruling? word outcome with
      | none =>
        rw [pass_onward tested hrun hruling, relay_cons]
        exact bind_congr (proceed_eq_relay survey observe rest after (tested + 1))
      | some verdict =>
        rw [pass_settled tested hrun hruling, relay_cons]
        rfl
    · rw [proceed_of_long _ _ _ _ hnext hfits, if_neg hfits]
      rfl
termination_by vocabulary.remaining survey.maxLength
decreasing_by exact Vocabulary.remaining_lt_of_next? hnext hfits

/-- The tests that a survey makes, and its verdict. -/
def made (survey : Survey σ) (source : σ) : List (Form × Outcome) × Verdict :=
  if survey.grammar.vocabularyEmpty then ([], .emptyVocabulary)
  else survey.pass survey.words source 0

/-- **Observers only look on.** Any observer is shown the tests that the survey
makes, in order. -/
theorem observed_eq (survey : Survey σ) (observe : β → Form → Outcome → Except ε β)
    (source : σ) (seen : β) :
    survey.observed observe source seen = relay observe seen (survey.made source) := by
  unfold observed made
  split
  next => rfl
  next => exact survey.proceed_eq_relay observe _ source 0 seen

theorem relay_ok (observe : β → Form → Outcome → β) (seen : β)
    (result : List (Form × Outcome) × Verdict) :
    relay (fun seen word outcome => (.ok (observe seen word outcome) : Except ε β)) seen result =
      .ok (result.1.foldl (fun seen test => observe seen test.1 test.2) seen, result.2) := by
  unfold relay
  rw [show (result.1.foldlM (fun seen test =>
    (.ok (observe seen test.1 test.2) : Except ε β)) seen) = _ from List.foldlM_pure]
  rfl

theorem observedAll_eq (survey : Survey σ) (observe : β → Form → Outcome → β) (source : σ)
    (seen : β) : survey.observedAll observe source seen =
      ((survey.made source).1.foldl (fun seen test => observe seen test.1 test.2) seen,
        (survey.made source).2) := by
  rw [observedAll, observed_eq, relay_ok]

theorem verdict_eq (survey : Survey σ) (source : σ) :
    survey.verdict source = (survey.made source).2 := by
  rw [verdict, observedAll_eq]

theorem outcomes_eq (survey : Survey σ) (source : σ) :
    survey.outcomes source = (survey.made source).1 := by
  rw [outcomes, observedAll_eq]
  simp

/-! ## How far a pass gets -/

/-- Some search for the word settled nothing. -/
def Passed (survey : Survey σ) (word : Form) : Prop :=
  ∃ source rest outcome, (survey.search word).run source = (outcome, rest) ∧
    ruling? word outcome = none

/-- Either every word is passed, or the pass ends at the first word that is not. -/
theorem pass_cases : ∀ (words : List Form) (source : σ) (tested : Nat),
    ((∀ word ∈ words, survey.Passed word) ∧ (survey.pass words source tested).2 =
      .notAmbiguous survey.maxLength (tested + words.length)) ∨
    ∃ passed word left start rest outcome, words = passed ++ word :: left ∧
      (∀ earlier ∈ passed, survey.Passed earlier) ∧
        (survey.search word).run start = (outcome, rest) ∧
          ruling? word outcome = some (survey.pass words source tested).2
  | [], _, _ => .inl ⟨nofun, rfl⟩
  | word :: words, source, tested => by
    rcases hrun : (survey.search word).run source with ⟨outcome, rest⟩
    cases hruling : ruling? word outcome with
    | some verdict =>
      rw [pass_settled tested hrun hruling]
      exact .inr ⟨[], word, words, source, rest, outcome, rfl, nofun, hrun, hruling⟩
    | none =>
      have hword : survey.Passed word := ⟨source, rest, outcome, hrun, hruling⟩
      rw [pass_onward tested hrun hruling]
      rcases pass_cases words rest (tested + 1) with ⟨hall, hverdict⟩ |
        ⟨passed, last, left, start, rest', outcome', hsplit, hpassed, hrun', hruling'⟩
      · refine .inl ⟨List.forall_mem_cons.mpr ⟨hword, hall⟩, ?_⟩
        rw [hverdict, List.length_cons, Nat.add_assoc, Nat.add_comm 1]
      · refine .inr ⟨word :: passed, last, left, start, rest', outcome', ?_,
          List.forall_mem_cons.mpr ⟨hword, hpassed⟩, hrun', hruling'⟩
        rw [hsplit, List.cons_append]

/-- A test shown is one of the words, with what a search for it came to. -/
theorem run_of_mem_pass {test : Form × Outcome} : ∀ {words : List Form} {source : σ} {tested : Nat},
    test ∈ (survey.pass words source tested).1 →
      test.1 ∈ words ∧ ∃ source rest, (survey.search test.1).run source = (test.2, rest)
  | word :: words, source, tested, h => by
    rcases hrun : (survey.search word).run source with ⟨outcome, rest⟩
    cases hruling : ruling? word outcome with
    | some verdict =>
      rw [pass_settled tested hrun hruling] at h
      obtain rfl := List.mem_singleton.mp h
      exact ⟨List.mem_cons_self .., source, rest, hrun⟩
    | none =>
      rw [pass_onward tested hrun hruling] at h
      rcases List.mem_cons.mp h with rfl | hlater
      · exact ⟨List.mem_cons_self .., source, rest, hrun⟩
      · obtain ⟨hmem, hrun'⟩ := run_of_mem_pass hlater
        exact ⟨List.mem_cons_of_mem word hmem, hrun'⟩

theorem found_of_ruling?_eq_none {word : Form} {outcome : Outcome}
    (h : ruling? word outcome = none) :
    ∃ found, outcome = .found found ∧ found.witnesses.length ≠ ambiguityThreshold := by
  match outcome, h with
  | .found ⟨_, [], _⟩, _ => exact ⟨_, rfl, by simp [ambiguityThreshold]⟩
  | .found ⟨_, [_], _⟩, _ => exact ⟨_, rfl, by simp [ambiguityThreshold]⟩
  | .found ⟨_, _ :: _ :: _ :: _, _⟩, _ => exact ⟨_, rfl, by simp [ambiguityThreshold]⟩

/-- A search that settles nothing has found fewer than two derivations. -/
theorem few_of_ruling?_eq_none {word : Form} {source rest : σ} {outcome : Outcome}
    (hrun : (survey.search word).run source = (outcome, rest))
    (hruling : ruling? word outcome = none) :
    ∃ found, outcome = .found found ∧ found.count < ambiguityThreshold := by
  obtain ⟨found, rfl, htwo⟩ := found_of_ruling?_eq_none hruling
  have haccounts := Search.run_found hrun
  rw [← haccounts.count_eq] at htwo
  exact ⟨found, rfl, Nat.lt_of_le_of_ne haccounts.bounded htwo⟩

/-- What a settled verdict was settled by. -/
theorem outcome_of_ruling?_eq_some {word : Form} {outcome : Outcome} {verdict : Verdict}
    (h : ruling? word outcome = some verdict) :
    (∃ limit, outcome = .aborted limit ∧ verdict = .inconclusive word limit) ∨
      ∃ count first second explored, outcome = .found ⟨count, [first, second], explored⟩ ∧
        verdict = .ambiguous word first second := by
  match outcome, h with
  | .aborted limit, h => exact .inl ⟨limit, rfl, (Option.some.inj h).symm⟩
  | .found ⟨count, [first, second], explored⟩, h =>
    exact .inr ⟨count, first, second, explored, rfl, (Option.some.inj h).symm⟩

end AmbiguitySearch.Survey
