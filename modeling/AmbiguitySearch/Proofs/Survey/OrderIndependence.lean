import AmbiguitySearch.Proofs.Search.OrderIndependence
import AmbiguitySearch.Proofs.Survey.Pass

/-!
# Every survey stops at the same word

One rule order serves a whole survey, so that two surveys with different orders
are in unrelated states from the second expansion on. For their tests this makes
no difference until the last one: a search that settles nothing has found fewer
than two derivations, and then every search for the word ends like it, whatever
state its order is in. So a word is passed by both surveys or by neither.

> `pass_alike`: two passes over the same words make the same tests, except that
> the test they stop at may end differently.

> `survey_order_independent`: what that means for the words, the outcomes and the
> verdicts of two surveys.
-/

namespace AmbiguitySearch

/-- The verdict was settled by a test of the word. -/
inductive Verdict.StopsAt (word : Form) : Verdict → Prop where
  | ambiguous (first second : Trace) : StopsAt word (.ambiguous word first second)
  | inconclusive (depthLimit : Nat) : StopsAt word (.inconclusive word depthLimit)

namespace Survey

variable {σ τ : Type} {survey : Survey σ}

theorem stopsAt_of_ruling? {word : Form} {outcome : Outcome} {verdict : Verdict}
    (h : ruling? word outcome = some verdict) : verdict.StopsAt word := by
  rcases outcome_of_ruling?_eq_some h with ⟨limit, -, rfl⟩ | ⟨_, first, second, _, -, rfl⟩
  · exact .inconclusive limit
  · exact .ambiguous first second

/-- The tests of two surveys and their verdicts, as far as they can differ. -/
inductive Alike : List (Form × Outcome) × Verdict → List (Form × Outcome) × Verdict → Prop where
  /-- No test settled the verdict. -/
  | whole (tests : List (Form × Outcome)) (verdict : Verdict) :
    Alike (tests, verdict) (tests, verdict)
  /-- Both verdicts were settled by the last test, which is of one word. -/
  | stopped (tests : List (Form × Outcome)) (word : Form) (outcome outcome' : Outcome)
      {verdict verdict' : Verdict} (stops : verdict.StopsAt word)
      (stops' : verdict'.StopsAt word) :
    Alike (tests ++ [(word, outcome)], verdict) (tests ++ [(word, outcome')], verdict')

theorem Alike.cons (test : Form × Outcome) {made made' : List (Form × Outcome) × Verdict}
    (h : Alike made made') : Alike (test :: made.1, made.2) (test :: made'.1, made'.2) := by
  cases h with
  | whole tests verdict => exact .whole (test :: tests) verdict
  | stopped tests word outcome outcome' stops stops' =>
    exact .stopped (test :: tests) word outcome outcome' stops stops'

theorem Alike.words_eq {made made' : List (Form × Outcome) × Verdict} (h : Alike made made') :
    made.1.map Prod.fst = made'.1.map Prod.fst := by
  cases h with
  | whole => rfl
  | stopped => simp only [List.map_append, List.map_cons]

theorem Alike.dropLast_eq {made made' : List (Form × Outcome) × Verdict} (h : Alike made made') :
    made.1.dropLast = made'.1.dropLast := by
  cases h with
  | whole => rfl
  | stopped => rw [List.dropLast_concat, List.dropLast_concat]

/-- Verdicts that may differ name one word. -/
theorem Alike.verdicts {made made' : List (Form × Outcome) × Verdict} (h : Alike made made') :
    (made.2 = .emptyVocabulary ∧ made'.2 = .emptyVocabulary) ∨
      (∃ length tested, made.2 = .notAmbiguous length tested ∧
        made'.2 = .notAmbiguous length tested) ∨
      ∃ word, made.2.StopsAt word ∧ made'.2.StopsAt word := by
  cases h with
  | stopped _ word _ _ stops stops' => exact .inr (.inr ⟨word, stops, stops'⟩)
  | whole tests verdict =>
    cases verdict with
    | emptyVocabulary => exact .inl ⟨rfl, rfl⟩
    | notAmbiguous length tested => exact .inr (.inl ⟨length, tested, rfl, rfl⟩)
    | ambiguous word first second =>
      exact .inr (.inr ⟨word, .ambiguous first second, .ambiguous first second⟩)
    | inconclusive word depthLimit =>
      exact .inr (.inr ⟨word, .inconclusive depthLimit, .inconclusive depthLimit⟩)

section TwoOrders

variable (g : Grammar) (depthLimit maxLength : Nat) (order : RuleOrder σ) (order' : RuleOrder τ)

/-- Two passes over the same words. The sources are arbitrary, since nothing
relates them after the first word. -/
theorem pass_alike : ∀ (words : List Form) (source : σ) (source' : τ) (tested : Nat),
    Alike (pass ⟨g, order, depthLimit, maxLength⟩ words source tested)
      (pass ⟨g, order', depthLimit, maxLength⟩ words source' tested)
  | [], _, _, _ => .whole [] _
  | word :: words, source, source', tested => by
    rcases hrun : (search ⟨g, order, depthLimit, maxLength⟩ word).run source with ⟨outcome, rest⟩
    rcases hrun' : (search ⟨g, order', depthLimit, maxLength⟩ word).run source' with
      ⟨outcome', rest'⟩
    cases hruling : ruling? word outcome with
    | none =>
      obtain ⟨found, rfl, hfew⟩ := few_of_ruling?_eq_none hrun hruling
      have hsame : outcome' = .found found := Search.outcome_eq_of_few hrun hrun' hfew
      subst hsame
      rw [pass_onward tested hrun hruling, pass_onward tested hrun' hruling]
      exact (pass_alike words rest rest' (tested + 1)).cons _
    | some verdict =>
      cases hruling' : ruling? word outcome' with
      | none =>
        -- the second survey would pass the word, and then so would the first
        obtain ⟨found, rfl, hfew⟩ := few_of_ruling?_eq_none hrun' hruling'
        have hsame : outcome = .found found := Search.outcome_eq_of_few hrun' hrun hfew
        rw [hsame, hruling'] at hruling
        cases hruling
      | some verdict' =>
        rw [pass_settled tested hrun hruling, pass_settled tested hrun' hruling']
        exact .stopped [] word outcome outcome' (stopsAt_of_ruling? hruling)
          (stopsAt_of_ruling? hruling')

theorem made_alike (source : σ) (source' : τ) :
    Alike (made ⟨g, order, depthLimit, maxLength⟩ source)
      (made ⟨g, order', depthLimit, maxLength⟩ source') := by
  unfold made
  split
  next => exact .whole [] .emptyVocabulary
  next => exact pass_alike g depthLimit maxLength order order' _ source source' 0

/-- **Every order stops at the same word.** Two surveys of a grammar test the same
words, and with the same outcomes up to the last one. Neither finds a word, or
neither finds an ambiguity, or both stop at one word, be it because it is
ambiguous or because its search was aborted. -/
theorem survey_order_independent (source : σ) (source' : τ) :
    (outcomes ⟨g, order, depthLimit, maxLength⟩ source).map Prod.fst =
        (outcomes ⟨g, order', depthLimit, maxLength⟩ source').map Prod.fst ∧
      (outcomes ⟨g, order, depthLimit, maxLength⟩ source).dropLast =
        (outcomes ⟨g, order', depthLimit, maxLength⟩ source').dropLast ∧
      ((verdict ⟨g, order, depthLimit, maxLength⟩ source = .emptyVocabulary ∧
          verdict ⟨g, order', depthLimit, maxLength⟩ source' = .emptyVocabulary) ∨
        (∃ length tested,
          verdict ⟨g, order, depthLimit, maxLength⟩ source = .notAmbiguous length tested ∧
            verdict ⟨g, order', depthLimit, maxLength⟩ source' = .notAmbiguous length tested) ∨
        ∃ word, (verdict ⟨g, order, depthLimit, maxLength⟩ source).StopsAt word ∧
          (verdict ⟨g, order', depthLimit, maxLength⟩ source').StopsAt word) := by
  have halike := made_alike g depthLimit maxLength order order' source source'
  rw [outcomes_eq, outcomes_eq, verdict_eq, verdict_eq]
  exact ⟨halike.words_eq, halike.dropLast_eq, halike.verdicts⟩

end TwoOrders

end Survey

end AmbiguitySearch
