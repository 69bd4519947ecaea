import AmbiguitySearch.Proofs.Search.DepthLimit
import AmbiguitySearch.Proofs.Survey.Pass

/-!
# A higher limit changes no verdict

A survey whose verdict is not that a search was given up has had an answer to every word
it tested. Each of them stands under any higher limit and leaves the rule order in the same
state for the next word (`Search.run_of_le`), so that the whole survey runs as before.

> `pass_of_le`: the same tests with the same outcomes, and the same verdict.

> `answers_kept`: no answer is changed by a higher limit, be it of one search, of a list of
> searches or of a survey.
-/

namespace AmbiguitySearch

/-- A verdict that gives up on no word. -/
def Verdict.Conclusive (verdict : Verdict) : Prop :=
  ∀ word depthLimit, verdict ≠ .inconclusive word depthLimit

namespace Survey

variable {σ : Type} {g : Grammar} {order : RuleOrder σ} {limit limit' maxLength : Nat}

theorem pass_of_le (hle : limit ≤ limit') : ∀ {words : List Form} {source : σ} {tested : Nat},
    (pass ⟨g, order, limit, maxLength⟩ words source tested).2.Conclusive →
      pass ⟨g, order, limit', maxLength⟩ words source tested =
        pass ⟨g, order, limit, maxLength⟩ words source tested
  | [], _, _, _ => rfl
  | word :: words, source, tested, h => by
    rcases hrun : (search ⟨g, order, limit, maxLength⟩ word).run source with ⟨outcome, rest⟩
    cases outcome with
    | aborted depthLimit =>
      rw [pass_settled tested hrun rfl] at h
      exact absurd rfl (h word depthLimit)
    | found found =>
      have hrun' : (search ⟨g, order, limit', maxLength⟩ word).run source = (.found found, rest) :=
        Search.run_of_le hle hrun
      cases hruling : ruling? word (.found found) with
      | some verdict => rw [pass_settled tested hrun hruling, pass_settled tested hrun' hruling]
      | none =>
        rw [pass_onward tested hrun hruling] at h ⊢
        rw [pass_onward tested hrun' hruling, pass_of_le hle h]

theorem made_of_le (hle : limit ≤ limit') {source : σ}
    (h : (made ⟨g, order, limit, maxLength⟩ source).2.Conclusive) :
    made ⟨g, order, limit', maxLength⟩ source = made ⟨g, order, limit, maxLength⟩ source := by
  unfold made at h ⊢
  by_cases hempty : g.vocabularyEmpty = true
  · rw [if_pos hempty, if_pos hempty]
  · rw [if_neg hempty] at h ⊢
    rw [if_neg hempty]
    exact pass_of_le hle h

/-- **A higher limit changes no answer.** What is found for a word, with the witnesses in
their order, the number of forms and the state the rule order is left in, is found under any
higher limit. So it is for words in turn that are all answered, and for a survey unless it
gives up on a word: it makes the same tests with the same outcomes and comes to the same
verdict. -/
theorem answers_kept (g : Grammar) (order : RuleOrder σ) (hle : limit ≤ limit') :
    (∀ word source found rest,
      Search.count ⟨g, order, limit, word⟩ source = .ok (.found found, rest) →
        Search.count ⟨g, order, limit', word⟩ source = .ok (.found found, rest)) ∧
    (∀ words source outcomes rest,
      Search.countEach g order limit words source = .ok (outcomes, rest) →
        (∀ outcome ∈ outcomes, ∃ found, outcome = .found found) →
          Search.countEach g order limit' words source = .ok (outcomes, rest)) ∧
    ∀ maxLength source, (verdict ⟨g, order, limit, maxLength⟩ source).Conclusive →
      verdict ⟨g, order, limit', maxLength⟩ source = verdict ⟨g, order, limit, maxLength⟩ source ∧
        outcomes ⟨g, order, limit', maxLength⟩ source =
          outcomes ⟨g, order, limit, maxLength⟩ source := by
  refine ⟨fun word source found rest h => Search.count_of_le hle h,
    fun words source outcomes rest h => Search.countEach_of_le hle h, ?_⟩
  intro maxLength source h
  rw [verdict_eq] at h
  rw [verdict_eq, verdict_eq, outcomes_eq, outcomes_eq, made_of_le hle h]
  exact ⟨rfl, rfl⟩

/-- Two steps are enough to find two derivations in a grammar that has infinitely many for
one word. A thousand find the same two. -/
theorem answers_kept_unitLoop :
    (∃ found, Search.count ⟨unitLoop, .asListed, 1000, [.terminal 0]⟩ () =
        .ok (.found found, ()) ∧ found.count = 2 ∧ found.explored = 4) ∧
    (∃ found, Search.countEach unitLoop .asListed 1000 [[], [.terminal 0]] () =
        .ok ([.found ⟨0, [], 1⟩, .found found], ()) ∧ found.count = 2) ∧
    ∃ first second, verdict ⟨unitLoop, .asListed, 1000, 1⟩ () =
      .ambiguous [.terminal 0] first second := by
  obtain ⟨survey, hsurvey⟩ : ∃ survey : Survey Unit, survey = ⟨unitLoop, .asListed, 2, 1⟩ :=
    ⟨_, rfl⟩
  have hnil : (survey.search []).run () = (.found ⟨0, [], 1⟩, ()) := by
    rw [hsurvey, Search.run_eq_descent]
    rfl
  obtain ⟨first, second, hletter⟩ : ∃ first second, (survey.search [.terminal 0]).run () =
      (.found ⟨2, [first, second], 4⟩, ()) := by
    rw [hsurvey, Search.run_eq_descent]
    exact ⟨_, _, rfl⟩
  have hwords : survey.words = [[], [.terminal 0]] := by
    rw [hsurvey, words, Vocabulary.ofGrammar, Vocabulary.upTo_ofAlphabet (by decide)]
    rfl
  have hverdict := survey.verdict_eq ()
  rw [made, if_neg (by rw [hsurvey]; decide), hwords, pass_onward 0 hnil rfl,
    pass_settled 1 hletter rfl] at hverdict
  subst hsurvey
  have hdeclared : ∀ word : Form, [unitLoop.startSymbol] ≠ word →
      ∃ vanishes, unitLoop.nullability unitLoop.startSymbol = .ok vanishes := fun _ _ => ⟨_, rfl⟩
  have hcount : Search.count ⟨unitLoop, .asListed, 2, [.terminal 0]⟩ () =
      .ok (.found ⟨2, [first, second], 4⟩, ()) :=
    Search.count_eq_ok_iff.mpr ⟨hdeclared _, hletter⟩
  have hempty : Search.count ⟨unitLoop, .asListed, 2, []⟩ () = .ok (.found ⟨0, [], 1⟩, ()) :=
    Search.count_eq_ok_iff.mpr ⟨hdeclared _, hnil⟩
  have heach : Search.countEach unitLoop .asListed 2 [[], [.terminal 0]] () =
      .ok ([.found ⟨0, [], 1⟩, .found ⟨2, [first, second], 4⟩], ()) :=
    Search.countEach_cons hempty (Search.countEach_cons hcount rfl)
  obtain ⟨hcounts, heaches, hverdicts⟩ :=
    answers_kept unitLoop .asListed (show 2 ≤ 1000 by decide)
  refine ⟨⟨_, hcounts _ _ _ _ hcount, rfl, rfl⟩, ⟨_, heaches _ _ _ _ heach ?_, rfl⟩,
    first, second, ?_⟩
  · intro outcome hmem
    simp only [List.mem_cons, List.not_mem_nil, or_false] at hmem
    rcases hmem with rfl | rfl
    · exact ⟨_, rfl⟩
    · exact ⟨_, rfl⟩
  · have hconclusive : (verdict ⟨unitLoop, .asListed, 2, 1⟩ ()).Conclusive := by
      rw [hverdict]
      nofun
    rw [(hverdicts 1 () hconclusive).1, hverdict]

end Survey

end AmbiguitySearch
