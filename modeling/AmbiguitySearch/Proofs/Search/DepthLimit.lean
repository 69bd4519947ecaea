import AmbiguitySearch.Proofs.Grammar.Definition
import AmbiguitySearch.Proofs.Search.Coverage
import AmbiguitySearch.Search.Count

/-!
# A higher limit changes no answer

A search reads its limit at one place: before it expands a form. As long as the limit
does not stop it there, it does what it would do under any higher limit, draw by draw. So
a search that finishes has an answer that no higher limit changes, and leaves the rule
order in the state that any higher limit would leave it in.

> `descend_of_le`: the recursion does not notice that it has been given more room.

Since the state of the rule order goes on from word to word, the two of them together are
what is needed for a list of words (`countEach_of_le`).
-/

namespace AmbiguitySearch.Search

variable {σ : Type} {search : Search σ} {limit limit' : Nat} {source rest : σ}

/-- The same search with another limit on the steps of a derivation. -/
def withLimit (search : Search σ) (depthLimit : Nat) : Search σ := { search with depthLimit }

/-! ## One search -/

/-- Trying bodies, provided that more room makes no difference to any of them. -/
theorem foldlM_attempt_of_le {room room' position nonterminal : Nat} {form : Form}
    {taken : List Step}
    (hdeeper : ∀ (body : Form) {tally after : Tally σ},
      search.descend room (form.splice position 1 body)
          (taken ++ [stepAt form position nonterminal body]) tally = .ok after →
        (search.withLimit limit).descend room' (form.splice position 1 body)
          (taken ++ [stepAt form position nonterminal body]) tally = .ok after) :
    ∀ {bodies : List Form} {tally after : Tally σ},
      bodies.foldlM (search.attempt room form taken position nonterminal) tally = .ok after →
        bodies.foldlM ((search.withLimit limit).attempt room' form taken position nonterminal)
          tally = .ok after
  | [], tally, after, h => h
  | body :: bodies, tally, after, h => by
    rw [List.foldlM_cons] at h ⊢
    obtain ⟨middle, hbody, hbodies⟩ := bind_eq_ok h
    have hbody' : (search.withLimit limit).attempt room' form taken position nonterminal tally
        body = .ok middle := by
      unfold attempt at hbody ⊢
      by_cases hknown : ambiguityThreshold ≤ tally.witnesses.length
      · rw [if_pos hknown] at hbody ⊢
        exact hbody
      · rw [if_neg hknown] at hbody ⊢
        exact hdeeper body hbody
    rw [hbody']
    exact foldlM_attempt_of_le hdeeper hbodies

/-- **More room, same result.** The limit itself plays no part in the recursion, only the
room that is left. -/
theorem descend_of_le : ∀ {room room' : Nat} {form : Form} {taken : List Step}
    {tally after : Tally σ}, room ≤ room' → search.descend room form taken tally = .ok after →
      (search.withLimit limit).descend room' form taken tally = .ok after
  | room, room', form, taken, tally, after, hle, h => by
    have hstatus : (search.withLimit limit).grammar.status (search.withLimit limit).word form =
        search.grammar.status search.word form := rfl
    cases hs : search.grammar.status search.word form with
    | derived =>
      rw [descend_derived hs] at h
      rw [descend_derived (hstatus.trans hs)]
      exact h
    | deadEnd =>
      rw [descend_deadEnd hs] at h
      rw [descend_deadEnd (hstatus.trans hs)]
      exact h
    | live position nonterminal =>
      cases room with
      | zero =>
        -- no room at all ends in an abort
        rw [descend_live_zero hs] at h
        cases h
      | succ room =>
        obtain ⟨room', rfl⟩ : ∃ more, room' = more + 1 := ⟨room' - 1, by omega⟩
        rw [descend_live_succ hs] at h
        rw [descend_live_succ (hstatus.trans hs)]
        exact foldlM_attempt_of_le (fun _ => descend_of_le (Nat.le_of_succ_le_succ hle)) h

/-- A search that finishes under a limit finishes alike under any higher one, and leaves
the rule order in the same state. -/
theorem run_of_le {found : Derivations} (hle : search.depthLimit ≤ limit)
    (h : search.run source = (.found found, rest)) :
    (search.withLimit limit).run source = (.found found, rest) := by
  rw [run_eq_conclude] at h ⊢
  cases hdescend : search.descend search.depthLimit search.start [] ⟨[], 0, source⟩ with
  | error source' =>
    rw [hdescend] at h
    cases h
  | ok tally =>
    have hmore : (search.withLimit limit).descend limit search.start [] ⟨[], 0, source⟩ =
        .ok tally := descend_of_le hle hdescend
    rw [hdescend] at h
    rw [show (search.withLimit limit).descend (search.withLimit limit).depthLimit
      (search.withLimit limit).start [] ⟨[], 0, source⟩ = .ok tally from hmore]
    exact h

/-- A count is a run, unless it is asked for facts about a start that is not declared. -/
theorem count_eq_ok_iff {result : Outcome × σ} : search.count source = .ok result ↔
    (search.start ≠ search.word →
      ∃ vanishes, search.grammar.nullability search.grammar.startSymbol = .ok vanishes) ∧
      search.run source = result := by
  unfold count
  by_cases hasked : search.start ≠ search.word
  · rw [if_pos hasked]
    cases hdeclared : search.grammar.nullability search.grammar.startSymbol with
    | error miss =>
      refine ⟨nofun, fun h => ?_⟩
      obtain ⟨vanishes, heq⟩ := h.1 hasked
      cases heq
    | ok vanishes =>
      exact ⟨fun h => ⟨fun _ => ⟨vanishes, rfl⟩, Except.ok.inj h⟩, fun h => congrArg _ h.2⟩
  · rw [if_neg hasked]
    exact ⟨fun h => ⟨fun hne => absurd hne hasked, Except.ok.inj h⟩, fun h => congrArg _ h.2⟩

/-- Whether the start is declared has nothing to do with the limit. -/
theorem count_of_le {found : Derivations} (hle : search.depthLimit ≤ limit)
    (h : search.count source = .ok (.found found, rest)) :
    (search.withLimit limit).count source = .ok (.found found, rest) := by
  obtain ⟨hdeclared, hrun⟩ := count_eq_ok_iff.mp h
  exact count_eq_ok_iff.mpr ⟨hdeclared, run_of_le hle hrun⟩

/-! ## One word after the other -/

theorem countEach_cons {g : Grammar} {order : RuleOrder σ} {word : Form} {words : List Form}
    {source middle rest : σ} {outcome : Outcome} {outcomes : List Outcome}
    (hword : count ⟨g, order, limit, word⟩ source = .ok (outcome, middle))
    (hwords : countEach g order limit words middle = .ok (outcomes, rest)) :
    countEach g order limit (word :: words) source = .ok (outcome :: outcomes, rest) := by
  rw [countEach, hword]
  show (countEach g order limit words middle >>= fun counted =>
    pure (outcome :: counted.1, counted.2)) = _
  rw [hwords]
  rfl

/-- Counts that are all answered are answered alike under any higher limit. -/
theorem countEach_of_le {g : Grammar} {order : RuleOrder σ} (hle : limit ≤ limit') :
    ∀ {words : List Form} {source rest : σ} {outcomes : List Outcome},
      countEach g order limit words source = .ok (outcomes, rest) →
        (∀ outcome ∈ outcomes, ∃ found, outcome = .found found) →
          countEach g order limit' words source = .ok (outcomes, rest)
  | [], _, _, _, h, _ => h
  | word :: words, source, rest, outcomes, h, hfound => by
    rw [countEach] at h
    obtain ⟨⟨outcome, middle⟩, hword, h⟩ := bind_eq_ok h
    obtain ⟨⟨others, last⟩, hothers, h⟩ := bind_eq_ok h
    cases h
    obtain ⟨⟨found, rfl⟩, hlater⟩ := List.forall_mem_cons.mp hfound
    have hword' : count ⟨g, order, limit', word⟩ source = .ok (.found found, middle) :=
      count_of_le hle hword
    exact countEach_cons hword' (countEach_of_le hle hothers hlater)

end AmbiguitySearch.Search
