import AmbiguitySearch.Proofs.Search.Exactness

/-!
# The rule order does not decide how much is found

Two searches for one word with the same depth limit have the same tree, however
differently they go through it. A search that finishes with fewer than two
derivations has seen all of that tree, and then so has every other. A search
that finds two may leave early, so that all it says about others is that the
tree has two routes: they find two as well, or they abort.

> `count_order_independent`: what one order says about the result under another.
-/

namespace AmbiguitySearch.Search

variable {σ τ : Type}

/-- Two accounts of one tree count the same. -/
theorem Accounts.count_eq_count {start : Form} {tree : Subtree} {found found' : Derivations}
    (h : Accounts start tree found) (h' : Accounts start tree found') :
    found'.count = found.count := by
  rw [h.count_eq_min_length, h'.count_eq_min_length]

/-- With fewer than two derivations there is one account of a tree. -/
theorem Accounts.eq_of_few {start : Form} {tree : Subtree} {found found' : Derivations}
    (h : Accounts start tree found) (h' : Accounts start tree found')
    (hfew : found.count < ambiguityThreshold) : found' = found := by
  have hcount := h.count_eq_count h'
  have hfew' : found'.count < ambiguityThreshold := by rw [hcount]; exact hfew
  obtain ⟨routes, -, hwit, hall⟩ := h.recorded
  obtain ⟨routes', -, hwit', hall'⟩ := h'.recorded
  have hperm : routes'.Perm routes := (hall' hfew').trans (hall hfew).symm
  have hshort : routes.length < 2 := by
    rw [h.count_eq, hwit, List.length_map] at hfew
    exact hfew
  -- a permutation of at most one route leaves it where it is
  have hroutes : routes' = routes := by
    match routes, hshort with
    | [], _ => exact hperm.eq_nil
    | [_], _ => exact List.perm_singleton.mp hperm
  have hexplored : found'.explored = found.explored := by
    rw [(h.exhausted hfew).2, (h'.exhausted hfew').2]
  obtain ⟨count, witnesses, explored⟩ := found
  obtain ⟨count', witnesses', explored'⟩ := found'
  simp only at hcount hwit hwit' hexplored
  rw [hcount, hexplored, hwit, hwit', hroutes]

/-- A run that finishes with fewer than two derivations tells the outcome of every
other run. -/
theorem outcome_eq_of_few {g : Grammar} {word : Form} {depthLimit : Nat} {order : RuleOrder σ}
    {order' : RuleOrder τ} {source rest : σ} {source' rest' : τ} {found : Derivations}
    {outcome' : Outcome}
    (hrun : run ⟨g, order, depthLimit, word⟩ source = (.found found, rest))
    (hrun' : run ⟨g, order', depthLimit, word⟩ source' = (outcome', rest'))
    (hfew : found.count < ambiguityThreshold) : outcome' = .found found := by
  have haccounts := run_found hrun
  cases outcome' with
  | aborted limit =>
    have hcut := (run_aborted hrun').2
    exact absurd (hcut.symm.trans (haccounts.exhausted hfew).1) (by decide)
  | found found' =>
    have haccounts' := run_found hrun'
    rw [haccounts.eq_of_few haccounts' hfew]

/-- **The order never decides how much is found.** Fewer than two derivations
under one order are the same result under every order; two are two or an
abort. -/
theorem count_order_independent {g : Grammar} (hg : g.Loaded) (hne : g.nonterminals ≠ [])
    (word : Form) (depthLimit : Nat) (order : RuleOrder σ) (source : σ) (order' : RuleOrder τ)
    (source' : τ) :
    ∃ outcome rest outcome' rest',
      count ⟨g, order, depthLimit, word⟩ source = .ok (outcome, rest) ∧
        count ⟨g, order', depthLimit, word⟩ source' = .ok (outcome', rest') ∧
          ∀ found, outcome = .found found →
            (found.count ≤ 1 → outcome' = .found found) ∧
              (found.count = 2 → outcome' = .aborted depthLimit ∨
                ∃ found', outcome' = .found found' ∧ found'.count = 2) := by
  rcases hrun : run ⟨g, order, depthLimit, word⟩ source with ⟨outcome, rest⟩
  rcases hrun' : run ⟨g, order', depthLimit, word⟩ source' with ⟨outcome', rest'⟩
  refine ⟨outcome, rest, outcome', rest', by rw [count_eq_run hg hne, hrun],
    by rw [count_eq_run hg hne, hrun'], ?_⟩
  rintro found rfl
  have haccounts := run_found hrun
  cases outcome' with
  | aborted limit =>
    -- an abort is a tree cut off, which a count below two excludes
    obtain ⟨rfl, hcut⟩ := run_aborted hrun'
    constructor
    · intro hfew
      have hwhole := (haccounts.exhausted (Nat.lt_succ_of_le hfew)).1
      exact absurd (hcut.symm.trans hwhole) (by decide)
    · intro _
      exact Or.inl rfl
  | found found' =>
    have haccounts' := run_found hrun'
    constructor
    · intro hfew
      rw [haccounts.eq_of_few haccounts' (Nat.lt_succ_of_le hfew)]
    · intro htwo
      refine Or.inr ⟨found', rfl, ?_⟩
      rw [haccounts.count_eq_count haccounts', htwo]

/-- Two letters have one derivation, which every seed of the shuffle finds after
looking at the same number of forms. -/
theorem count_order_independent_concatenation :
    ∃ trace rest, count ⟨concatenation, .shuffled, 20, [.terminal 0, .terminal 0]⟩
      (Xoshiro.ofSeed 2024) = .ok (.found ⟨1, [trace], 7⟩, rest) ∧
        trace.rules = [(0, [.nonterminal 0, .nonterminal 0]), (0, [.terminal 0]),
          (0, [.terminal 0])] := by
  have hg : concatenation.Loaded := .ofDefinitions _
  have hne : concatenation.nonterminals ≠ [] := by decide
  obtain ⟨outcome, rest, outcome', rest', hcount, hcount', hsame⟩ :=
    count_order_independent hg hne [.terminal 0, .terminal 0] 20 .asListed ()
      .shuffled (Xoshiro.ofSeed 2024)
  rw [count_eq_run hg hne, run_eq_descent] at hcount
  obtain ⟨rfl, rfl⟩ := Prod.mk.inj (Except.ok.inj hcount)
  rw [hcount', (hsame _ rfl).1 (Nat.le_refl 1)]
  exact ⟨_, _, rfl, rfl⟩

end AmbiguitySearch.Search
