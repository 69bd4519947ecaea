import AmbiguitySearch.Proofs.Grammar.Loaded
import AmbiguitySearch.Proofs.Search.Coverage
import AmbiguitySearch.Search.Count
import Mathlib.Data.ENat.Lattice
import Mathlib.Data.Set.Card

/-!
# The count is exact

A finished search has a count of zero, one or two. It says how many leftmost
derivations the word has, with two standing for any larger number, infinity
included: where fewer than two were found, the tree was searched to its end and
nothing was cut off, so that there is no derivation outside it, not even beyond
the depth limit.

> `count_exact`: the count is the number of derivations, capped at two.

> `count_witnesses_sound`: the traces recorded are derivations of the word, and
> no two are the same.

The first asks for a word of terminals. The second does not: a form with
nonterminals can be searched for as well.
-/

namespace AmbiguitySearch

/-- The rules that a trace applies, in order. -/
def Trace.rules (trace : Trace) : List (Nat × Form) := trace.steps.map Step.rule

/-- The grammar `S -> S S | a`, in which every word of three letters or more is
ambiguous. -/
def concatenation : Grammar := .ofDefinitions [⟨"S", [["S", "S"], ["a"]]⟩]

/-- The grammar `S -> a | S`, in which one word has infinitely many
derivations. -/
def unitLoop : Grammar := .ofDefinitions [⟨"S", [["a"], ["S"]]⟩]

namespace Search

variable {σ : Type} {search : Search σ}

/-- With a declared start, a count is a run. -/
theorem count_eq_run (hg : search.grammar.Loaded) (hne : search.grammar.nonterminals ≠ [])
    (source : σ) : search.count source = .ok (search.run source) := by
  have hstart := hg.start_lt hne
  have hdeclared : search.grammar.declaredBodies search.grammar.start =
      .ok search.grammar.rules[search.grammar.start] :=
    entry_eq_ok_iff.mpr (List.getElem?_eq_getElem hstart)
  unfold count
  split
  next =>
    rw [Grammar.startSymbol, Grammar.nullability, hdeclared]
    rfl
  next => rfl

/-! ## Routes and derivations -/

/-- The rules of the routes of a search. -/
def routeRules (search : Search σ) : Set (List (Nat × Form)) :=
  {rules | rules ∈ search.tree.routes.map (·.map Step.rule)}

theorem routeRules_subset (search : Search σ) :
    search.routeRules ⊆ search.grammar.derivationsOf search.word := by
  intro rules hrules
  obtain ⟨route, hroute, rfl⟩ := List.mem_map.mp hrules
  exact ⟨route, (Grammar.derives_of_mem_routes hroute).1, rfl⟩

/-- Different routes apply different rules. -/
theorem encard_routeRules (search : Search σ)
    (hbodies : ∀ nonterminal, (search.grammar.bodies nonterminal).Nodup) :
    search.routeRules.encard = search.tree.routes.length := by
  have hnodup : (search.tree.routes.map (·.map Step.rule)).Nodup := by
    refine List.Nodup.map_on ?_ (Grammar.nodup_routes hbodies search.depthLimit search.start)
    intro route hroute route' hroute' hrules
    exact (Grammar.derives_of_mem_routes hroute).1.steps_eq_of_rules_eq
      (Grammar.derives_of_mem_routes hroute').1 hrules
  rw [routeRules, ← List.coe_toFinset, Set.encard_coe_eq_coe_finsetCard,
    List.toFinset_card_of_nodup hnodup, List.length_map]

/-- If the tree of a word was not cut off, its derivations are the routes. -/
theorem routeRules_eq (search : Search σ) (hw : search.word.IsWord)
    (hcut : search.tree.cut = false) :
    search.routeRules = search.grammar.derivationsOf search.word := by
  refine Set.Subset.antisymm search.routeRules_subset ?_
  rintro rules ⟨route, hder, rfl⟩
  have hlen := Grammar.length_le_of_cut_eq_false hw hcut hder
  exact List.mem_map.mpr ⟨route, Grammar.mem_routes_of_derives hw hder hlen, rfl⟩

/-- The count of a finished search for a word, whatever order it went in. -/
theorem Accounts.count_eq_min {found : Derivations} (h : Accounts search.start search.tree found)
    (hg : search.grammar.Loaded) (hw : search.word.IsWord) :
    (found.count : ℕ∞) = min 2 (search.grammar.derivationsOf search.word).encard := by
  have hcount : found.count = min 2 search.tree.routes.length := h.count_eq_min_length
  have hroutes := search.encard_routeRules hg.nodup_bodies
  rcases Nat.lt_or_ge found.count ambiguityThreshold with hfew | hmany
  · rw [← search.routeRules_eq hw (h.exhausted hfew).1, hroutes, hcount]
    exact Nat.mono_cast.map_min
  · -- the tree may be cut off here, but two routes are enough
    have htwo : found.count = 2 := Nat.le_antisymm h.bounded hmany
    have hle : (2 : ℕ∞) ≤ search.routeRules.encard := by
      rw [hroutes]
      exact_mod_cast (by omega : 2 ≤ search.tree.routes.length)
    rw [htwo, min_eq_left (hle.trans (Set.encard_le_encard search.routeRules_subset))]
    rfl

/-- A count below two is the number of derivations. -/
theorem Accounts.encard_eq_count {found : Derivations}
    (h : Accounts search.start search.tree found) (hg : search.grammar.Loaded)
    (hw : search.word.IsWord) (hfew : found.count < ambiguityThreshold) :
    (search.grammar.derivationsOf search.word).encard = found.count := by
  have hmin := h.count_eq_min hg hw
  rcases min_choice (2 : ℕ∞) (search.grammar.derivationsOf search.word).encard with heq | heq
  · rw [heq] at hmin
    have htwo : found.count = 2 := by exact_mod_cast hmin
    exact absurd htwo (Nat.ne_of_lt hfew)
  · rw [hmin, heq]

/-- A witness of a finished search is a derivation of the word that comes to the
word only at its end. -/
theorem Accounts.witness_sound {found : Derivations} {trace : Trace}
    (h : Accounts search.start search.tree found) (htrace : trace ∈ found.witnesses) :
    search.grammar.Admits trace search.word ∧ trace.result = search.word ∧
      (∀ stage ∈ trace.stages, stage.1 ≠ search.word) ∧
        trace.steps.length ≤ search.depthLimit := by
  obtain ⟨routes, hsub, hwit, -⟩ := h.recorded
  rw [hwit] at htrace
  obtain ⟨route, hroute, rfl⟩ := List.mem_map.mp htrace
  obtain ⟨hder, hlen, hstages⟩ := Grammar.derives_of_mem_routes (hsub.subset hroute)
  exact ⟨⟨rfl, hder⟩, hder.result_eq, hstages, hlen⟩

/-- No two witnesses apply the same rules. -/
theorem Accounts.nodup_rules {found : Derivations}
    (h : Accounts search.start search.tree found) (hg : search.grammar.Loaded) :
    (found.witnesses.map Trace.rules).Nodup := by
  obtain ⟨routes, ⟨chosen, hperm, hsub⟩, hwit, -⟩ := h.recorded
  have hnodup : routes.Nodup :=
    hperm.nodup_iff.mp (hsub.nodup (Grammar.nodup_routes hg.nodup_bodies _ _))
  rw [hwit, List.map_map]
  refine List.Nodup.map_on ?_ hnodup
  intro route hroute route' hroute' hrules
  have hder := (Grammar.derives_of_mem_routes (hsub.subset (hperm.mem_iff.mpr hroute))).1
  have hder' := (Grammar.derives_of_mem_routes (hsub.subset (hperm.mem_iff.mpr hroute'))).1
  exact hder.steps_eq_of_rules_eq hder' hrules

/-! ## The two statements -/

/-- **The count is exact.** The number of derivations is taken over derivations
of any length, and may be infinite. -/
theorem count_exact {g : Grammar} (hg : g.Loaded) (hne : g.nonterminals ≠ []) {word : Form}
    (hw : word.IsWord) (order : RuleOrder σ) (depthLimit : Nat) (source : σ) :
    ∃ outcome rest, count ⟨g, order, depthLimit, word⟩ source = .ok (outcome, rest) ∧
      ∀ found, outcome = .found found →
        (found.count : ℕ∞) = min 2 (g.derivationsOf word).encard ∧
          (found.count = 0 → ∀ steps, ¬ g.Derives [g.startSymbol] steps word) ∧
            (found.count = 1 → ∃! rules, rules ∈ g.derivationsOf word) := by
  rcases hrun : run ⟨g, order, depthLimit, word⟩ source with ⟨outcome, rest⟩
  refine ⟨outcome, rest, by rw [count_eq_run hg hne, hrun], ?_⟩
  rintro found rfl
  have haccounts := run_found hrun
  refine ⟨haccounts.count_eq_min hg hw, ?_, ?_⟩
  · intro hzero steps hder
    have hnone := haccounts.encard_eq_count hg hw (by rw [hzero]; exact Nat.zero_lt_two)
    rw [hzero, Nat.cast_zero, Set.encard_eq_zero] at hnone
    have hmem : steps.map Step.rule ∈ g.derivationsOf word := ⟨steps, hder, rfl⟩
    rw [hnone] at hmem
    exact hmem
  · intro hone
    have hsingle := haccounts.encard_eq_count hg hw (by rw [hone]; exact Nat.one_lt_two)
    rw [hone, Nat.cast_one, Set.encard_eq_one] at hsingle
    obtain ⟨rules, hrules⟩ := hsingle
    exact ⟨rules, hrules.symm.subset rfl, fun rules' hmem => hrules.subset hmem⟩

/-- Two derivations found, and two there are at least: any number of turns in the
loop makes another one. -/
theorem count_exact_unitLoop :
    (∃ rest, count ⟨unitLoop, .asListed, 2, [.terminal 0]⟩ () =
      .ok (.found ⟨2, [⟨[.nonterminal 0], [⟨0, [.terminal 0], [.terminal 0]⟩]⟩,
        ⟨[.nonterminal 0], [⟨0, [.nonterminal 0], [.nonterminal 0]⟩,
          ⟨0, [.terminal 0], [.terminal 0]⟩]⟩], 4⟩, rest)) ∧
      2 ≤ (unitLoop.derivationsOf [.terminal 0]).encard := by
  have hg : unitLoop.Loaded := .ofDefinitions _
  have hne : unitLoop.nonterminals ≠ [] := by decide
  have hw : Form.IsWord [.terminal 0] := Form.isWord_cons rfl Form.isWord_nil
  obtain ⟨outcome, rest, hcount, hexact⟩ := count_exact hg hne hw .asListed 2 ()
  rw [hcount]
  rw [count_eq_run hg hne, run_eq_descent] at hcount
  obtain ⟨rfl, rfl⟩ := Prod.mk.inj (Except.ok.inj hcount)
  have hmin := (hexact _ rfl).1
  exact ⟨⟨_, rfl⟩, min_eq_left_iff.mp hmin.symm⟩

/-- **Witnesses are derivations**, for any form sought. Each is recorded step by
step, comes to the form only at its end and stays within the depth limit, and no
two of them apply the same rules. -/
theorem count_witnesses_sound {g : Grammar} (hg : g.Loaded) (hne : g.nonterminals ≠ [])
    (word : Form) (order : RuleOrder σ) (depthLimit : Nat) (source : σ) :
    ∃ outcome rest, count ⟨g, order, depthLimit, word⟩ source = .ok (outcome, rest) ∧
      ∀ found, outcome = .found found →
        found.count = found.witnesses.length ∧ found.witnesses.length ≤ 2 ∧
          (∀ trace ∈ found.witnesses, g.Admits trace word ∧ trace.result = word ∧
            (∀ stage ∈ trace.stages, stage.1 ≠ word) ∧ trace.steps.length ≤ depthLimit) ∧
            (found.witnesses.map Trace.rules).Nodup := by
  rcases hrun : run ⟨g, order, depthLimit, word⟩ source with ⟨outcome, rest⟩
  refine ⟨outcome, rest, by rw [count_eq_run hg hne, hrun], ?_⟩
  rintro found rfl
  have haccounts := run_found hrun
  refine ⟨haccounts.count_eq, ?_, fun trace htrace => haccounts.witness_sound htrace,
    haccounts.nodup_rules hg⟩
  rw [← haccounts.count_eq]
  exact haccounts.bounded

/-- The form `a S` is sought, and the one witness found is a derivation of it. -/
theorem count_witnesses_sound_concatenation :
    ∃ trace rest, count ⟨concatenation, .asListed, 2, [.terminal 0, .nonterminal 0]⟩ () =
      .ok (.found ⟨1, [trace], 5⟩, rest) ∧
        trace.rules = [(0, [.nonterminal 0, .nonterminal 0]), (0, [.terminal 0])] ∧
          concatenation.Admits trace [.terminal 0, .nonterminal 0] := by
  have hg : concatenation.Loaded := .ofDefinitions _
  have hne : concatenation.nonterminals ≠ [] := by decide
  obtain ⟨outcome, rest, hcount, hsound⟩ :=
    count_witnesses_sound hg hne [.terminal 0, .nonterminal 0] .asListed 2 ()
  rw [hcount]
  rw [count_eq_run hg hne, run_eq_descent] at hcount
  obtain ⟨rfl, rfl⟩ := Prod.mk.inj (Except.ok.inj hcount)
  obtain ⟨-, -, hwitness, -⟩ := hsound _ rfl
  exact ⟨_, _, rfl, rfl, (hwitness _ (List.mem_cons_self ..)).1⟩

end Search

end AmbiguitySearch
