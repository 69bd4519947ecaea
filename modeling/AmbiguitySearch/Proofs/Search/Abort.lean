import AmbiguitySearch.Proofs.Search.Exactness

/-!
# When a search aborts

A search gives up at a live form that has no step left. Whether it gets to one
can be told without the search, because a form that leads to a live form is live
itself (`Expands.live_of_live`): nothing on the way is pruned. So the tree of a
word is cut off exactly if some derivation uses up the depth limit and still ends
at a form that may lead to the word (`Overruns`).

> `tree_cut_iff`: the tree is cut off if and only if the grammar overruns.

What a search of such a tree comes to depends on the derivations that fit into
the limit. With fewer than two of them it has to go everywhere and aborts. With
two it may have found both before it gets to the place where it would abort.

> `count_aborts_exactly`: the outcome in each of these cases, for every order.
-/

namespace AmbiguitySearch

namespace Form

/-- Terminals in front of a form stand before its first nonterminal. -/
theorem length_le_of_firstNonterminal? {before rest : Form} {position id : Nat}
    (hw : before.IsWord) (h : (before ++ rest).firstNonterminal? = some (position, id)) :
    before.length ≤ position := by
  rw [firstNonterminal?_append rest hw] at h
  obtain ⟨found, -, heq⟩ := Option.map_eq_some_iff.mp h
  cases heq
  exact Nat.le_add_right _ _

end Form

namespace Grammar

variable {g : Grammar} {form word : Form}

/-- Some derivation of exactly so many steps ends at a form that is not a word,
starts like the word sought, and has no more letters than it. -/
def Overruns (g : Grammar) (word : Form) (depth : Nat) : Prop :=
  ∃ (steps : List Step) (before after : Form) (nonterminal : Nat),
    g.Derives [g.startSymbol] steps (before ++ .nonterminal nonterminal :: after) ∧
      steps.length = depth ∧ (before.IsWord ∧ before <+: word) ∧
        g.letters (before ++ .nonterminal nonterminal :: after) ≤ word.length

/-- The derivations of a form that have at most so many steps, each told by the
rules it applies. -/
def derivationsWithin (g : Grammar) (word : Form) (depth : Nat) : Set (List (Nat × Form)) :=
  {rules ∈ g.derivationsOf word | rules.length ≤ depth}

/-- For a word, a form is live if it starts like the word up to its first
nonterminal and does not have too many letters. -/
theorem status_live_iff_begins {before after : Form} {nonterminal : Nat} (hw : word.IsWord)
    (hbefore : before.IsWord) :
    g.status word (before ++ .nonterminal nonterminal :: after) =
        .live before.length nonterminal ↔
      before <+: word ∧ g.letters (before ++ .nonterminal nonterminal :: after) ≤ word.length := by
  have hfirst : Form.firstNonterminal? (before ++ .nonterminal nonterminal :: after) =
      some (before.length, nonterminal) :=
    Form.firstNonterminal?_eq_some_iff.mpr ⟨before, after, hbefore, rfl, rfl⟩
  rw [status_eq_live_iff, List.take_left]
  constructor
  · rintro ⟨-, -, -, htake, hletters⟩
    exact ⟨List.prefix_iff_eq_take.mpr htake, hletters⟩
  · rintro ⟨hbegins, hletters⟩
    refine ⟨?_, hfirst, hbegins.length_le, List.prefix_iff_eq_take.mp hbegins, hletters⟩
    intro heq
    rw [heq, Form.firstNonterminal?_eq_none_iff.mpr hw] at hfirst
    cases hfirst

/-- A live form is one cut at its first nonterminal. -/
theorem exists_cut_of_live {position nonterminal : Nat}
    (h : g.status word form = .live position nonterminal) :
    ∃ before after : Form, before.IsWord ∧ before.length = position ∧
      form = before ++ .nonterminal nonterminal :: after :=
  Form.firstNonterminal?_eq_some_iff.mp (status_eq_live_iff.mp h).2.1

/-- **A pruned form has no live form below it.** -/
theorem Expands.live_of_live {step : Step} {position nonterminal : Nat} (hw : word.IsWord)
    (h : g.Expands form step) (hlive : g.status word step.form = .live position nonterminal) :
    ∃ place, g.status word form = .live place step.nonterminal := by
  have hletters := h.letters_le
  obtain @⟨before, after, body, replaced, hsettled, -⟩ := h
  obtain ⟨-, hfirst, hpos, htake, hfits⟩ := status_eq_live_iff.mp hlive
  refine ⟨before.length, (status_live_iff_begins hw hsettled).mpr ⟨?_, ?_⟩⟩
  · -- the terminals in front are still there after the step, where they fit the word
    have hle : before.length ≤ position := Form.length_le_of_firstNonterminal? hsettled hfirst
    have hbegins : word.take position <+: word := List.take_prefix position word
    rw [← htake] at hbegins
    refine List.IsPrefix.trans ?_ hbegins
    exact List.prefix_take_iff.mpr ⟨List.prefix_append _ _, hle⟩
  · exact Nat.le_trans hletters hfits

/-- Only the tree of a live form can be cut off. -/
theorem exists_live_of_cut {room : Nat} (h : (g.subtree word room form).cut = true) :
    ∃ position nonterminal, g.status word form = .live position nonterminal := by
  cases hs : g.status word form with
  | derived =>
    rw [subtree_derived room hs] at h
    cases h
  | deadEnd =>
    rw [subtree_deadEnd room hs] at h
    cases h
  | live position nonterminal => exact ⟨position, nonterminal, rfl⟩

/-- With a step to take, the tree of a live form is cut off if it is below some
body. -/
theorem cut_live_succ_iff {position nonterminal room : Nat}
    (h : g.status word form = .live position nonterminal) :
    (g.subtree word (room + 1) form).cut = true ↔ ∃ body ∈ g.bodies nonterminal,
      (g.subtree word room (form.splice position 1 body)).cut = true := by
  rw [subtree_live_succ room h, Subtree.beside, Subtree.cut_forest, List.any_map]
  exact List.any_eq_true

/-- Where a tree is cut off, a derivation that uses up the room ends at a live
form. -/
theorem exists_derives_of_cut :
    ∀ {room : Nat} {form : Form}, (g.subtree word room form).cut = true →
      ∃ steps target position nonterminal, g.Derives form steps target ∧ steps.length = room ∧
        g.status word target = .live position nonterminal
  | 0, form, hcut => by
    obtain ⟨position, nonterminal, hs⟩ := exists_live_of_cut hcut
    exact ⟨[], form, position, nonterminal, .refl form, rfl, hs⟩
  | room + 1, form, hcut => by
    obtain ⟨position, nonterminal, hs⟩ := exists_live_of_cut hcut
    obtain ⟨body, hb, hbelow⟩ := (cut_live_succ_iff hs).mp hcut
    obtain ⟨steps, target, place, last, hder, hlen, hlive⟩ := exists_derives_of_cut hbelow
    exact ⟨stepAt form position nonterminal body :: steps, target, place, last,
      .step (expands_stepAt hs hb) hder, congrArg (· + 1) hlen, hlive⟩

/-- A derivation that ends at a live form is cut off there if the room ends with
it. -/
theorem Derives.cut_of_live {target : Form} {steps : List Step} {position nonterminal : Nat}
    (hw : word.IsWord) (h : g.Derives form steps target)
    (hlive : g.status word target = .live position nonterminal) :
    (g.subtree word steps.length form).cut = true := by
  induction h with
  | refl form =>
    show (g.subtree word 0 form).cut = true
    rw [subtree_live_zero hlive]
  | @step form target first rest hexp _ ih =>
    have hbelow := ih hlive
    obtain ⟨_, _, hnext⟩ := exists_live_of_cut hbelow
    obtain ⟨place, hs⟩ := hexp.live_of_live hw hnext
    obtain ⟨position, hfirst, hb, hform⟩ := expands_iff.mp hexp
    -- the search replaces the nonterminal where the step does
    have hplace : place = position := by
      have hfirst' := (status_eq_live_iff.mp hs).2.1
      rw [hfirst] at hfirst'
      exact (Prod.mk.inj (Option.some.inj hfirst')).1.symm
    refine (cut_live_succ_iff hs).mpr ⟨first.body, hb, ?_⟩
    rw [hplace, ← hform]
    exact hbelow

/-- A nonterminal that is a body of itself can be replaced by itself any number of
times. -/
theorem derives_replicate {nonterminal : Nat}
    (h : [.nonterminal nonterminal] ∈ g.bodies nonterminal) : ∀ count : Nat,
      g.Derives [.nonterminal nonterminal]
        (List.replicate count ⟨nonterminal, [.nonterminal nonterminal], [.nonterminal nonterminal]⟩)
        [.nonterminal nonterminal]
  | 0 => .refl _
  | count + 1 => by
    have hexp : g.Expands ([] ++ .nonterminal nonterminal :: [])
        ⟨nonterminal, [.nonterminal nonterminal], [] ++ ([.nonterminal nonterminal] ++ [])⟩ :=
      .leftmost Form.isWord_nil h
    exact .step hexp (derives_replicate h count)

/-- So a start that is a body of itself overruns any limit. -/
theorem overruns_of_loop (h : [g.startSymbol] ∈ g.bodies g.start) (hne : word ≠ [])
    (depth : Nat) : g.Overruns word depth := by
  refine ⟨_, [], [], g.start, derives_replicate h depth, List.length_replicate,
    ⟨Form.isWord_nil, List.nil_prefix⟩, ?_⟩
  have hone : g.letters [g.startSymbol] ≤ 1 := List.countP_le_length
  exact Nat.le_trans hone (List.length_pos_iff.mpr hne)

end Grammar

namespace Search

variable {σ : Type} {search : Search σ}

/-- **The tree is cut off exactly if the grammar overruns.** -/
theorem tree_cut_iff (search : Search σ) (hw : search.word.IsWord) :
    search.tree.cut = true ↔ search.grammar.Overruns search.word search.depthLimit := by
  constructor
  · intro hcut
    obtain ⟨steps, target, position, nonterminal, hder, hlen, hlive⟩ :=
      Grammar.exists_derives_of_cut hcut
    obtain ⟨before, after, hbefore, rfl, rfl⟩ := Grammar.exists_cut_of_live hlive
    obtain ⟨hbegins, hletters⟩ := (Grammar.status_live_iff_begins hw hbefore).mp hlive
    exact ⟨steps, before, after, nonterminal, hder, hlen, ⟨hbefore, hbegins⟩, hletters⟩
  · rintro ⟨steps, before, after, nonterminal, hder, hlen, ⟨hbefore, hbegins⟩, hletters⟩
    have hlive := (Grammar.status_live_iff_begins hw hbefore).mpr ⟨hbegins, hletters⟩
    rw [tree, ← hlen]
    exact hder.cut_of_live hw hlive

/-- The routes of a search are the derivations that fit into its limit. -/
theorem routeRules_eq_derivationsWithin (search : Search σ) (hw : search.word.IsWord) :
    search.routeRules = search.grammar.derivationsWithin search.word search.depthLimit := by
  ext rules
  constructor
  · intro hmem
    obtain ⟨route, hroute, rfl⟩ := List.mem_map.mp hmem
    have hlen := (Grammar.derives_of_mem_routes hroute).2.1
    exact ⟨search.routeRules_subset hmem, by rw [List.length_map]; exact hlen⟩
  · rintro ⟨⟨route, hder, rfl⟩, hlen⟩
    rw [List.length_map] at hlen
    exact List.mem_map.mpr ⟨route, Grammar.mem_routes_of_derives hw hder hlen, rfl⟩

/-- How many routes there are, by the number of derivations that fit. -/
theorem length_routes (search : Search σ) (hg : search.grammar.Loaded)
    (hw : search.word.IsWord) : (search.tree.routes.length : ℕ∞) =
      (search.grammar.derivationsWithin search.word search.depthLimit).encard := by
  rw [← search.routeRules_eq_derivationsWithin hw, search.encard_routeRules hg.nodup_bodies]

/-! ## The outcome in each case -/

/-- A search that cannot overrun finds all there is. -/
theorem run_of_not_overruns (hg : search.grammar.Loaded) (hw : search.word.IsWord)
    (h : ¬ search.grammar.Overruns search.word search.depthLimit) {source rest : σ}
    {outcome : Outcome} (hrun : search.run source = (outcome, rest)) :
    ∃ found, outcome = .found found ∧
      (found.count : ℕ∞) = min 2 (search.grammar.derivationsOf search.word).encard := by
  cases outcome with
  | found found => exact ⟨found, rfl, (run_found hrun).count_eq_min hg hw⟩
  | aborted limit => exact absurd ((search.tree_cut_iff hw).mp (run_aborted hrun).2) h

/-- A search that overruns and has fewer than two derivations to find aborts. -/
theorem run_of_overruns_of_subsingleton (hg : search.grammar.Loaded) (hw : search.word.IsWord)
    (h : search.grammar.Overruns search.word search.depthLimit)
    (hfew : (search.grammar.derivationsWithin search.word search.depthLimit).Subsingleton)
    {source rest : σ} {outcome : Outcome} (hrun : search.run source = (outcome, rest)) :
    outcome = .aborted search.depthLimit := by
  cases outcome with
  | aborted limit => rw [(run_aborted hrun).1]
  | found found =>
    -- it would have gone through the whole tree, which is cut off
    have haccounts := run_found hrun
    rw [← Set.encard_le_one_iff_subsingleton, ← search.length_routes hg hw] at hfew
    have hroutes : search.tree.routes.length ≤ 1 := by exact_mod_cast hfew
    have hcount := haccounts.count_eq_min_length
    have hbelow : found.count < ambiguityThreshold := by
      rw [hcount]
      exact Nat.lt_of_le_of_lt (Nat.min_le_right _ _) (Nat.lt_succ_of_le hroutes)
    have hwhole := (haccounts.exhausted hbelow).1
    rw [(search.tree_cut_iff hw).mpr h] at hwhole
    cases hwhole

/-- A search with two derivations to find counts two, unless it aborts. -/
theorem run_of_nontrivial (hg : search.grammar.Loaded) (hw : search.word.IsWord)
    (hmany : (search.grammar.derivationsWithin search.word search.depthLimit).Nontrivial)
    {source rest : σ} {outcome : Outcome} (hrun : search.run source = (outcome, rest)) :
    outcome = .aborted search.depthLimit ∨ ∃ found, outcome = .found found ∧ found.count = 2 := by
  cases outcome with
  | aborted limit => exact .inl (by rw [(run_aborted hrun).1])
  | found found =>
    refine .inr ⟨found, rfl, ?_⟩
    rw [← Set.one_lt_encard_iff_nontrivial, ← search.length_routes hg hw] at hmany
    have hroutes : 1 < search.tree.routes.length := by exact_mod_cast hmany
    rw [(run_found hrun).count_eq_min_length]
    exact Nat.min_eq_left hroutes

/-- **When a search aborts**, whatever order it goes in. -/
theorem count_aborts_exactly {g : Grammar} (hg : g.Loaded) (hne : g.nonterminals ≠ [])
    {word : Form} (hw : word.IsWord) (depthLimit : Nat) (order : RuleOrder σ) (source : σ) :
    ∃ outcome rest, count ⟨g, order, depthLimit, word⟩ source = .ok (outcome, rest) ∧
      (¬ g.Overruns word depthLimit → ∃ found, outcome = .found found ∧
        (found.count : ℕ∞) = min 2 (g.derivationsOf word).encard) ∧
      (g.Overruns word depthLimit → (g.derivationsWithin word depthLimit).Subsingleton →
        outcome = .aborted depthLimit) ∧
      (g.Overruns word depthLimit → (g.derivationsWithin word depthLimit).Nontrivial →
        outcome = .aborted depthLimit ∨ ∃ found, outcome = .found found ∧ found.count = 2) := by
  rcases hrun : run ⟨g, order, depthLimit, word⟩ source with ⟨outcome, rest⟩
  refine ⟨outcome, rest, by rw [count_eq_run hg hne, hrun], ?_, ?_, ?_⟩
  · intro hwithin
    exact run_of_not_overruns hg hw hwithin hrun
  · intro hover hfew
    exact run_of_overruns_of_subsingleton hg hw hover hfew hrun
  · intro _ hmany
    exact run_of_nontrivial hg hw hmany hrun

/-- The empty word does not let the loop be entered. For `a` it is entered, and
left with one derivation if only one step may be taken, and with two if two. -/
theorem count_aborts_exactly_unitLoop :
    (∃ found rest, count ⟨unitLoop, .shuffled, 0, []⟩ (Xoshiro.ofSeed 5) =
      .ok (.found found, rest) ∧
        (found.count : ℕ∞) = min 2 (unitLoop.derivationsOf []).encard) ∧
    (∃ rest, count ⟨unitLoop, .shuffled, 1, [.terminal 0]⟩ (Xoshiro.ofSeed 5) =
      .ok (.aborted 1, rest)) ∧
    ∃ outcome rest, count ⟨unitLoop, .shuffled, 2, [.terminal 0]⟩ (Xoshiro.ofSeed 5) =
      .ok (outcome, rest) ∧
        (outcome = .aborted 2 ∨ ∃ found, outcome = .found found ∧ found.count = 2) := by
  have hg : unitLoop.Loaded := .ofDefinitions _
  have hne : unitLoop.nonterminals ≠ [] := by decide
  have hw : Form.IsWord [.terminal 0] := Form.isWord_cons rfl Form.isWord_nil
  have hloop : [unitLoop.startSymbol] ∈ unitLoop.bodies unitLoop.start := by decide
  have hover := unitLoop.overruns_of_loop hloop (List.cons_ne_nil (Symbol.terminal 0) [])
  refine ⟨?_, ?_, ?_⟩
  · obtain ⟨outcome, rest, hcount, hwithin, -, -⟩ :=
      count_aborts_exactly hg hne Form.isWord_nil 0 .shuffled (Xoshiro.ofSeed 5)
    have hnot : ¬ unitLoop.Overruns [] 0 := by
      intro hnil
      have hcut := (tree_cut_iff ⟨unitLoop, .asListed, 0, []⟩ Form.isWord_nil).mpr hnil
      exact absurd hcut (by decide)
    obtain ⟨found, rfl, hexact⟩ := hwithin hnot
    exact ⟨found, rest, hcount, hexact⟩
  · obtain ⟨outcome, rest, hcount, -, hfew, -⟩ :=
      count_aborts_exactly hg hne hw 1 .shuffled (Xoshiro.ofSeed 5)
    have hone : (unitLoop.derivationsWithin [.terminal 0] 1).Subsingleton := by
      rw [← Set.encard_le_one_iff_subsingleton,
        ← length_routes ⟨unitLoop, .asListed, 1, [.terminal 0]⟩ hg hw]
      decide
    rw [hfew (hover 1) hone] at hcount
    exact ⟨rest, hcount⟩
  · obtain ⟨outcome, rest, hcount, -, -, hmany⟩ :=
      count_aborts_exactly hg hne hw 2 .shuffled (Xoshiro.ofSeed 5)
    have htwo : (unitLoop.derivationsWithin [.terminal 0] 2).Nontrivial := by
      rw [← Set.one_lt_encard_iff_nontrivial,
        ← length_routes ⟨unitLoop, .asListed, 2, [.terminal 0]⟩ hg hw]
      decide
    exact ⟨outcome, rest, hcount, hmany (hover 2) htwo⟩

end Search

end AmbiguitySearch
