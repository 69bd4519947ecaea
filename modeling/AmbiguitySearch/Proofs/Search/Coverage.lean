import AmbiguitySearch.Proofs.Search.Recursion
import Mathlib.Data.List.Perm.Subperm

/-!
# What a search covers of the tree

The rule order decides which way a search goes through the forms below the start
symbol, and a second derivation ends it early. What it has seen by then is told
by `Covers`, whatever the order: the traces recorded are routes of the subtree,
each at most once, and with fewer than two of them nothing was left out.

> `descend_covers`: the recursion covers the subtree of its form, and it aborts
> only if that subtree was cut off.

The outcome of a run follows: `run_found` and `run_aborted`.
-/

namespace AmbiguitySearch.Search

variable {σ : Type} {search : Search σ} {taken : List Step} {before middle after : Tally σ}

/-- The trace that is recorded for a route found after the steps taken. -/
def traceOf (search : Search σ) (taken route : List Step) : Trace := ⟨search.start, taken ++ route⟩

/-- What a tally becomes on the way through a subtree. -/
structure Covers (search : Search σ) (taken : List Step) (tree : Subtree)
    (before after : Tally σ) : Prop where
  /-- The traces added are routes, and all of them if there is room for more. -/
  recorded : ∃ routes : List (List Step), routes.Subperm tree.routes ∧
    after.witnesses = before.witnesses ++ routes.map (search.traceOf taken) ∧
      (after.witnesses.length < ambiguityThreshold → routes.Perm tree.routes)
  /-- Nobody looks for a third derivation. -/
  bounded : after.witnesses.length ≤ ambiguityThreshold
  /-- No form is visited twice. -/
  explored_le : after.explored ≤ before.explored + tree.forms
  /-- A search that goes on to the end visits everything. -/
  exhausted : after.witnesses.length < ambiguityThreshold →
    tree.cut = false ∧ after.explored = before.explored + tree.forms

/-- A way through a subtree may end in an abort, if the subtree was cut off. -/
def CoversTo (search : Search σ) (taken : List Step) (tree : Subtree) (before : Tally σ) :
    Except σ (Tally σ) → Prop
  | .ok after => search.Covers taken tree before after
  | .error _ => tree.cut = true

/-- Once enough is known, a subtree may be passed over. -/
theorem Covers.pass (tree : Subtree) (h : before.witnesses.length = ambiguityThreshold) :
    search.Covers taken tree before before where
  recorded := ⟨[], List.nil_subperm, by simp, fun hfew => by omega⟩
  bounded := Nat.le_of_eq h
  explored_le := Nat.le_add_right _ _
  exhausted hfew := by omega

theorem Covers.nothing (h : before.witnesses.length ≤ ambiguityThreshold) :
    search.Covers taken .nothing before before where
  recorded := ⟨[], List.nil_subperm, by simp, fun _ => List.Perm.refl _⟩
  bounded := h
  explored_le := Nat.le_add_right _ _
  exhausted _ := ⟨rfl, rfl⟩

theorem Covers.leaf (source : σ) (h : before.witnesses.length ≤ ambiguityThreshold) :
    search.Covers taken .leaf before ⟨before.witnesses, before.explored + 1, source⟩ where
  recorded := ⟨[], List.nil_subperm, by simp, fun _ => List.Perm.refl _⟩
  bounded := h
  explored_le := Nat.le_refl _
  exhausted _ := ⟨rfl, rfl⟩

/-- The word itself is one route without steps. -/
theorem Covers.derived (h : before.witnesses.length < ambiguityThreshold) :
    search.Covers taken { Subtree.leaf with routes := [[]] } before
      ⟨before.witnesses ++ [⟨search.start, taken⟩], before.explored + 1, before.source⟩ where
  recorded := ⟨[[]], List.Subperm.refl _, by simp [traceOf], fun _ => List.Perm.refl _⟩
  bounded := by
    rw [List.length_append, List.length_singleton]
    exact h
  explored_le := Nat.le_refl _
  exhausted _ := ⟨rfl, rfl⟩

theorem Covers.witnesses_length_le {tree : Subtree} (h : search.Covers taken tree before after) :
    before.witnesses.length ≤ after.witnesses.length := by
  obtain ⟨routes, -, hrec, -⟩ := h.recorded
  rw [hrec, List.length_append]
  exact Nat.le_add_right _ _

/-- First one subtree, then another. -/
theorem Covers.beside {left right : Subtree} (h : search.Covers taken left before middle)
    (h' : search.Covers taken right middle after) :
    search.Covers taken (left.beside right) before after where
  recorded := by
    obtain ⟨routes, hsub, hrec, hall⟩ := h.recorded
    obtain ⟨routes', hsub', hrec', hall'⟩ := h'.recorded
    refine ⟨routes ++ routes', ?_, ?_, fun hfew => ?_⟩
    · exact ((List.subperm_append_right routes').mpr hsub).trans
        ((List.subperm_append_left left.routes).mpr hsub')
    · rw [hrec', hrec, List.map_append, List.append_assoc]
    · -- if fewer than two are known afterwards, then in between as well
      exact (hall (Nat.lt_of_le_of_lt h'.witnesses_length_le hfew)).append (hall' hfew)
  bounded := h'.bounded
  explored_le := by
    have hle := h.explored_le
    have hle' := h'.explored_le
    show after.explored ≤ before.explored + (left.forms + right.forms)
    omega
  exhausted hfew := by
    obtain ⟨hcut, heq⟩ := h.exhausted (Nat.lt_of_le_of_lt h'.witnesses_length_le hfew)
    obtain ⟨hcut', heq'⟩ := h'.exhausted hfew
    refine ⟨?_, ?_⟩
    · show (left.cut || right.cut) = false
      rw [hcut, hcut']
      rfl
    · show after.explored = before.explored + (left.forms + right.forms)
      omega

/-- A subtree entered by a step. -/
theorem Covers.of_step {tree : Subtree} {step : Step}
    (h : search.Covers (taken ++ [step]) tree before after) :
    search.Covers taken (tree.after step) before after where
  recorded := by
    obtain ⟨routes, ⟨chosen, hperm, hsub⟩, hrec, hall⟩ := h.recorded
    refine ⟨routes.map (step :: ·), ⟨chosen.map (step :: ·), hperm.map _, hsub.map _⟩, ?_,
      fun hfew => (hall hfew).map _⟩
    rw [hrec, List.map_map]
    congr 2
    funext route
    simp only [traceOf, Function.comp_apply, List.append_assoc, List.singleton_append]
  bounded := h.bounded
  explored_le := h.explored_le
  exhausted := h.exhausted

theorem Covers.of_same {tree tree' : Subtree} (hsame : Subtree.Same tree tree')
    (h : search.Covers taken tree before after) : search.Covers taken tree' before after where
  recorded := by
    obtain ⟨routes, hsub, hrec, hall⟩ := h.recorded
    exact ⟨routes, hsub.trans hsame.routes.subperm, hrec,
      fun hfew => (hall hfew).trans hsame.routes⟩
  bounded := h.bounded
  explored_le := hsame.forms ▸ h.explored_le
  exhausted hfew := by
    rw [← hsame.forms, ← hsame.cut]
    exact h.exhausted hfew

theorem CoversTo.of_same {tree tree' : Subtree} {result : Except σ (Tally σ)}
    (hsame : Subtree.Same tree tree') (h : search.CoversTo taken tree before result) :
    search.CoversTo taken tree' before result := by
  cases result with
  | ok after => exact Covers.of_same hsame h
  | error source => exact hsame.cut.symm.trans h

theorem CoversTo.of_step {tree : Subtree} {step : Step} {result : Except σ (Tally σ)}
    (h : search.CoversTo (taken ++ [step]) tree before result) :
    search.CoversTo taken (tree.after step) before result := by
  cases result with
  | ok after => exact Covers.of_step h
  | error source => exact h

theorem CoversTo.bind {left right : Subtree} {result : Except σ (Tally σ)}
    {next : Tally σ → Except σ (Tally σ)} (h : search.CoversTo taken left before result)
    (h' : ∀ middle, search.Covers taken left before middle →
      search.CoversTo taken right middle (next middle)) :
    search.CoversTo taken (left.beside right) before (result >>= next) := by
  cases result with
  | error source =>
    show (left.cut || right.cut) = true
    rw [show left.cut = true from h]
    rfl
  | ok middle =>
    show search.CoversTo taken (left.beside right) before (next middle)
    have hnext := h' middle h
    revert hnext
    cases next middle with
    | error source =>
      intro hnext
      show (left.cut || right.cut) = true
      rw [show right.cut = true from hnext, Bool.or_true]
    | ok after => exact fun hnext => Covers.beside h hnext

/-! ## The recursion covers its subtree -/

/-- Trying bodies covers what lies below them, provided that the recursion does
so one step deeper. -/
theorem foldlM_attempt_covers {room : Nat} {form : Form} {position nonterminal : Nat}
    (hdeeper : ∀ (body : Form) (before : Tally σ), before.witnesses.length < ambiguityThreshold →
      search.CoversTo (taken ++ [stepAt form position nonterminal body])
        (search.grammar.subtree search.word room (form.splice position 1 body)) before
        (search.descend room (form.splice position 1 body)
          (taken ++ [stepAt form position nonterminal body]) before)) :
    ∀ (bodies : List Form) (before : Tally σ), before.witnesses.length ≤ ambiguityThreshold →
      search.CoversTo taken
        (.forest (bodies.map fun body =>
          (search.grammar.subtree search.word room (form.splice position 1 body)).after
            (stepAt form position nonterminal body))) before
        (bodies.foldlM (search.attempt room form taken position nonterminal) before)
  | [], before, hle => Covers.nothing hle
  | body :: bodies, before, hle => by
    rw [List.map_cons, Subtree.forest_cons, List.foldlM_cons]
    refine CoversTo.bind ?_ fun middle hmiddle =>
      foldlM_attempt_covers hdeeper bodies middle hmiddle.bounded
    unfold attempt
    split
    next hknown => exact Covers.pass _ (Nat.le_antisymm hle hknown)
    next hfew => exact (hdeeper body before (Nat.lt_of_not_le hfew)).of_step

/-- **The recursion covers the subtree of its form.** -/
theorem descend_covers (search : Search σ) :
    ∀ (room : Nat) (form : Form) (taken : List Step) (before : Tally σ),
      before.witnesses.length < ambiguityThreshold →
        search.CoversTo taken (search.grammar.subtree search.word room form) before
          (search.descend room form taken before)
  | room, form, taken, before, hfew => by
    cases hs : search.grammar.status search.word form with
    | derived =>
      rw [descend_derived hs, Grammar.subtree_derived room hs]
      exact Covers.derived hfew
    | deadEnd =>
      rw [descend_deadEnd hs, Grammar.subtree_deadEnd room hs]
      exact Covers.leaf before.source (Nat.le_of_lt hfew)
    | live position nonterminal =>
      cases room with
      | zero =>
        rw [descend_live_zero hs, Grammar.subtree_live_zero hs]
        rfl
      | succ room =>
        rw [descend_live_succ hs, Grammar.subtree_live_succ room hs]
        -- the order tried differs from the order of the grammar by a permutation only
        have hperm := search.order.arrange_perm (search.grammar.bodies nonterminal) before.source
        have hsame := Subtree.same_forest_of_perm (hperm.map fun body =>
          (search.grammar.subtree search.word room (form.splice position 1 body)).after
            (stepAt form position nonterminal body))
        refine CoversTo.of_same ((Subtree.Same.refl .leaf).beside hsame) ?_
        have hleaf : search.CoversTo taken .leaf before (.ok ⟨before.witnesses,
            before.explored + 1,
            (search.order.arrange (search.grammar.bodies nonterminal) before.source).2⟩) :=
          Covers.leaf _ (Nat.le_of_lt hfew)
        exact CoversTo.bind hleaf fun middle hmiddle =>
          foldlM_attempt_covers (fun body tally => descend_covers search room _ _ tally) _ middle
            hmiddle.bounded

/-! ## The outcome of a run -/

/-- What a finished search says about the tree it searched. -/
structure Accounts (start : Form) (tree : Subtree) (found : Derivations) : Prop where
  count_eq : found.count = found.witnesses.length
  recorded : ∃ routes : List (List Step), routes.Subperm tree.routes ∧
    found.witnesses = routes.map (Trace.mk start) ∧
      (found.count < ambiguityThreshold → routes.Perm tree.routes)
  bounded : found.count ≤ ambiguityThreshold
  explored_le : found.explored ≤ tree.forms
  exhausted : found.count < ambiguityThreshold →
    tree.cut = false ∧ found.explored = tree.forms

/-- An account counts the routes of its tree, up to two. -/
theorem Accounts.count_eq_min_length {start : Form} {tree : Subtree} {found : Derivations}
    (h : Accounts start tree found) :
    found.count = min ambiguityThreshold tree.routes.length := by
  obtain ⟨routes, hsub, hwit, hall⟩ := h.recorded
  have hcount : found.count = routes.length := by
    rw [h.count_eq, hwit, List.length_map]
  have hle := hsub.length_le
  rcases Nat.lt_or_ge found.count ambiguityThreshold with hfew | hmany
  · have hlen := (hall hfew).length_eq
    omega
  · have hbound := h.bounded
    omega

/-- The forms that the derivations of the word have to go through. -/
def tree (search : Search σ) : Subtree :=
  search.grammar.subtree search.word search.depthLimit search.start

theorem run_covers (search : Search σ) (source : σ) :
    search.CoversTo [] search.tree ⟨[], 0, source⟩
      (search.descend search.depthLimit search.start [] ⟨[], 0, source⟩) :=
  descend_covers search _ _ _ _ (Nat.zero_lt_succ _)

theorem run_eq_conclude (search : Search σ) (source : σ) :
    search.run source =
      search.conclude (search.descend search.depthLimit search.start [] ⟨[], 0, source⟩) := by
  rw [run_eq_descent, descent_eq_conclude]

/-- A search that finishes accounts for its tree. -/
theorem run_found {source rest : σ} {found : Derivations}
    (h : search.run source = (.found found, rest)) : Accounts search.start search.tree found := by
  have hcovers := run_covers search source
  rw [run_eq_conclude] at h
  generalize search.descend search.depthLimit search.start [] ⟨[], 0, source⟩ = result at h hcovers
  cases result with
  | error source => cases h
  | ok tally =>
    cases h
    obtain ⟨routes, hsub, hrec, hall⟩ := hcovers.recorded
    exact ⟨rfl, ⟨routes, hsub, hrec, hall⟩, hcovers.bounded,
      Nat.zero_add search.tree.forms ▸ hcovers.explored_le,
      Nat.zero_add search.tree.forms ▸ hcovers.exhausted⟩

/-- A search aborts only if its tree was cut off. -/
theorem run_aborted {source rest : σ} {limit : Nat}
    (h : search.run source = (.aborted limit, rest)) :
    limit = search.depthLimit ∧ search.tree.cut = true := by
  have hcovers := run_covers search source
  rw [run_eq_conclude] at h
  generalize search.descend search.depthLimit search.start [] ⟨[], 0, source⟩ = result at h hcovers
  cases result with
  | ok tally => cases h
  | error source =>
    cases h
    exact ⟨rfl, hcovers⟩

end AmbiguitySearch.Search
