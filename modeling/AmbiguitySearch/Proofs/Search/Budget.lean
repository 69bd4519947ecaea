import AmbiguitySearch.Proofs.Search.Exactness
import AmbiguitySearch.Proofs.Search.Indexed
import Mathlib.Algebra.Order.BigOperators.Group.List
import Mathlib.Algebra.Ring.GeomSum

/-!
# What a search costs

A search ends whatever the grammar, with unit rules in a circle and with left
recursion, because no derivation is followed for more steps than the depth limit. The
limit bounds everything that the search keeps and does:

* `Reaches.within`: before every turn there are at most as many frames as the limit,
  each in its place. The turns taken have been paid for out of the credit that the
  search starts with (`turn_credit`), so there are only so many of them.
* `Standing.length_steps_le`: a step is recorded for a frame with a body in the form,
  so there are no more steps than frames.
* `forms_subtree_le`: if no nonterminal has more than `most` bodies, at most
  `most ^ n` forms are `n` steps below the start.

> `derive_within_limit`: the search over positions ends, and it keeps to these bounds
> on the way.
-/

namespace AmbiguitySearch

/-! ## The size of the tree -/

theorem Subtree.forms_forest (trees : List Subtree) :
    (forest trees).forms = (trees.map (·.forms)).sum := by
  induction trees with
  | nil => rfl
  | cons tree trees ih => rw [forest_cons, beside, ih, List.map_cons, List.sum_cons]

/-- Below a form there are no more forms than in a full tree. -/
theorem Grammar.forms_subtree_le {g : Grammar} {most : Nat}
    (hmost : ∀ nonterminal, (g.bodies nonterminal).length ≤ most) (word : Form) :
    ∀ (room : Nat) (form : Form),
      (g.subtree word room form).forms ≤ ∑ steps ∈ Finset.range (room + 1), most ^ steps
  | room, form => by
    have hone : 1 ≤ ∑ steps ∈ Finset.range (room + 1), most ^ steps := by
      rw [geom_sum_succ]
      exact Nat.le_add_left _ _
    cases hs : g.status word form with
    | derived => rwa [subtree_derived room hs]
    | deadEnd => rwa [subtree_deadEnd room hs]
    | live position nonterminal =>
      cases room with
      | zero => rwa [subtree_live_zero hs]
      | succ room =>
        -- one form, and below it a tree for each body
        rw [subtree_live_succ room hs, Subtree.beside, Subtree.forms_forest, List.map_map,
          geom_sum_succ, Nat.add_comm]
        refine Nat.add_le_add_right ?_ 1
        have hbelow : ∀ forms ∈ (g.bodies nonterminal).map (Subtree.forms ∘ fun body =>
            (g.subtree word room (form.splice position 1 body)).after
              (stepAt form position nonterminal body)),
            forms ≤ ∑ steps ∈ Finset.range (room + 1), most ^ steps := by
          intro forms hforms
          obtain ⟨body, -, rfl⟩ := List.mem_map.mp hforms
          exact forms_subtree_le hmost word room (form.splice position 1 body)
        refine (List.sum_le_card_nsmul _ _ hbelow).trans ?_
        rw [List.length_map, smul_eq_mul]
        exact Nat.mul_le_mul_right _ (hmost nonterminal)

namespace Search

variable {σ : Type} {search : Search σ} {state next : State σ}

/-- A search that finishes has looked at no more forms than there are in a full tree. -/
theorem explored_le_of_run {most : Nat}
    (hmost : ∀ nonterminal, (search.grammar.bodies nonterminal).length ≤ most) {source rest : σ}
    {found : Derivations} (hrun : search.run source = (.found found, rest)) :
    found.explored ≤ ∑ steps ∈ Finset.range (search.depthLimit + 1), most ^ steps :=
  (run_found hrun).explored_le.trans (Grammar.forms_subtree_le hmost _ _ _)

/-! ## The depth of the stack -/

/-- The limit is looked at before an expansion is opened. -/
theorem visit_stack_le (h : state.stack.length ≤ search.depthLimit)
    (hvisit : search.visit state = .running next) : next.stack.length ≤ search.depthLimit := by
  cases hs : search.grammar.status search.word state.form with
  | derived =>
    rw [visit_derived hs] at hvisit
    cases hvisit
    exact h
  | deadEnd =>
    rw [visit_deadEnd hs] at hvisit
    cases hvisit
    exact h
  | live position nonterminal =>
    rcases Nat.lt_or_ge state.stack.length search.depthLimit with hroom | hdeep
    · rw [visit_live hs hroom] at hvisit
      cases hvisit
      exact hroom
    · rw [visit_live_deep hs hdeep] at hvisit
      cases hvisit

theorem turn_stack_le (h : state.stack.length ≤ search.depthLimit)
    (hturn : search.turn state = .running next) : next.stack.length ≤ search.depthLimit := by
  cases hstack : state.stack with
  | nil =>
    rw [turn_nil hstack] at hturn
    cases hturn
  | cons expansion outer =>
    rw [hstack] at h
    by_cases hdone : expansion.untried = [] ∨ ambiguityThreshold ≤ state.witnesses.length
    · rw [turn_close hstack hdone] at hturn
      cases hturn
      exact (Nat.le_succ _).trans h
    · obtain ⟨huntried, hfew⟩ := not_or.mp hdone
      obtain ⟨body, untried, hbodies⟩ := List.exists_cons_of_ne_nil huntried
      rw [turn_try hstack hbodies (Nat.lt_of_not_le hfew) rfl] at hturn
      exact visit_stack_le h hturn

end Search

namespace Indexed

variable {g : Grammar} {frame : Frame} {frames outer : List Frame} {stack : List Expansion}
  {form : Form} {steps : List Step}

theorem Nested.length_frames (h : Nested g frames stack form steps) :
    frames.length = stack.length := by
  induction h with
  | base => rfl
  | inside _ _ _ _ ih => rw [List.length_cons, List.length_cons, ih]

theorem Standing.length_frames (h : Standing g frames stack form steps) :
    frames.length = stack.length := by
  cases h with
  | nested nested => exact nested.length_frames
  | fresh nested _ _ => rw [List.length_cons, List.length_cons, nested.length_frames]

/-- There is a step for every frame, the innermost left out until it has a body in the
form. -/
theorem Standing.length_steps_le (h : Standing g frames stack form steps) :
    steps.length ≤ stack.length := by
  cases h with
  | nested nested => exact Nat.le_of_eq nested.length_steps
  | fresh nested _ _ => exact Nat.le_succ_of_le (Nat.le_of_eq nested.length_steps)

/-- There are no more frames and no more steps than this. -/
structure State.Fits {σ : Type} (state : State σ) (limit : Nat) : Prop where
  frames : state.frames.length ≤ limit
  steps : state.steps.length ≤ limit

namespace Search

variable {σ : Type} {search : Search σ} {source : σ} {turns : Nat} {state inside next : State σ}

/-! ## The states of a search -/

/-- The states before each turn, with the number of turns taken to get there. -/
inductive Reaches (search : Search σ) (source : σ) : Nat → State σ → Prop
  | first {state : State σ}
      (visited : search.visit (search.initial source) = .ok (.running state)) :
      Reaches search source 0 state
  | later {turns : Nat} {state next : State σ} (reached : Reaches search source turns state)
      (taken : search.turn state = .ok (.running next)) : Reaches search source (turns + 1) next

/-- A turn puts the next body of the innermost frame in, and this is the state that it goes
on to visit. -/
inductive Places (search : Search σ) (state : State σ) : State σ → Prop
  | body {frame : Frame} {outer : List Frame} {form body replaced : Form} {steps : List Step}
      (innermost : state.frames = frame :: outer)
      (undone : frame.undo state.form state.steps = .ok (form, steps))
      (goesOn : ¬ (ambiguityThreshold ≤ state.witnesses.length ∨
        frame.next = frame.order.length))
      (chosen : frame.body search.grammar = .ok body)
      (put : replace form frame.position 1 body = .ok replaced) :
      Places search state { state with
        form := replaced
        steps := ⟨frame.nonterminal, body, replaced⟩ :: steps
        frames := { frame with next := frame.next + 1, applied := some body.length } :: outer }

theorem turn_eq_visit (h : search.Places state inside) :
    search.turn state = search.visit inside := by
  obtain @⟨frame, outer, form, body, replaced, steps, innermost, undone, goesOn, chosen, put⟩ := h
  unfold turn
  rw [innermost]
  dsimp only
  rw [undone]
  dsimp only [bind, Except.bind]
  rw [if_neg goesOn, chosen]
  dsimp only
  rw [put]

/-! ## Within the limit -/

/-- What is so before every turn. -/
structure Within (search : Search σ) (turns : Nat) (state : State σ) (stack : List Expansion) :
    Prop where
  standing : Standing search.grammar state.frames stack state.form state.steps
  room : stack.length ≤ search.depthLimit
  /-- Each turn has cost something, and what the open frames may still cost is left. -/
  paid : turns + search.toSearch.credit stack < search.toSearch.price (search.depthLimit + 1)

/-- A turn that comes to the same as one of the search over bodies leaves a state with
every frame in its place. -/
theorem exists_standing_of_tells {turn : AmbiguitySearch.Search.Turn σ}
    (h : (Turn.running state).Tells search.grammar turn) :
    ∃ stack, Standing search.grammar state.frames stack state.form state.steps ∧
      turn = .running (state.told stack) := by
  cases h with
  | running standing => exact ⟨_, standing, rfl⟩

/-- The frame opened first costs less than the whole of the credit. -/
theorem within_first (hg : search.grammar.Loaded) (hne : search.grammar.nonterminals ≠ [])
    (h : search.visit (search.initial source) = .ok (.running state)) :
    ∃ stack, search.Within 0 state stack := by
  obtain ⟨turn, hvisit, htells⟩ := search.visit_initial_tells hg hne source
  cases h.symm.trans hvisit
  obtain ⟨stack, standing, hrun⟩ := exists_standing_of_tells htells
  refine ⟨stack, standing, ?_, ?_⟩
  · have hnone : (search.toSearch.initial source).stack.length ≤ search.toSearch.depthLimit :=
      Nat.zero_le _
    exact AmbiguitySearch.Search.visit_stack_le hnone hrun
  · have hcredit := search.toSearch.visit_credit _ hrun
    rw [Nat.zero_add]
    exact hcredit.trans_eq (Nat.zero_add _)

/-- A turn costs something, and it leaves every frame in its place. -/
theorem Within.later (hg : search.grammar.Loaded) (h : search.Within turns state stack)
    (hturn : search.turn state = .ok (.running next)) :
    ∃ stack', search.Within (turns + 1) next stack' := by
  obtain ⟨turn, hsame, htells⟩ := turn_tells hg h.standing
  cases hturn.symm.trans hsame
  obtain ⟨stack', standing, hrun⟩ := exists_standing_of_tells htells
  refine ⟨stack', standing, AmbiguitySearch.Search.turn_stack_le h.room hrun, ?_⟩
  have hcredit : search.toSearch.credit stack' < search.toSearch.credit stack :=
    search.toSearch.turn_credit _ hrun
  have hpaid := h.paid
  omega

/-- **Before every turn the search is within its limit.** -/
theorem Reaches.within (hg : search.grammar.Loaded) (hne : search.grammar.nonterminals ≠ [])
    (h : search.Reaches source turns state) : ∃ stack, search.Within turns state stack := by
  induction h with
  | first visited => exact within_first hg hne visited
  | later _ taken ih =>
    obtain ⟨stack, hwithin⟩ := ih
    exact hwithin.later hg taken

theorem Within.fits (h : search.Within turns state stack) : state.Fits search.depthLimit where
  frames := h.standing.length_frames.trans_le h.room
  steps := h.standing.length_steps_le.trans h.room

/-- With the next body put in there is a step for every frame, and as many frames as
before. -/
theorem Within.fits_of_places (h : search.Within turns state stack)
    (hplaces : search.Places state inside) : inside.Fits search.depthLimit := by
  obtain @⟨frame, outer, form, body, replaced, steps, innermost, undone, _, _, _⟩ := hplaces
  have hstanding := h.standing
  rw [innermost] at hstanding
  obtain ⟨tried, rest, opened, earlier, rfl, hundo, -, -, hnested⟩ := hstanding.undo
  obtain ⟨rfl, rfl⟩ := Prod.mk.inj (Except.ok.inj (undone.symm.trans hundo))
  have hroom : rest.length + 1 ≤ search.depthLimit := h.room
  constructor
  · show outer.length + 1 ≤ search.depthLimit
    rw [hnested.length_frames]
    exact hroom
  · show steps.length + 1 ≤ search.depthLimit
    rw [hnested.length_steps]
    exact hroom

/-- **The search ends within the tree that its depth limit allows.** It comes to an
outcome whatever the grammar, the form sought and the order, and if it does not abort it has
looked at no more forms than a full tree of that depth has. It takes so many turns at most.
Neither before a turn nor when a turn has put a body in and goes on to look at the form does
it have more frames or steps than the limit. -/
theorem derive_within_limit (search : Search σ) (hg : search.grammar.Loaded)
    (hne : search.grammar.nonterminals ≠ []) (source : σ) :
    (∃ outcome rest, search.derive source = some (.ok (outcome, rest)) ∧
      search.toSearch.count source = .ok (outcome, rest) ∧
        ∀ found, outcome = .found found →
          ∀ most, (∀ nonterminal, (search.grammar.bodies nonterminal).length ≤ most) →
            found.explored ≤ ∑ steps ∈ Finset.range (search.depthLimit + 1), most ^ steps) ∧
      ∀ turns state, search.Reaches source turns state →
        turns < (search.grammar.widestChoice + 2) ^ (search.depthLimit + 1) ∧
          state.Fits search.depthLimit ∧
            ∀ inside, search.Places state inside →
              search.turn state = search.visit inside ∧ inside.Fits search.depthLimit := by
  constructor
  · refine ⟨_, _, search.derive_eq_run hg hne source,
      AmbiguitySearch.Search.count_eq_run hg hne source, ?_⟩
    intro found hfound most hmost
    have hrun : search.toSearch.run source = (.found found, (search.toSearch.run source).2) :=
      Prod.ext hfound rfl
    exact AmbiguitySearch.Search.explored_le_of_run hmost hrun
  · intro turns state hreaches
    obtain ⟨stack, hwithin⟩ := hreaches.within hg hne
    exact ⟨(Nat.le_add_right _ _).trans_lt hwithin.paid, hwithin.fits,
      fun inside hplaces => ⟨turn_eq_visit hplaces, hwithin.fits_of_places hplaces⟩⟩

/-- Within two steps a circle of unit rules has room for seven forms. The search looks at
four of them, with two frames at most. -/
theorem derive_within_limit_unitLoop :
    (∃ found rest, derive ⟨unitLoop, .asListed, 2, [.terminal 0]⟩ () =
        some (.ok (.found found, rest)) ∧ found.explored = 4 ∧ found.explored ≤ 7) ∧
      ∀ turns state, Reaches ⟨unitLoop, .asListed, 2, [.terminal 0]⟩ () turns state →
        turns < 64 ∧ state.frames.length ≤ 2 := by
  have hg : unitLoop.Loaded := .ofDefinitions _
  have hne : unitLoop.nonterminals ≠ [] := by decide
  have hwidest : unitLoop.widestChoice = 2 := by decide
  have hmost : ∀ nonterminal, (unitLoop.bodies nonterminal).length ≤ 2 := fun nonterminal =>
    hwidest ▸ unitLoop.length_bodies_le_widestChoice nonterminal
  obtain ⟨⟨outcome, rest, hderive, hcount, hexplored⟩, hreaches⟩ :=
    derive_within_limit ⟨unitLoop, .asListed, 2, [.terminal 0]⟩ hg hne ()
  constructor
  · rw [AmbiguitySearch.Search.count_eq_run hg hne,
      AmbiguitySearch.Search.run_eq_descent] at hcount
    obtain ⟨rfl, rfl⟩ := Prod.mk.inj (Except.ok.inj hcount)
    exact ⟨_, _, hderive, rfl, hexplored _ rfl 2 hmost⟩
  · intro turns state hstate
    obtain ⟨hturns, hfits, -⟩ := hreaches turns state hstate
    exact ⟨hturns, hfits.frames⟩

end Search

end Indexed

end AmbiguitySearch
