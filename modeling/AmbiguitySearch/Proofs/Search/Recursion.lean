import AmbiguitySearch.Proofs.Search.DeadEnd
import AmbiguitySearch.Proofs.Search.Subtree
import AmbiguitySearch.Search.Descent

/-!
# The machine is the recursion

`Search.run` keeps a stack of expansions and undoes what it did to the form;
`Search.descent` recurses over immutable forms. They agree on everything: the
outcome, the witnesses in their order, the number of forms visited and the state
of the rule order.

* `visit_*`, `turn_*`: what a visit and a turn do, one equation for each case.
* `unwind`: what the open expansions still have to do, told by the recursion.
* `Restores`: undoing finds the nonterminals where the expansions left them.

> `turn_agrees`: a turn changes nothing about what is left to do.

From it, `run_eq_descent` is an induction over the turns.
-/

namespace AmbiguitySearch.Search

variable {σ : Type} {search : Search σ} {state : State σ}

/-! ## One equation for each case -/

/-- A state with the depth that belongs to its stack. -/
def State.ofStack (form : Form) (steps : List Step) (stack : List Expansion)
    (witnesses : List Trace) (explored : Nat) (source : σ) : State σ where
  form := form
  steps := steps
  stack := stack
  depth := stack.length
  witnesses := witnesses
  explored := explored
  source := source

theorem State.eq_ofStack (state : State σ) :
    state = .ofStack state.form state.steps state.stack state.witnesses state.explored
      state.source := by
  obtain ⟨form, steps, stack, depth, witnesses, explored, source, rfl⟩ := state
  rfl

theorem visit_derived (h : search.grammar.status search.word state.form = .derived) :
    search.visit state = .running (.ofStack state.form state.steps state.stack
      (state.witnesses ++ [⟨search.start, state.steps.reverse⟩]) (state.explored + 1)
      state.source) := by
  simp only [visit, h]
  exact congrArg Turn.running (State.eq_ofStack _)

theorem visit_deadEnd (h : search.grammar.status search.word state.form = .deadEnd) :
    search.visit state = .running (.ofStack state.form state.steps state.stack state.witnesses
      (state.explored + 1) state.source) := by
  simp only [visit, h]
  exact congrArg Turn.running (State.eq_ofStack _)

theorem visit_live_deep {position nonterminal : Nat}
    (h : search.grammar.status search.word state.form = .live position nonterminal)
    (hdeep : search.depthLimit ≤ state.stack.length) :
    search.visit state = .aborted state.source := by
  simp only [visit, h]
  rw [if_pos (by rw [state.depth_eq]; exact hdeep)]

theorem visit_live {position nonterminal : Nat}
    (h : search.grammar.status search.word state.form = .live position nonterminal)
    (hroom : state.stack.length < search.depthLimit) :
    search.visit state = .running (.ofStack state.form state.steps
      (⟨position, nonterminal, [],
        (search.order.arrange (search.grammar.bodies nonterminal) state.source).1⟩ :: state.stack)
      state.witnesses (state.explored + 1)
      (search.order.arrange (search.grammar.bodies nonterminal) state.source).2) := by
  simp only [visit, h]
  rw [if_neg (by rw [state.depth_eq]; exact Nat.not_le.mpr hroom)]
  exact congrArg Turn.running (State.eq_ofStack _)

theorem turn_nil (hstack : state.stack = []) : search.turn state = .finished state := by
  unfold turn
  split
  next => rfl
  next heq => rw [hstack] at heq; cases heq

/-- An expansion is closed when it has no body left or when enough is known. -/
theorem turn_close {expansion : Expansion} {outer : List Expansion}
    (hstack : state.stack = expansion :: outer)
    (hdone : expansion.untried = [] ∨ ambiguityThreshold ≤ state.witnesses.length) :
    search.turn state = .running (.ofStack (undo expansion state.form state.steps).1
      (undo expansion state.form state.steps).2 outer state.witnesses state.explored
      state.source) := by
  unfold turn
  split
  next heq => rw [hstack] at heq; cases heq
  next heq =>
    rw [hstack] at heq
    cases heq
    dsimp only
    split
    next => exact congrArg Turn.running (State.eq_ofStack _)
    next huntried =>
      have hknown : ambiguityThreshold ≤ state.witnesses.length := by
        rcases hdone with h | h
        · rw [h] at huntried; cases huntried
        · exact h
      rw [if_pos hknown]
      exact congrArg Turn.running (State.eq_ofStack _)

/-- Otherwise its next body is tried. -/
theorem turn_try {expansion : Expansion} {outer : List Expansion} {body : Form}
    {untried : List Form} (hstack : state.stack = expansion :: outer)
    (huntried : expansion.untried = body :: untried)
    (hfew : state.witnesses.length < ambiguityThreshold) {form : Form} {steps : List Step}
    (hundo : undo expansion state.form state.steps = (form, steps)) :
    search.turn state = search.visit (.ofStack (form.splice expansion.position 1 body)
      (stepAt form expansion.position expansion.nonterminal body :: steps)
      ({ expansion with tried := body :: expansion.tried, untried } :: outer)
      state.witnesses state.explored state.source) := by
  unfold turn
  split
  next heq => rw [hstack] at heq; cases heq
  next heq =>
    rw [hstack] at heq
    cases heq
    rw [hundo]
    dsimp only
    split
    next h => rw [h] at huntried; cases huntried
    next h =>
      rw [h] at huntried
      cases huntried
      rw [if_neg (Nat.not_le.mpr hfew)]
      exact congrArg search.visit (State.eq_ofStack _)

/-! ## The recursion -/

/-- What the recursion does with one body of a live form. -/
def attempt (search : Search σ) (room : Nat) (form : Form) (taken : List Step)
    (position nonterminal : Nat) (tally : Tally σ) (body : Form) : Except σ (Tally σ) :=
  if ambiguityThreshold ≤ tally.witnesses.length then .ok tally
  else search.descend room (form.splice position 1 body)
    (taken ++ [stepAt form position nonterminal body]) tally

section Descend

variable {room position nonterminal : Nat} {form : Form} {taken : List Step} {tally : Tally σ}

theorem descend_derived (h : search.grammar.status search.word form = .derived) :
    search.descend room form taken tally =
      .ok ⟨tally.witnesses ++ [⟨search.start, taken⟩], tally.explored + 1, tally.source⟩ := by
  cases room <;> rw [descend, h]

theorem descend_deadEnd (h : search.grammar.status search.word form = .deadEnd) :
    search.descend room form taken tally =
      .ok ⟨tally.witnesses, tally.explored + 1, tally.source⟩ := by
  cases room <;> rw [descend, h]

theorem descend_live_zero (h : search.grammar.status search.word form = .live position nonterminal) :
    search.descend 0 form taken tally = .error tally.source := by
  rw [descend, h]

theorem descend_live_succ (h : search.grammar.status search.word form = .live position nonterminal) :
    search.descend (room + 1) form taken tally =
      (search.order.arrange (search.grammar.bodies nonterminal) tally.source).1.foldlM
        (search.attempt room form taken position nonterminal)
        ⟨tally.witnesses, tally.explored + 1,
          (search.order.arrange (search.grammar.bodies nonterminal) tally.source).2⟩ := by
  rw [descend, h]
  rfl

/-- Once enough derivations are known, the bodies left are passed over. -/
theorem foldlM_attempt_of_enough (hknown : ambiguityThreshold ≤ tally.witnesses.length) :
    ∀ bodies : List Form,
      bodies.foldlM (search.attempt room form taken position nonterminal) tally = .ok tally
  | [] => rfl
  | body :: bodies => by
    rw [List.foldlM_cons, attempt, if_pos hknown]
    exact foldlM_attempt_of_enough hknown bodies

end Descend

/-! ## What is left to do -/

/-- The part of a state that the recursion knows. -/
def State.tally (state : State σ) : Tally σ := ⟨state.witnesses, state.explored, state.source⟩

/-- The rest of the search, seen from open expansions: for each of them, the
innermost first, undo the body in the form and try the bodies left. -/
def unwind (search : Search σ) :
    List Expansion → Form → List Step → Tally σ → Except σ (Tally σ)
  | [], _, _, tally => .ok tally
  | expansion :: outer, form, steps, tally =>
    match undo expansion form steps with
    | (form, steps) => do
      let tally ← expansion.untried.foldlM
        (search.attempt (search.depthLimit - (outer.length + 1)) form steps.reverse
          expansion.position expansion.nonterminal) tally
      search.unwind outer form steps tally

/-- The rest of the search, seen from a state. -/
def State.rest (search : Search σ) (state : State σ) : Except σ (Tally σ) :=
  search.unwind state.stack state.form state.steps state.tally

/-- Every open expansion finds its nonterminal in its place, once it and
everything inside it is undone. -/
def Restores : List Expansion → Form → Prop
  | [], _ => True
  | expansion :: outer, form =>
    (undo expansion form []).1[expansion.position]? = some (.nonterminal expansion.nonterminal) ∧
      Restores outer (undo expansion form []).1

theorem undo_form (expansion : Expansion) (form : Form) (steps steps' : List Step) :
    (undo expansion form steps).1 = (undo expansion form steps').1 := by
  unfold undo
  cases expansion.tried with
  | nil => rfl
  | cons => rfl

theorem unwind_cons {expansion : Expansion} {outer : List Expansion} {form undone : Form}
    {steps earlier : List Step} {tally : Tally σ}
    (hundo : undo expansion form steps = (undone, earlier)) :
    search.unwind (expansion :: outer) form steps tally = (do
      let tally ← expansion.untried.foldlM
        (search.attempt (search.depthLimit - (outer.length + 1)) undone earlier.reverse
          expansion.position expansion.nonterminal) tally
      search.unwind outer undone earlier tally) := by
  rw [unwind, hundo]

theorem restores_cons {expansion : Expansion} {outer : List Expansion} {form undone : Form}
    {steps earlier : List Step} (hundo : undo expansion form steps = (undone, earlier)) :
    Restores (expansion :: outer) form ↔
      undone[expansion.position]? = some (.nonterminal expansion.nonterminal) ∧
        Restores outer undone := by
  rw [Restores, undo_form expansion form [] steps, hundo]

/-- Undoing takes back what trying a body did. -/
theorem undo_tried {expansion : Expansion} {form body : Form} {steps : List Step} {step : Step}
    {tried untried : List Form}
    (h : form[expansion.position]? = some (.nonterminal expansion.nonterminal)) :
    undo { expansion with tried := body :: tried, untried } (form.splice expansion.position 1 body)
      (step :: steps) = (form, steps) := by
  simp only [undo, Form.splice_splice_of_getElem? h, List.tail_cons]

/-- A turn leads to where the recursion leads that has `rest` still to do. -/
def Agrees (search : Search σ) (rest : Except σ (Tally σ)) : Turn σ → Prop
  | .running next => Restores next.stack next.form ∧ next.rest search = rest
  | .finished final => final.stack = [] ∧ rest = .ok final.tally
  | .aborted source => rest = .error source

/-- A visit leaves over what the recursion does below the form, and then the
expansions that were open before. -/
theorem visit_agrees (h : Restores state.stack state.form) :
    search.Agrees (do
      let tally ← search.descend (search.depthLimit - state.stack.length) state.form
        state.steps.reverse state.tally
      search.unwind state.stack state.form state.steps tally) (search.visit state) := by
  cases hs : search.grammar.status search.word state.form with
  | derived =>
    rw [visit_derived hs, descend_derived hs]
    exact ⟨h, rfl⟩
  | deadEnd =>
    rw [visit_deadEnd hs, descend_deadEnd hs]
    exact ⟨h, rfl⟩
  | live position nonterminal =>
    rcases Nat.lt_or_ge state.stack.length search.depthLimit with hroom | hdeep
    · have hlevel : search.depthLimit - state.stack.length =
          search.depthLimit - (state.stack.length + 1) + 1 := by omega
      rw [visit_live hs hroom, hlevel, descend_live_succ hs]
      refine ⟨⟨?_, h⟩, rfl⟩
      -- the new expansion stands where the form has its first nonterminal
      exact Form.getElem?_of_firstNonterminal? (Grammar.status_eq_live_iff.mp hs).2.1
    · rw [visit_live_deep hs hdeep, Nat.sub_eq_zero_of_le hdeep, descend_live_zero hs]
      rfl

section Innermost

variable {expansion : Expansion} {outer : List Expansion} {form body : Form} {steps : List Step}
  {untried : List Form}

/-- What is left is to try the bodies left of the innermost expansion, and then
whatever the outer ones have left. -/
theorem rest_cons (hstack : state.stack = expansion :: outer)
    (hundo : undo expansion state.form state.steps = (form, steps)) :
    state.rest search = (do
      let tally ← expansion.untried.foldlM
        (search.attempt (search.depthLimit - (outer.length + 1)) form steps.reverse
          expansion.position expansion.nonterminal) state.tally
      search.unwind outer form steps tally) := by
  rw [State.rest, hstack, unwind_cons hundo]

/-- An expansion that is done leaves nothing but the outer ones. -/
theorem rest_of_done (hstack : state.stack = expansion :: outer)
    (hundo : undo expansion state.form state.steps = (form, steps))
    (hdone : expansion.untried = [] ∨ ambiguityThreshold ≤ state.witnesses.length) :
    state.rest search = search.unwind outer form steps state.tally := by
  rw [rest_cons hstack hundo]
  rcases hdone with hnone | hknown
  · rw [hnone]
    rfl
  · have htally : ambiguityThreshold ≤ state.tally.witnesses.length := hknown
    rw [foldlM_attempt_of_enough htally]
    rfl

/-- The body tried first is what the recursion does next, the others stay open. -/
theorem rest_of_try (hstack : state.stack = expansion :: outer)
    (hundo : undo expansion state.form state.steps = (form, steps))
    (hbodies : expansion.untried = body :: untried)
    (hfew : ¬ ambiguityThreshold ≤ state.witnesses.length)
    (hback : undo { expansion with tried := body :: expansion.tried, untried }
      (form.splice expansion.position 1 body)
      (stepAt form expansion.position expansion.nonterminal body :: steps) = (form, steps)) :
    state.rest search = (do
      let tally ← search.descend (search.depthLimit - (outer.length + 1))
        (form.splice expansion.position 1 body)
        (stepAt form expansion.position expansion.nonterminal body :: steps).reverse state.tally
      search.unwind ({ expansion with tried := body :: expansion.tried, untried } :: outer)
        (form.splice expansion.position 1 body)
        (stepAt form expansion.position expansion.nonterminal body :: steps) tally) := by
  have htally : ¬ ambiguityThreshold ≤ state.tally.witnesses.length := hfew
  rw [rest_cons hstack hundo, hbodies, List.foldlM_cons, attempt, if_neg htally, bind_assoc,
    List.reverse_cons]
  exact bind_congr fun tally => (unwind_cons hback).symm

end Innermost

/-- A turn changes nothing about what is left to do. -/
theorem turn_agrees (h : Restores state.stack state.form) :
    search.Agrees (state.rest search) (search.turn state) := by
  cases hstack : state.stack with
  | nil =>
    rw [turn_nil hstack]
    refine ⟨hstack, ?_⟩
    rw [State.rest, hstack, unwind]
  | cons expansion outer =>
    rcases hundo : undo expansion state.form state.steps with ⟨form, steps⟩
    rw [hstack, restores_cons hundo] at h
    obtain ⟨hplace, hrestores⟩ := h
    by_cases hdone : expansion.untried = [] ∨ ambiguityThreshold ≤ state.witnesses.length
    · rw [turn_close hstack hdone, rest_of_done hstack hundo hdone, hundo]
      exact ⟨hrestores, rfl⟩
    · obtain ⟨huntried, hfew⟩ := not_or.mp hdone
      obtain ⟨body, untried, hbodies⟩ := List.exists_cons_of_ne_nil huntried
      have hback : undo { expansion with tried := body :: expansion.tried, untried }
          (form.splice expansion.position 1 body)
          (stepAt form expansion.position expansion.nonterminal body :: steps) = (form, steps) :=
        undo_tried hplace
      rw [turn_try hstack hbodies (Nat.lt_of_not_le hfew) hundo,
        rest_of_try hstack hundo hbodies hfew hback]
      exact visit_agrees ((restores_cons hback).mpr ⟨hplace, hrestores⟩)

/-- Taking turns to the end comes to what was left to do. -/
def conclude (search : Search σ) : Except σ (Tally σ) → Outcome × σ
  | .ok tally =>
    (.found ⟨tally.witnesses.length, tally.witnesses, tally.explored⟩, tally.source)
  | .error source => (.aborted search.depthLimit, source)

theorem resume_eq_conclude (search : Search σ) (state : State σ)
    (h : Restores state.stack state.form) :
    search.resume state = search.conclude (state.rest search) := by
  have hagrees : search.Agrees (state.rest search) (search.turn state) := turn_agrees h
  rw [resume]
  split
  next next hturn =>
    rw [hturn] at hagrees
    rw [resume_eq_conclude search next hagrees.1, hagrees.2]
  next final hturn =>
    rw [hturn] at hagrees
    rw [hagrees.2]
    rfl
  next source hturn =>
    rw [hturn] at hagrees
    rw [show state.rest search = .error source from hagrees]
    rfl
termination_by search.credit state.stack
decreasing_by exact search.turn_credit state ‹_›

theorem descent_eq_conclude (search : Search σ) (source : σ) :
    search.descent source =
      search.conclude (search.descend search.depthLimit search.start [] ⟨[], 0, source⟩) := by
  unfold descent
  split
  next heq => rw [heq]; rfl
  next heq => rw [heq]; rfl

/-- **The machine is the recursion**: same outcome, same witnesses in the same
order, same number of forms, and the rule order left in the same state. -/
theorem run_eq_descent (search : Search σ) (source : σ) :
    search.run source = search.descent source := by
  have hvisit : search.Agrees (search.descend search.depthLimit search.start [] ⟨[], 0, source⟩)
      (search.visit (search.initial source)) := by
    rw [← bind_pure (search.descend _ _ _ _)]
    exact visit_agrees trivial
  rw [descent_eq_conclude, run]
  split
  next state heq =>
    rw [heq] at hvisit
    rw [resume_eq_conclude search state hvisit.1, hvisit.2]
  next final heq =>
    rw [heq] at hvisit
    obtain ⟨hstack, hrest⟩ := hvisit
    have hdone : final.rest search = .ok final.tally := by rw [State.rest, hstack, unwind]
    rw [resume_eq_conclude search final (by rw [hstack]; trivial), hdone, hrest]
  next source' heq =>
    rw [heq] at hvisit
    rw [show search.descend _ _ _ _ = .error source' from hvisit]
    rfl

end AmbiguitySearch.Search
