import AmbiguitySearch.Proofs.Search.Exactness

/-!
# The search as it is told

Told without a stack, a search is a procedure on forms that nobody changes: look
at a form, and if it may lead to the word, put each body in the place of its
first nonterminal and look at the form that results. `explore` says so in full,
with every reason to turn back and with a count of the bodies put in. It differs
from `descend` in that it knows the steps taken and not the steps left, and in
that it asks no `status`.

> `count_refines_procedure`: the machine gives the result of the procedure, and
> leaves the rule order in the same state, also if it aborts.

> `turn_advanced`: a turn looks at a form exactly if it puts a body in.

So of a search that finishes, every form but the first was made by putting a body
in.
-/

namespace AmbiguitySearch.Search

variable {σ : Type} {search : Search σ}

/-! ## The procedure -/

/-- What has been seen and done so far. -/
structure Ledger (σ : Type) extends Tally σ where
  /-- How many times a body was put in the place of a nonterminal. -/
  substitutions : Nat

/-- Looks at a form that some steps led to, and at everything below it. -/
def explore (search : Search σ) (form : Form) (steps : List Step) (ledger : Ledger σ) :
    Except σ (Ledger σ) :=
  let ledger := { ledger with explored := ledger.explored + 1 }
  if form = search.word then
    .ok { ledger with witnesses := ledger.witnesses ++ [⟨search.start, steps⟩] }
  -- a symbol that cannot vanish keeps the empty word away
  else if search.word.isEmpty && !form.all search.grammar.isNullable then .ok ledger
  else
    match form.firstNonterminal? with
    | none => .ok ledger
    | some (position, nonterminal) =>
      if search.word.length < position then .ok ledger
      else if form.take position ≠ search.word.take position then .ok ledger
      else if search.word.length < search.grammar.letters form then .ok ledger
      else if search.depthLimit ≤ steps.length then .error ledger.source
      else
        match search.order.arrange (search.grammar.bodies nonterminal) ledger.source with
        | (bodies, source) =>
          bodies.foldlM
            (fun ledger body =>
              if ambiguityThreshold ≤ ledger.witnesses.length then .ok ledger
              else
                let replaced := form.splice position 1 body
                search.explore replaced (steps ++ [⟨nonterminal, body, replaced⟩])
                  { ledger with substitutions := ledger.substitutions + 1 })
            { ledger with source }
termination_by search.depthLimit - steps.length
decreasing_by
  rw [List.length_append, List.length_singleton]
  omega

/-- The procedure from the start symbol. -/
def procedure (search : Search σ) (source : σ) : Except σ (Ledger σ) :=
  search.explore search.start [] ⟨⟨[], 0, source⟩, 0⟩

/-- What the procedure does with one body of a form. -/
def substitute (search : Search σ) (form : Form) (steps : List Step) (position nonterminal : Nat)
    (ledger : Ledger σ) (body : Form) : Except σ (Ledger σ) :=
  if ambiguityThreshold ≤ ledger.witnesses.length then .ok ledger
  else search.explore (form.splice position 1 body)
    (steps ++ [stepAt form position nonterminal body])
    { ledger with substitutions := ledger.substitutions + 1 }

/-- The reasons to turn back are those of the status. -/
theorem explore_eq {form : Form} {steps : List Step} {ledger : Ledger σ} :
    search.explore form steps ledger =
    match search.grammar.status search.word form with
    | .derived => .ok { ledger with
        explored := ledger.explored + 1
        witnesses := ledger.witnesses ++ [⟨search.start, steps⟩] }
    | .deadEnd => .ok { ledger with explored := ledger.explored + 1 }
    | .live position nonterminal =>
      if search.depthLimit ≤ steps.length then .error ledger.source
      else (search.order.arrange (search.grammar.bodies nonterminal) ledger.source).1.foldlM
        (search.substitute form steps position nonterminal)
        { ledger with
          explored := ledger.explored + 1
          source := (search.order.arrange (search.grammar.bodies nonterminal) ledger.source).2 } := by
  rw [explore, Grammar.status]
  by_cases hword : form = search.word
  · rw [if_pos hword, if_pos hword]
  rw [if_neg hword, if_neg hword]
  by_cases hempty : (search.word.isEmpty && !form.all search.grammar.isNullable) = true
  · rw [if_pos hempty, if_pos hempty]
  rw [if_neg hempty, if_neg hempty]
  cases form.firstNonterminal? with
  | none => rfl
  | some found =>
    dsimp only
    by_cases hlong : search.word.length < found.1
    · rw [if_pos hlong, if_pos hlong]
    rw [if_neg hlong, if_neg hlong]
    by_cases htake : form.take found.1 ≠ search.word.take found.1
    · rw [if_pos htake, if_pos htake]
    rw [if_neg htake, if_neg htake]
    by_cases hletters : search.word.length < search.grammar.letters form
    · rw [if_pos hletters, if_pos hletters]
    rw [if_neg hletters, if_neg hletters]
    rfl

/-! ## The procedure is the recursion -/

/-- The procedure comes to the same as the recursion, and on the way it has looked
at as many forms as it has put bodies in. -/
def Follows (before : Ledger σ) : Except σ (Ledger σ) → Except σ (Tally σ) → Prop
  | .ok after, .ok tally => after.toTally = tally ∧
      after.explored + before.substitutions = before.explored + after.substitutions
  | .error source, .error source' => source = source'
  | _, _ => False

theorem Follows.trans {before middle : Ledger σ} {result : Except σ (Ledger σ)}
    {told : Except σ (Tally σ)}
    (h : middle.explored + before.substitutions = before.explored + middle.substitutions)
    (h' : Follows middle result told) : Follows before result told := by
  cases result with
  | error source =>
    cases told with
    | error source' => exact h'
    | ok tally => exact h'
  | ok after =>
    cases told with
    | error source' => exact h'
    | ok tally =>
      obtain ⟨htally, hafter⟩ := h'
      exact ⟨htally, by omega⟩

theorem Follows.bind {before : Ledger σ} {result : Except σ (Ledger σ)}
    {told : Except σ (Tally σ)} {next : Ledger σ → Except σ (Ledger σ)}
    {next' : Tally σ → Except σ (Tally σ)} (h : Follows before result told)
    (h' : ∀ middle : Ledger σ, Follows middle (next middle) (next' middle.toTally)) :
    Follows before (result >>= next) (told >>= next') := by
  cases result with
  | error source =>
    cases told with
    | error source' => exact h
    | ok tally => exact False.elim h
  | ok middle =>
    cases told with
    | error source' => exact False.elim h
    | ok tally =>
      obtain ⟨rfl, hmiddle⟩ := h
      exact (h' middle).trans hmiddle

/-- Trying bodies, provided that the form each leads to is looked at as in the
recursion. -/
theorem foldlM_substitute_follows {form : Form} {steps : List Step}
    {room position nonterminal : Nat}
    (hdeeper : ∀ (body : Form) (before : Ledger σ),
      Follows { before with explored := before.explored + 1 }
        (search.explore (form.splice position 1 body)
          (steps ++ [stepAt form position nonterminal body]) before)
        (search.descend room (form.splice position 1 body)
          (steps ++ [stepAt form position nonterminal body]) before.toTally)) :
    ∀ (bodies : List Form) (before : Ledger σ), Follows before
      (bodies.foldlM (search.substitute form steps position nonterminal) before)
      (bodies.foldlM (search.attempt room form steps position nonterminal) before.toTally)
  | [], before => ⟨rfl, rfl⟩
  | body :: bodies, before => by
    rw [List.foldlM_cons, List.foldlM_cons]
    refine Follows.bind ?_ fun middle => foldlM_substitute_follows hdeeper bodies middle
    unfold substitute attempt
    by_cases hknown : ambiguityThreshold ≤ before.witnesses.length
    · rw [if_pos hknown, if_pos hknown]
      exact ⟨rfl, rfl⟩
    · rw [if_neg hknown, if_neg hknown]
      -- the body put in is balanced by the form looked at
      refine Follows.trans ?_ (hdeeper body { before with
        substitutions := before.substitutions + 1 })
      show before.explored + 1 + before.substitutions =
        before.explored + (before.substitutions + 1)
      omega

/-- The steps taken leave as much room as the recursion is given. -/
theorem explore_follows (search : Search σ) :
    ∀ (room : Nat) (form : Form) (steps : List Step) (before : Ledger σ),
      steps.length + room = search.depthLimit →
        Follows { before with explored := before.explored + 1 }
          (search.explore form steps before) (search.descend room form steps before.toTally)
  | room, form, steps, before, hroom => by
    rw [explore_eq]
    cases hs : search.grammar.status search.word form with
    | derived =>
      rw [descend_derived hs]
      exact ⟨rfl, rfl⟩
    | deadEnd =>
      rw [descend_deadEnd hs]
      exact ⟨rfl, rfl⟩
    | live position nonterminal =>
      dsimp only
      cases room with
      | zero =>
        rw [descend_live_zero hs, if_pos (by omega)]
        rfl
      | succ room =>
        rw [descend_live_succ hs, if_neg (by omega)]
        refine Follows.trans rfl (foldlM_substitute_follows (fun body ledger => ?_) _ _)
        apply explore_follows search room
        rw [List.length_append, List.length_singleton]
        omega

/-- The procedure told as the recursion is. -/
theorem procedure_follows (search : Search σ) (source : σ) :
    Follows ⟨⟨[], 1, source⟩, 0⟩ (search.procedure source)
      (search.descend search.depthLimit search.start [] ⟨[], 0, source⟩) :=
  search.explore_follows search.depthLimit search.start [] ⟨⟨[], 0, source⟩, 0⟩ (Nat.zero_add _)

theorem conclude_eq_of_follows {before : Ledger σ} {result : Except σ (Ledger σ)}
    {told : Except σ (Tally σ)} (h : Follows before result told) :
    search.conclude told = search.conclude (result.map (·.toTally)) := by
  cases result with
  | error source =>
    cases told with
    | error source' =>
      rw [show source = source' from h]
      rfl
    | ok tally => exact False.elim h
  | ok after =>
    cases told with
    | error source' => exact False.elim h
    | ok tally =>
      rw [← h.1]
      rfl

/-! ## The substitutions of the machine -/

/-- Whether the next turn puts a body in the place of a nonterminal: the innermost
expansion has one left, and not enough derivations are known. -/
def State.substitutes (state : State σ) : Bool :=
  match state.stack with
  | [] => false
  | expansion :: _ =>
    !expansion.untried.isEmpty && decide (state.witnesses.length < ambiguityThreshold)

/-- How many of the turns still to be taken put a body in. -/
def substitutionsFrom (search : Search σ) (state : State σ) : Nat :=
  state.substitutes.toNat +
    match _taken : search.turn state with
    | .running next => search.substitutionsFrom next
    | .finished _ => 0
    | .aborted _ => 0
termination_by search.credit state.stack
decreasing_by exact search.turn_credit state _taken

/-- How many turns of a run put a body in. -/
def substitutions (search : Search σ) (source : σ) : Nat :=
  match search.visit (search.initial source) with
  | .running state => search.substitutionsFrom state
  | .finished state => search.substitutionsFrom state
  | .aborted _ => 0

variable {state next : State σ}

/-- A visit looks at one form, and leaves the search running or aborts it. -/
def State.LookedAt (state : State σ) : Turn σ → Prop
  | .running next => next.explored = state.explored + 1
  | .finished _ => False
  | .aborted _ => True

theorem visit_lookedAt (search : Search σ) (state : State σ) :
    state.LookedAt (search.visit state) := by
  cases hs : search.grammar.status search.word state.form with
  | derived =>
    rw [visit_derived hs]
    rfl
  | deadEnd =>
    rw [visit_deadEnd hs]
    rfl
  | live position nonterminal =>
    rcases Nat.lt_or_ge state.stack.length search.depthLimit with hroom | hdeep
    · rw [visit_live hs hroom]
      rfl
    · rw [visit_live_deep hs hdeep]
      trivial

/-- A turn looks at a form exactly if it puts a body in, and the search finishes
only where no expansion is open. -/
def State.Advanced (state : State σ) : Turn σ → Prop
  | .running next => next.explored = state.explored + state.substitutes.toNat
  | .finished final => state.stack = [] ∧ final = state
  | .aborted _ => True

theorem turn_advanced (search : Search σ) (state : State σ) :
    state.Advanced (search.turn state) := by
  cases hstack : state.stack with
  | nil =>
    rw [turn_nil hstack]
    exact ⟨hstack, rfl⟩
  | cons expansion outer =>
    by_cases hdone : expansion.untried = [] ∨ ambiguityThreshold ≤ state.witnesses.length
    · have hnot : state.substitutes = false := by
        unfold State.substitutes
        rw [hstack]
        rcases hdone with hnone | hknown
        · simp [hnone]
        · simp [Nat.not_lt.mpr hknown]
      rw [turn_close hstack hdone]
      show state.explored = state.explored + state.substitutes.toNat
      rw [hnot]
      rfl
    · obtain ⟨huntried, hmany⟩ := not_or.mp hdone
      have hfew : state.witnesses.length < ambiguityThreshold := Nat.lt_of_not_le hmany
      obtain ⟨body, untried, hbodies⟩ := List.exists_cons_of_ne_nil huntried
      have hsubst : state.substitutes = true := by
        unfold State.substitutes
        rw [hstack]
        simp [hbodies, hfew]
      rcases hundo : undo expansion state.form state.steps with ⟨form, steps⟩
      rw [turn_try hstack hbodies hfew hundo]
      generalize hinside : State.ofStack _ _ _ _ _ _ = inside
      have hexplored : inside.explored = state.explored := by
        rw [← hinside]
        rfl
      have hvisit := search.visit_lookedAt inside
      revert hvisit
      cases search.visit inside with
      | running next =>
        intro hvisit
        show next.explored = state.explored + state.substitutes.toNat
        rw [hsubst, show next.explored = inside.explored + 1 from hvisit, hexplored]
        rfl
      | finished final => exact False.elim
      | aborted source => exact fun _ => trivial

theorem substitutionsFrom_running (h : search.turn state = .running next) :
    search.substitutionsFrom state = state.substitutes.toNat + search.substitutionsFrom next := by
  rw [substitutionsFrom]
  split
  next heq =>
    cases h.symm.trans heq
    rfl
  next heq => cases h.symm.trans heq
  next heq => cases h.symm.trans heq

theorem substitutionsFrom_nil (h : state.stack = []) : search.substitutionsFrom state = 0 := by
  have hnot : state.substitutes = false := by
    unfold State.substitutes
    rw [h]
  have hturn : search.turn state = .finished state := turn_nil h
  rw [substitutionsFrom, hnot]
  split
  next heq => cases hturn.symm.trans heq
  next => rfl
  next => rfl

/-- From any state on, a search that finishes looks at a form for each body it puts
in. -/
theorem resume_explored (search : Search σ) (state : State σ) {found : Derivations} {rest : σ}
    (h : search.resume state = (.found found, rest)) :
    found.explored = state.explored + search.substitutionsFrom state := by
  have hadvanced := search.turn_advanced state
  rw [resume] at h
  split at h
  next next hturn =>
    rw [hturn] at hadvanced
    have hrest := resume_explored search next h
    rw [substitutionsFrom_running hturn, hrest,
      show next.explored = state.explored + state.substitutes.toNat from hadvanced, Nat.add_assoc]
  next final hturn =>
    rw [hturn] at hadvanced
    obtain ⟨hstack, rfl⟩ := hadvanced
    rw [substitutionsFrom_nil hstack]
    cases h
    rfl
  next => cases h
termination_by search.credit state.stack
decreasing_by exact search.turn_credit state ‹_›

/-- A run that finishes has looked at the start, and at a form for each body put
in. -/
theorem run_explored {source rest : σ} {found : Derivations}
    (h : search.run source = (.found found, rest)) :
    found.explored = 1 + search.substitutions source := by
  have hvisit := search.visit_lookedAt (search.initial source)
  rw [run] at h
  unfold substitutions
  cases hfirst : search.visit (search.initial source) with
  | running state =>
    rw [hfirst] at h hvisit
    rw [resume_explored search state h, show state.explored = 0 + 1 from hvisit]
  | finished state =>
    rw [hfirst] at hvisit
    exact False.elim hvisit
  | aborted source' =>
    rw [hfirst] at h
    cases h

/-- **The machine refines the procedure**, for any form sought: it ends the same
way, with the same derivations in the same order and the same number of forms, and
it leaves the rule order in the same state. If it does not abort, both have looked
at the start and at one form for each body put in. -/
theorem count_refines_procedure (search : Search σ) (hg : search.grammar.Loaded)
    (hne : search.grammar.nonterminals ≠ []) (source : σ) :
    search.count source =
        .ok (search.conclude ((search.procedure source).map (·.toTally))) ∧
      ∀ ledger, search.procedure source = .ok ledger →
        ledger.explored = 1 + ledger.substitutions ∧
          ledger.explored = 1 + search.substitutions source := by
  have hfollows := search.procedure_follows source
  have hrun := search.run_eq_conclude source
  rw [conclude_eq_of_follows hfollows] at hrun
  refine ⟨by rw [count_eq_run hg hne, hrun], ?_⟩
  intro ledger hledger
  rw [hledger] at hrun hfollows
  constructor
  · generalize search.descend search.depthLimit search.start [] ⟨[], 0, source⟩ = told at hfollows
    cases told with
    | error source' => exact False.elim hfollows
    | ok tally =>
      have hbalance : ledger.explored + 0 = 1 + ledger.substitutions := hfollows.2
      exact hbalance
  · exact run_explored hrun

/-- Two letters have one derivation, found after putting in six bodies. -/
theorem count_refines_procedure_concatenation :
    ∃ trace ledger,
      count ⟨concatenation, .asListed, 20, [.terminal 0, .terminal 0]⟩ () =
        .ok (.found ⟨1, [trace], 7⟩, ()) ∧
      procedure ⟨concatenation, .asListed, 20, [.terminal 0, .terminal 0]⟩ () = .ok ledger ∧
        ledger.witnesses = [trace] ∧ ledger.substitutions = 6 := by
  have hg : concatenation.Loaded := .ofDefinitions _
  have hne : concatenation.nonterminals ≠ [] := by decide
  obtain ⟨search, hsearch⟩ : ∃ search : Search Unit,
    search = ⟨concatenation, .asListed, 20, [.terminal 0, .terminal 0]⟩ := ⟨_, rfl⟩
  obtain ⟨hcount, hledger⟩ := count_refines_procedure search (hsearch ▸ hg) (hsearch ▸ hne) ()
  have hrun : ∃ trace, search.count () = .ok (.found ⟨1, [trace], 7⟩, ()) := by
    rw [hsearch, count_eq_run hg hne, run_eq_descent]
    exact ⟨_, rfl⟩
  obtain ⟨trace, hrun⟩ := hrun
  rw [← hsearch]
  cases hprocedure : search.procedure () with
  | error source =>
    rw [hprocedure, hrun] at hcount
    cases hcount
  | ok ledger =>
    have hforms := (hledger ledger hprocedure).1
    rw [hprocedure, hrun] at hcount
    have hfound := congrArg Prod.fst (Except.ok.inj hcount)
    obtain ⟨-, hwitnesses, hexplored⟩ := Derivations.mk.inj (Outcome.found.inj hfound)
    have hseven : 7 = ledger.explored := hexplored
    refine ⟨trace, ledger, hrun, rfl, hwitnesses.symm, ?_⟩
    omega

end AmbiguitySearch.Search
