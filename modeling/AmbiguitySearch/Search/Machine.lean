import AmbiguitySearch.Outcome
import AmbiguitySearch.RuleOrder
import AmbiguitySearch.Search.Status

/-!
# The backtracking search

`Search.run` looks for leftmost derivations of a word, depth first. It keeps
one current form and a stack of `Expansion`s, one for every nonterminal being
expanded. Going down applies a body to the form in place; coming back takes it
out again. So the depth of a search costs no call stack, and the only bound on
it is the search's own limit on derivation steps.

An expansion knows the bodies it has tried and those it has not. The last one
tried is in the form until it is taken back, which is all that there is to
remember about it: position, nonterminal and length of that body say exactly
what to undo.

The search ends because every turn of it lowers `credit`, a number that charges
each body not yet tried with everything that may happen below it
(`turn_credit`).
-/

namespace AmbiguitySearch

/-- A nonterminal whose bodies are being tried. -/
structure Expansion where
  /-- Where the nonterminal stands in the form it is expanded in. -/
  position : Nat
  nonterminal : Nat
  /-- The bodies tried, the latest first. -/
  tried : List Form
  /-- The bodies still to be tried, in order. -/
  untried : List Form
deriving DecidableEq

/-- A search for the derivations of a word. -/
structure Search (σ : Type) where
  grammar : Grammar
  order : RuleOrder σ
  /-- How many steps a derivation may have before the search gives up. -/
  depthLimit : Nat
  word : Form

namespace Search

variable {σ : Type}

/-- A search under way. -/
structure State (σ : Type) where
  form : Form
  /-- The steps that led to it, the latest first. -/
  steps : List Step
  /-- The expansions open, the innermost first. -/
  stack : List Expansion
  /-- The number of expansions open. -/
  depth : Nat
  witnesses : List Trace
  explored : Nat
  /-- The state of the rule order. -/
  source : σ
  depth_eq : depth = stack.length := by rfl

/-- What a turn of the search comes to. -/
inductive Turn (σ : Type) where
  | running (state : State σ)
  | finished (state : State σ)
  | aborted (source : σ)

/-- Every derivation starts from the start symbol alone. -/
def start (search : Search σ) : Form := [search.grammar.startSymbol]

/-- Looks at the current form: records it if it is the word, and opens an
expansion if it may lead there. A live form as deep as the limit aborts the
search before the order is asked for anything. -/
def visit (search : Search σ) (state : State σ) : Turn σ :=
  let explored := state.explored + 1
  match search.grammar.status search.word state.form with
  | .derived =>
    .running { state with
      explored
      witnesses := state.witnesses ++ [⟨search.start, state.steps.reverse⟩] }
  | .deadEnd => .running { state with explored }
  | .live position nonterminal =>
    if search.depthLimit ≤ state.depth then .aborted state.source
    else
      match search.order.arrange (search.grammar.bodies nonterminal) state.source with
      | (untried, source) =>
        .running { state with
          explored
          source
          stack := { position, nonterminal, tried := [], untried } :: state.stack
          depth := state.depth + 1
          depth_eq := congrArg (· + 1) state.depth_eq }

/-- Takes back the body that an expansion tried last, if there is one: both the
form and the steps become what they were when the expansion was opened. -/
def undo (expansion : Expansion) (form : Form) (steps : List Step) : Form × List Step :=
  match expansion.tried with
  | [] => (form, steps)
  | body :: _ =>
    (form.splice expansion.position body.length [.nonterminal expansion.nonterminal], steps.tail)

/-- One turn: takes back what the innermost expansion tried last, then either
tries its next body and visits the form that results, or closes it. An
expansion is closed when it has no body left, or when enough derivations are
known. -/
def turn (search : Search σ) (state : State σ) : Turn σ :=
  match frames : state.stack with
  | [] => .finished state
  | expansion :: outer =>
    have closed : state.depth - 1 = outer.length := by
      rw [state.depth_eq, frames, List.length_cons, Nat.add_sub_cancel]
    match undo expansion state.form state.steps with
    | (form, steps) =>
      match expansion.untried with
      | [] =>
        .running { state with
          form, steps, stack := outer, depth := state.depth - 1, depth_eq := closed }
      | body :: untried =>
        if ambiguityThreshold ≤ state.witnesses.length then
          .running { state with
            form, steps, stack := outer, depth := state.depth - 1, depth_eq := closed }
        else
          let replaced := form.splice expansion.position 1 body
          search.visit { state with
            form := replaced
            steps := ⟨expansion.nonterminal, body, replaced⟩ :: steps
            stack := { expansion with tried := body :: expansion.tried, untried } :: outer
            depth_eq := by simpa [frames] using state.depth_eq }

/-! ## Termination -/

/-- Two more than the most bodies that a nonterminal has, so that opening an
expansion always costs less than one body of the level above it. -/
def base (search : Search σ) : Nat := search.grammar.widestChoice + 2

/-- What one body costs with so many levels to go. -/
def price (search : Search σ) (levels : Nat) : Nat := search.base.pow levels

/-- What the open expansions may still cost. One body at a level costs `base`
times what one body of the next level costs, and closing costs as much as a
body. -/
def credit (search : Search σ) : List Expansion → Nat
  | [] => 0
  | expansion :: outer =>
    (expansion.untried.length + 1) * search.price (search.depthLimit - outer.length)
      + search.credit outer

theorem price_pos (search : Search σ) (levels : Nat) : 0 < search.price levels :=
  Nat.pow_pos (Nat.succ_pos _)

theorem price_succ (search : Search σ) (levels : Nat) :
    search.price (levels + 1) = search.price levels * search.base :=
  rfl

/-- Visiting costs less than one body of the innermost expansion. -/
theorem visit_credit (search : Search σ) (state : State σ) {next : State σ}
    (runs : search.visit state = .running next) :
    search.credit next.stack <
      search.credit state.stack + search.price (search.depthLimit + 1 - state.stack.length) := by
  unfold visit at runs
  have pays : 0 < search.price (search.depthLimit + 1 - state.stack.length) :=
    search.price_pos _
  split at runs
  next => cases runs; exact Nat.lt_add_of_pos_right pays
  next => cases runs; exact Nat.lt_add_of_pos_right pays
  next position nonterminal _ =>
    split at runs
    next => cases runs
    next within =>
      cases runs
      rw [state.depth_eq] at within
      simp only [credit]
      have widest := search.grammar.length_bodies_le_widestChoice nonterminal
      rw [← search.order.length_arrange _ state.source] at widest
      have deeper : search.depthLimit + 1 - state.stack.length
          = (search.depthLimit - state.stack.length) + 1 := by omega
      rw [deeper, price_succ, Nat.add_comm, Nat.mul_comm (search.price _)]
      refine Nat.add_lt_add_left (Nat.mul_lt_mul_of_pos_right ?_ (search.price_pos _)) _
      exact Nat.lt_of_le_of_lt (Nat.succ_le_succ widest) (Nat.lt_succ_self _)

/-- Every turn lowers the credit. -/
theorem turn_credit (search : Search σ) (state : State σ) {next : State σ}
    (runs : search.turn state = .running next) :
    search.credit next.stack < search.credit state.stack := by
  unfold turn at runs
  split at runs
  next => cases runs
  next expansion outer frames =>
    have closing : search.credit outer < search.credit (expansion :: outer) := by
      rw [credit]
      exact Nat.lt_add_of_pos_left
        (Nat.mul_pos (Nat.succ_pos _) (search.price_pos _))
    rw [frames]
    dsimp only at runs
    split at runs
    next => cases runs; exact closing
    next body untried rest =>
      split at runs
      next => cases runs; exact closing
      next =>
        refine Nat.lt_of_lt_of_eq (search.visit_credit _ runs) ?_
        simp only [credit, rest, List.length_cons, Nat.add_sub_add_right]
        rw [Nat.add_right_comm, ← Nat.succ_mul]

/-- What a search has found once no expansion is open. -/
def State.derivations (state : State σ) : Derivations where
  count := state.witnesses.length
  witnesses := state.witnesses
  explored := state.explored

/-- Takes turns to the end. -/
def resume (search : Search σ) (state : State σ) : Outcome × σ :=
  match _taken : search.turn state with
  | .running next => search.resume next
  | .finished state => (.found state.derivations, state.source)
  | .aborted source => (.aborted search.depthLimit, source)
termination_by search.credit state.stack
decreasing_by exact search.turn_credit state _taken

/-- The state before anything is visited. -/
def initial (search : Search σ) (source : σ) : State σ where
  form := search.start
  steps := []
  stack := []
  depth := 0
  witnesses := []
  explored := 0
  source := source

/-- Searches for the derivations of the word, and says in what state it leaves
the rule order. An aborted search has used up its draws as well. -/
def run (search : Search σ) (source : σ) : Outcome × σ :=
  match search.visit (search.initial source) with
  | .running state | .finished state => search.resume state
  | .aborted source => (.aborted search.depthLimit, source)

end Search

end AmbiguitySearch
