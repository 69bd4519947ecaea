import AmbiguitySearch.Proofs.Grammar.Definition
import AmbiguitySearch.Proofs.Grammar.Nullable
import AmbiguitySearch.Proofs.RuleOrder
import AmbiguitySearch.Proofs.Search.Recursion

/-!
# The search over positions

`Search` keeps the bodies of a nonterminal in its expansions. A search that keeps
positions in their place has to look everything up: the flag of a symbol, the bodies
of a nonterminal, the body at a position of an order, the order at the position that
comes next. It takes slices of the form and of the word, and it replaces stretches
of the form, of which it remembers no more than where they begin and how long they
are. `Indexed.Search` is that search, with every access checked. One that is out of
range ends it with an `OutOfRange`.

Neither does such a search end by its construction: it takes turns for as long as
there are any, and `none` stands for never coming to an end.

* `status_eq`: of a form with declared symbols no look-up misses.
* `Nested`: every open frame has its nonterminal in its place, once the body in it is
  taken out again, and what is out of the form is exactly what comes back.

> `turn_tells`: a turn makes no access out of range and keeps to the turn of `Search`.

> `derive_eq_run`: so the search over positions ends, and with the result of `run`.
-/

namespace AmbiguitySearch.Indexed

/-! ## Accesses -/

/-- The first symbols of a form, which has to have that many. -/
def before (form : Form) (count : Nat) : Except OutOfRange Form :=
  if count ≤ form.length then .ok (form.take count) else .error ⟨form.length, count⟩

/-- The form with a stretch of it replaced, all of which has to lie in the form. -/
def replace (form : Form) (position removed : Nat) (body : Form) : Except OutOfRange Form :=
  if position + removed ≤ form.length then .ok (form.splice position removed body)
  else .error ⟨form.length, position + removed⟩

/-- Whether a symbol can vanish, which for a nonterminal the table of flags has to
know. -/
def flag (g : Grammar) : Symbol → Except OutOfRange Bool
  | .terminal _ => .ok false
  | .nonterminal id => entry g.nullable.toList id

theorem before_eq_ok {form : Form} {count : Nat} (h : count ≤ form.length) :
    before form count = .ok (form.take count) :=
  if_pos h

theorem replace_eq_ok {form : Form} {position removed : Nat} (body : Form)
    (h : position + removed ≤ form.length) :
    replace form position removed body = .ok (form.splice position removed body) :=
  if_pos h

theorem flag_eq {g : Grammar} {symbol : Symbol} (hg : g.Loaded) (h : g.Declares symbol) :
    flag g symbol = .ok (g.isNullable symbol) := by
  cases symbol with
  | terminal id => rfl
  | nonterminal id =>
    have hid : id < g.nullable.toList.length := by
      rw [Array.length_toList, g.size_nullable, hg.length_rules]
      exact h
    rw [flag, entry_eq_ok hid]
    simp only [Grammar.isNullable, Array.getElem_toList, Array.getD_eq_getD_getElem?]
    rw [Array.getElem?_eq_getElem, Option.getD_some]

theorem declaredBodies_eq {g : Grammar} {nonterminal : Nat} (hg : g.Loaded)
    (h : g.Declares (.nonterminal nonterminal)) :
    g.declaredBodies nonterminal = .ok (g.bodies nonterminal) := by
  have hlt : nonterminal < g.rules.length := by
    rw [hg.length_rules]
    exact h
  rw [Grammar.declaredBodies, Grammar.bodies, entry_eq_ok hlt, List.getElem_eq_getD []]

/-! ## The status of a form -/

/-- Whether the empty word is sought and some symbol of the form cannot vanish. The
symbols after it are not asked about. -/
def blocked (g : Grammar) (word form : Form) : Except OutOfRange Bool :=
  if word.isEmpty then do return !(← form.allM (flag g)) else return false

def letters (g : Grammar) (form : Form) : Except OutOfRange Nat := do
  return (← form.mapM (flag g)).countP (!·)

/-- Whether the terminals before the first nonterminal do not begin the word, or
there are too many letters. The word is cut only if it is long enough. -/
def outOfReach (g : Grammar) (word form : Form) (first : Nat) : Except OutOfRange Bool :=
  if word.length < first then return true
  else do
    if (← before form first) ≠ (← before word first) then return true
    else return decide (word.length < (← letters g form))

def status (g : Grammar) (word form : Form) : Except OutOfRange Status :=
  if form = word then return .derived
  else do
    if ← blocked g word form then return .deadEnd
    else
      match form.firstNonterminal? with
      | none => return .deadEnd
      | some (position, nonterminal) =>
        if ← outOfReach g word form position then return .deadEnd
        else return .live position nonterminal

section Status

variable {g : Grammar} {word form : Form}

theorem allM_eq_ok {p : Symbol → Except OutOfRange Bool} {q : Symbol → Bool}
    (h : ∀ symbol ∈ form, p symbol = .ok (q symbol)) : form.allM p = .ok (form.all q) := by
  induction form with
  | nil => rfl
  | cons symbol rest ih =>
    obtain ⟨hsymbol, hrest⟩ := List.forall_mem_cons.mp h
    rw [List.allM, hsymbol, List.all_cons]
    cases q symbol with
    | false => rfl
    | true => exact ih hrest

theorem letters_eq (hg : g.Loaded) (h : ∀ symbol ∈ form, g.Declares symbol) :
    letters g form = .ok (g.letters form) := by
  have hflags : form.mapM (flag g) = .ok (form.map g.isNullable) := by
    rw [mapM_eq_ok_iff, List.forall₂_map_right_iff, List.forall₂_same]
    intro symbol hmem
    exact flag_eq hg (h symbol hmem)
  rw [letters, hflags]
  show Except.ok ((form.map g.isNullable).countP (!·)) = _
  rw [List.countP_map]
  rfl

theorem blocked_eq (hg : g.Loaded) (h : ∀ symbol ∈ form, g.Declares symbol) :
    blocked g word form = .ok (word.isEmpty && !form.all g.isNullable) := by
  have hflags : form.allM (flag g) = .ok (form.all g.isNullable) :=
    allM_eq_ok fun symbol hmem => flag_eq hg (h symbol hmem)
  rw [blocked, hflags]
  cases word.isEmpty with
  | false => rfl
  | true => rfl

/-- Before a position in the form the form can be cut. -/
theorem outOfReach_eq (hg : g.Loaded) (h : ∀ symbol ∈ form, g.Declares symbol) {first : Nat}
    (hfirst : first ≤ form.length) :
    outOfReach g word form first = .ok (decide ((word.length < first ∨
      form.take first ≠ word.take first) ∨ word.length < g.letters form)) := by
  unfold outOfReach
  by_cases hlong : word.length < first
  · rw [if_pos hlong, decide_eq_true (.inl (.inl hlong))]
    rfl
  · rw [if_neg hlong, before_eq_ok hfirst, before_eq_ok (Nat.le_of_not_lt hlong), letters_eq hg h]
    by_cases htake : form.take first = word.take first
    · simp [htake, hlong, bind, Except.bind, pure, Except.pure]
    · simp [htake, bind, Except.bind, pure, Except.pure]

/-- **Of a form with declared symbols no look-up misses.** -/
theorem status_eq (hg : g.Loaded) (h : ∀ symbol ∈ form, g.Declares symbol) :
    status g word form = .ok (g.status word form) := by
  unfold status Grammar.status
  by_cases hword : form = word
  · rw [if_pos hword, if_pos hword]
    rfl
  rw [if_neg hword, if_neg hword, blocked_eq hg h]
  by_cases hblocked : (word.isEmpty && !form.all g.isNullable) = true
  · rw [if_pos hblocked, hblocked]
    rfl
  rw [if_neg hblocked, Bool.eq_false_iff.mpr hblocked]
  cases hfirst : form.firstNonterminal? with
  | none => rfl
  | some found =>
    obtain ⟨position, nonterminal⟩ := found
    obtain ⟨hlt, -⟩ := List.getElem?_eq_some_iff.mp (Form.getElem?_of_firstNonterminal? hfirst)
    dsimp only [bind, Except.bind]
    rw [if_neg Bool.false_ne_true, outOfReach_eq hg h (Nat.le_of_lt hlt), ← ite_or, ← ite_or]
    dsimp only
    split
    next hreach =>
      rw [if_pos (of_decide_eq_true hreach)]
      rfl
    next hreach =>
      rw [if_neg (fun hout => hreach (decide_eq_true hout))]
      rfl

end Status

/-! ## The machine -/

/-- A nonterminal whose bodies are being tried. -/
structure Frame where
  /-- Where the nonterminal stands in the form it is expanded in. -/
  position : Nat
  nonterminal : Nat
  /-- The positions of its bodies, in the order to try them in. -/
  order : List Nat
  /-- Where the order goes on. -/
  next : Nat
  /-- The length of the body that is in the form, until it is taken out. -/
  applied : Option Nat
deriving DecidableEq

/-- A search for the derivations of a word. -/
structure Search (σ : Type) where
  grammar : Grammar
  order : IndexOrder σ
  /-- How many steps a derivation may have before the search gives up. -/
  depthLimit : Nat
  word : Form

/-- The same search over bodies. -/
def Search.toSearch {σ : Type} (search : Search σ) : AmbiguitySearch.Search σ where
  grammar := search.grammar
  order := search.order.toRuleOrder
  depthLimit := search.depthLimit
  word := search.word

/-- A search under way. -/
structure State (σ : Type) where
  form : Form
  /-- The steps that led to it, the latest first. -/
  steps : List Step
  /-- The frames open, the innermost first. -/
  frames : List Frame
  witnesses : List Trace
  explored : Nat
  /-- The state of the rule order. -/
  source : σ

/-- What a turn of the search comes to. -/
inductive Turn (σ : Type) where
  | running (state : State σ)
  | finished (state : State σ)
  | aborted (source : σ)

/-- Takes the body out that a frame has in the form, if there is one. -/
def Frame.undo (frame : Frame) (form : Form) (steps : List Step) :
    Except OutOfRange (Form × List Step) :=
  match frame.applied with
  | none => return (form, steps)
  | some length => do
    return (← replace form frame.position length [.nonterminal frame.nonterminal], steps.tail)

/-- The body that a frame comes to next. -/
def Frame.body (g : Grammar) (frame : Frame) : Except OutOfRange Form := do
  let bodies ← g.declaredBodies frame.nonterminal
  let choice ← entry frame.order frame.next
  entry bodies choice

/-- What a search has found once no frame is open. -/
def State.derivations {σ : Type} (state : State σ) : Derivations where
  count := state.witnesses.length
  witnesses := state.witnesses
  explored := state.explored

namespace Search

variable {σ : Type}

def start (search : Search σ) : Form := [search.grammar.startSymbol]

/-- Looks at the current form. -/
def visit (search : Search σ) (state : State σ) : Except OutOfRange (Turn σ) :=
  let explored := state.explored + 1
  -- no turn puts a body in once enough is known, so that this is never so
  if ambiguityThreshold ≤ state.witnesses.length then return .running { state with explored }
  else do
    match ← status search.grammar search.word state.form with
    | .derived =>
      return .running { state with
        explored
        witnesses := state.witnesses ++ [⟨search.start, state.steps.reverse⟩] }
    | .deadEnd => return .running { state with explored }
    | .live position nonterminal =>
      if search.depthLimit ≤ state.steps.length then return .aborted state.source
      else
        let bodies ← search.grammar.declaredBodies nonterminal
        match search.order.arrange bodies.length state.source with
        | (order, source) =>
          return .running { state with
            explored
            source
            frames := { position, nonterminal, order, next := 0, applied := none } :: state.frames }

/-- One turn: takes out what the innermost frame has in the form, then either puts its
next body in and visits the form that results, or closes it. -/
def turn (search : Search σ) (state : State σ) : Except OutOfRange (Turn σ) :=
  match state.frames with
  | [] => return .finished state
  | frame :: outer => do
    let (form, steps) ← frame.undo state.form state.steps
    if ambiguityThreshold ≤ state.witnesses.length ∨ frame.next = frame.order.length then
      return .running { state with form, steps, frames := outer }
    else
      let body ← frame.body search.grammar
      let replaced ← replace form frame.position 1 body
      search.visit { state with
        form := replaced
        steps := ⟨frame.nonterminal, body, replaced⟩ :: steps
        frames := { frame with next := frame.next + 1, applied := some body.length } :: outer }

/-- Takes turns until there are none left or one makes an access out of range. -/
def resume (search : Search σ) :
    Except OutOfRange (Turn σ) → Option (Except OutOfRange (Outcome × σ))
  | .error miss => some (.error miss)
  -- with `apply`, because a call that is written out keeps its place in the file in the term
  | .ok (.running state) => by
    apply resume
    · exact search
    · exact search.turn state
  | .ok (.finished state) => some (.ok (.found state.derivations, state.source))
  | .ok (.aborted source) => some (.ok (.aborted search.depthLimit, source))
partial_fixpoint

/-- The state before anything is visited. -/
def initial (search : Search σ) (source : σ) : State σ where
  form := search.start
  steps := []
  frames := []
  witnesses := []
  explored := 0
  source := source

/-- Searches for the derivations of the word. -/
def derive (search : Search σ) (source : σ) : Option (Except OutOfRange (Outcome × σ)) :=
  search.resume (search.visit (search.initial source))

end Search

/-! ## Frames in their places -/

/-- The expansion that keeps bodies where the frame keeps positions. -/
def Frame.expansion (g : Grammar) (frame : Frame) (tried : List Form) : Expansion where
  position := frame.position
  nonterminal := frame.nonterminal
  tried := tried
  untried := IndexOrder.pick (g.bodies frame.nonterminal) (frame.order.drop frame.next)

section Frames

variable {g : Grammar} {frame : Frame} {frames outer : List Frame} {stack : List Expansion}
  {form opened : Form} {steps : List Step}

/-- A frame that was opened in a form. -/
structure Frame.Opened (g : Grammar) (frame : Frame) (opened : Form) : Prop where
  /-- The nonterminal is in its place. -/
  placed : opened[frame.position]? = some (.nonterminal frame.nonterminal)
  /-- Every position in the order is that of a body. -/
  choices : ∀ choice ∈ frame.order, choice < (g.bodies frame.nonterminal).length
  within : frame.next ≤ frame.order.length

/-- Frames opened one inside the other, each with a body in the form. Taking out the
innermost body gives the form that its frame was opened in, and so on down to a form
that no frame was opened for. -/
inductive Nested (g : Grammar) : List Frame → List Expansion → Form → List Step → Prop
  | base {form : Form} (declared : ∀ symbol ∈ form, g.Declares symbol) : Nested g [] [] form []
  | inside {frame : Frame} {outer : List Frame} {stack : List Expansion} {opened body : Form}
      {tried : List Form} {step : Step} {steps : List Step} (nested : Nested g outer stack opened steps)
      (opens : frame.Opened g opened) (declared : body ∈ g.bodies frame.nonterminal)
      (applied : frame.applied = some body.length) :
      Nested g (frame :: outer) (frame.expansion g (body :: tried) :: stack)
        (opened.splice frame.position 1 body) (step :: steps)

/-- Between two turns the innermost frame may have no body in the form yet. -/
inductive Standing (g : Grammar) : List Frame → List Expansion → Form → List Step → Prop
  | nested {frames : List Frame} {stack : List Expansion} {form : Form} {steps : List Step}
      (nested : Nested g frames stack form steps) : Standing g frames stack form steps
  | fresh {frame : Frame} {outer : List Frame} {stack : List Expansion} {form : Form}
      {steps : List Step} (nested : Nested g outer stack form steps)
      (opens : frame.Opened g form) (untouched : frame.applied = none) :
      Standing g (frame :: outer) (frame.expansion g [] :: stack) form steps

theorem Nested.length_steps (h : Nested g frames stack form steps) :
    steps.length = stack.length := by
  induction h with
  | base => rfl
  | inside _ _ _ _ ih => rw [List.length_cons, List.length_cons, ih]

theorem mem_of_mem_splice {body : Form} {position removed : Nat} {symbol : Symbol}
    (h : symbol ∈ form.splice position removed body) : symbol ∈ form ∨ symbol ∈ body := by
  rcases List.mem_append.mp h with hbefore | hrest
  · exact .inl (List.mem_of_mem_take hbefore)
  · rcases List.mem_append.mp hrest with hbody | hafter
    · exact .inr hbody
    · exact .inl (List.mem_of_mem_drop hafter)

/-- Every form on the way has declared symbols only. -/
theorem Nested.declares (hg : g.Loaded) (h : Nested g frames stack form steps) :
    ∀ symbol ∈ form, g.Declares symbol := by
  induction h with
  | base declared => exact declared
  | inside _ _ declared _ ih =>
    intro symbol hmem
    rcases mem_of_mem_splice hmem with hopened | hbody
    · exact ih symbol hopened
    · exact hg.declares_of_mem_bodies declared symbol hbody

/-- The body put in lies in the form, from the position of its nonterminal on. -/
theorem add_length_le_length_splice {position : Nat} (body : Form) (h : position < form.length) :
    position + body.length ≤ (form.splice position 1 body).length := by
  rw [Form.splice, List.length_append, List.length_append, List.length_take,
    Nat.min_eq_left (Nat.le_of_lt h)]
  omega

/-- **Undoing finds what there is to undo.** The stretch to replace lies in the form,
and the form becomes the one that the frame was opened in. -/
theorem Standing.undo (h : Standing g (frame :: outer) stack form steps) :
    ∃ tried rest opened earlier, stack = frame.expansion g tried :: rest ∧
      frame.undo form steps = .ok (opened, earlier) ∧
        AmbiguitySearch.Search.undo (frame.expansion g tried) form steps = (opened, earlier) ∧
          frame.Opened g opened ∧ Nested g outer rest opened earlier := by
  cases h with
  | @fresh _ _ rest _ _ nested opens untouched =>
    refine ⟨[], rest, form, steps, rfl, ?_, rfl, opens, nested⟩
    rw [Frame.undo, untouched]
    rfl
  | nested nested =>
    cases nested with
    | @inside _ _ rest opened body tried step earlier nested opens declared applied =>
      -- what `Search` undoes is the same stretch, which it knows by the body itself
      have hplaced : opened[(frame.expansion g tried).position]? =
          some (.nonterminal (frame.expansion g tried).nonterminal) := opens.placed
      have hundo : AmbiguitySearch.Search.undo (frame.expansion g (body :: tried))
          (opened.splice frame.position 1 body) (step :: earlier) = (opened, earlier) :=
        AmbiguitySearch.Search.undo_tried hplaced
      refine ⟨body :: tried, rest, opened, earlier, rfl, ?_, hundo, opens, nested⟩
      obtain ⟨hlt, -⟩ := List.getElem?_eq_some_iff.mp opens.placed
      rw [Frame.undo, applied]
      dsimp only
      rw [replace_eq_ok _ (add_length_le_length_splice body hlt)]
      exact congrArg Except.ok hundo

/-- A frame that is not at the end of its order has a body to come to, and that is the
next of the expansion. -/
theorem Frame.Opened.body (hg : g.Loaded) (h : frame.Opened g opened)
    (hopened : ∀ symbol ∈ opened, g.Declares symbol) (hmore : frame.next ≠ frame.order.length)
    (tried : List Form) :
    ∃ body ∈ g.bodies frame.nonterminal, frame.body g = .ok body ∧
      (frame.expansion g tried).untried = body ::
        IndexOrder.pick (g.bodies frame.nonterminal) (frame.order.drop (frame.next + 1)) := by
  have hnext : frame.next < frame.order.length := Nat.lt_of_le_of_ne h.within hmore
  have hchoice : frame.order[frame.next] < (g.bodies frame.nonterminal).length :=
    h.choices _ (List.getElem_mem hnext)
  have hdeclared : g.Declares (.nonterminal frame.nonterminal) :=
    hopened _ (List.mem_of_getElem? h.placed)
  refine ⟨(g.bodies frame.nonterminal)[frame.order[frame.next]], List.getElem_mem hchoice, ?_, ?_⟩
  · rw [Frame.body, declaredBodies_eq hg hdeclared, entry_eq_ok hnext]
    exact entry_eq_ok hchoice
  · rw [Frame.expansion, List.drop_eq_getElem_cons hnext, IndexOrder.pick, List.map_cons,
      List.getElem_eq_getD []]
    rfl

theorem Frame.untried_eq_nil (hend : frame.next = frame.order.length) (tried : List Form) :
    (frame.expansion g tried).untried = [] := by
  rw [Frame.expansion, hend, List.drop_length]
  rfl

end Frames

/-! ## Turn by turn -/

section Turns

variable {σ : Type} {search : Search σ} {state : State σ} {stack : List Expansion}

/-- A state as the search over bodies has it. -/
def State.told (state : State σ) (stack : List Expansion) : AmbiguitySearch.Search.State σ :=
  .ofStack state.form state.steps stack state.witnesses state.explored state.source

/-- A turn that comes to the same as one of the search over bodies, with every frame
in its place. -/
inductive Turn.Tells (g : Grammar) : Turn σ → AmbiguitySearch.Search.Turn σ → Prop
  | running {state : State σ} {stack : List Expansion}
      (standing : Standing g state.frames stack state.form state.steps) :
      Tells g (.running state) (.running (state.told stack))
  | finished {state : State σ} : Tells g (.finished state) (.finished (state.told []))
  | aborted {source : σ} : Tells g (.aborted source) (.aborted source)

/-- A frame opened at the first nonterminal of a form. -/
theorem Frame.opened_of_firstNonterminal? {g : Grammar} {form : Form} {position nonterminal : Nat}
    (hfirst : form.firstNonterminal? = some (position, nonterminal)) (order : IndexOrder σ)
    (source : σ) : Frame.Opened g ⟨position, nonterminal,
      (order.arrange (g.bodies nonterminal).length source).1, 0, none⟩ form where
  placed := Form.getElem?_of_firstNonterminal? hfirst
  choices _ hmem := IndexOrder.lt_of_mem_arrange hmem
  within := Nat.zero_le _

/-- A visit looks only for what is there, and opens a frame in its place. -/
theorem Search.visit_tells (hg : search.grammar.Loaded)
    (h : Nested search.grammar state.frames stack state.form state.steps)
    (hfew : state.witnesses.length < ambiguityThreshold) :
    ∃ turn, search.visit state = .ok turn ∧
      turn.Tells search.grammar (search.toSearch.visit (state.told stack)) := by
  have hdeclares := h.declares hg
  have hstatus : status search.grammar search.word state.form =
      .ok (search.toSearch.grammar.status search.toSearch.word (state.told stack).form) :=
    status_eq hg hdeclares
  rw [visit, if_neg (Nat.not_le.mpr hfew), hstatus]
  cases hs : search.toSearch.grammar.status search.toSearch.word (state.told stack).form with
  | derived =>
    rw [AmbiguitySearch.Search.visit_derived hs]
    exact ⟨_, rfl, .running (.nested h)⟩
  | deadEnd =>
    rw [AmbiguitySearch.Search.visit_deadEnd hs]
    exact ⟨_, rfl, .running (.nested h)⟩
  | live position nonterminal =>
    have hfirst := (Grammar.status_eq_live_iff.mp hs).2.1
    -- one search counts steps, the other expansions: every frame has a step to its name
    by_cases hdeep : search.depthLimit ≤ state.steps.length
    · have htold : search.toSearch.depthLimit ≤ (state.told stack).stack.length :=
        le_of_le_of_eq hdeep h.length_steps
      rw [AmbiguitySearch.Search.visit_live_deep hs htold]
      dsimp only [bind, Except.bind]
      rw [if_pos hdeep]
      exact ⟨_, rfl, .aborted⟩
    · have htold : (state.told stack).stack.length < search.toSearch.depthLimit :=
        lt_of_eq_of_lt h.length_steps.symm (Nat.lt_of_not_le hdeep)
      have hopens := Frame.opened_of_firstNonterminal? (g := search.grammar) hfirst search.order
        state.source
      have hdeclared : search.grammar.Declares (.nonterminal nonterminal) :=
        hdeclares _ (List.mem_of_getElem? hopens.placed)
      rw [AmbiguitySearch.Search.visit_live hs htold]
      dsimp only [bind, Except.bind]
      rw [if_neg hdeep, declaredBodies_eq hg hdeclared]
      exact ⟨_, rfl, .running (.fresh h hopens rfl)⟩

/-- **No turn makes an access out of range.** It comes to what a turn of the search over
bodies comes to. -/
theorem Search.turn_tells (hg : search.grammar.Loaded)
    (h : Standing search.grammar state.frames stack state.form state.steps) :
    ∃ turn, search.turn state = .ok turn ∧
      turn.Tells search.grammar (search.toSearch.turn (state.told stack)) := by
  obtain ⟨form, steps, frames, witnesses, explored, source⟩ := state
  cases frames with
  | nil =>
    obtain ⟨⟨_⟩⟩ := h
    rw [AmbiguitySearch.Search.turn_nil rfl]
    exact ⟨_, rfl, .finished⟩
  | cons frame outer =>
    obtain ⟨tried, rest, opened, earlier, rfl, hundo, hundone, hopens, hnested⟩ := h.undo
    rw [turn]
    dsimp only
    rw [hundo]
    -- at the end of its order a frame has no position left, and its expansion no body
    by_cases hdone : ambiguityThreshold ≤ witnesses.length ∨ frame.next = frame.order.length
    · have hclosed : (frame.expansion search.grammar tried).untried = [] ∨
          ambiguityThreshold ≤ witnesses.length :=
        hdone.symm.imp_left fun hend => frame.untried_eq_nil hend tried
      rw [AmbiguitySearch.Search.turn_close rfl hclosed]
      dsimp only [bind, Except.bind]
      rw [if_pos hdone]
      refine ⟨_, rfl, ?_⟩
      show Turn.Tells _ _ (.running (.ofStack (AmbiguitySearch.Search.undo _ form steps).1
        (AmbiguitySearch.Search.undo _ form steps).2 _ _ _ _))
      rw [hundone]
      exact .running (.nested hnested)
    · obtain ⟨hfew, hmore⟩ := not_or.mp hdone
      obtain ⟨body, hmem, hbody, huntried⟩ :=
        hopens.body hg (hnested.declares hg) hmore tried
      obtain ⟨hlt, -⟩ := List.getElem?_eq_some_iff.mp hopens.placed
      rw [AmbiguitySearch.Search.turn_try rfl huntried (Nat.lt_of_not_le hfew) hundone]
      dsimp only [bind, Except.bind]
      rw [if_neg hdone, hbody]
      dsimp only
      rw [replace_eq_ok body hlt]
      exact visit_tells hg (.inside hnested ⟨hopens.placed, hopens.choices,
        Nat.lt_of_le_of_ne hopens.within hmore⟩ hmem rfl) (Nat.lt_of_not_le hfew)

/-- Taking turns to the end makes no access out of range, and there is an end. -/
theorem Search.resume_eq (hg : search.grammar.Loaded) (state : State σ) (stack : List Expansion)
    (h : Standing search.grammar state.frames stack state.form state.steps) :
    search.resume (search.turn state) = some (.ok (search.toSearch.resume (state.told stack))) := by
  obtain ⟨turn, hturn, htells⟩ := search.turn_tells hg h
  rw [hturn, AmbiguitySearch.Search.resume]
  split
  next next hnext =>
    rw [hnext] at htells
    cases htells with
    | running standing =>
      rw [resume]
      exact resume_eq hg _ _ standing
  next final hnext =>
    rw [hnext] at htells
    cases htells
    rw [resume]
    rfl
  next source hnext =>
    rw [hnext] at htells
    cases htells
    rw [resume]
    rfl
termination_by search.toSearch.credit stack
decreasing_by exact search.toSearch.turn_credit _ hnext

/-- The first visit finds everything there, as the start is declared. -/
theorem Search.visit_initial_tells (search : Search σ) (hg : search.grammar.Loaded)
    (hne : search.grammar.nonterminals ≠ []) (source : σ) :
    ∃ turn, search.visit (search.initial source) = .ok turn ∧ turn.Tells search.grammar
      (search.toSearch.visit (search.toSearch.initial source)) := by
  have hbase : Nested search.grammar (search.initial source).frames []
      (search.initial source).form (search.initial source).steps := by
    refine .base ?_
    intro symbol hmem
    rw [List.mem_singleton.mp hmem]
    exact hg.declares_startSymbol hne
  have hnone : (search.initial source).witnesses.length < ambiguityThreshold := Nat.zero_lt_two
  exact visit_tells hg hbase hnone

/-- **The search over positions is the search.** It makes no access out of range, and
it comes to an end. -/
theorem Search.derive_eq_run (search : Search σ) (hg : search.grammar.Loaded)
    (hne : search.grammar.nonterminals ≠ []) (source : σ) :
    search.derive source = some (.ok (search.toSearch.run source)) := by
  obtain ⟨turn, hvisit, htells⟩ := search.visit_initial_tells hg hne source
  rw [derive, hvisit, AmbiguitySearch.Search.run]
  split
  next next hnext =>
    rw [hnext] at htells
    cases htells with
    | running standing =>
      rw [resume]
      exact resume_eq hg _ _ standing
  next final hnext =>
    rw [hnext] at htells
    cases htells
    rw [resume, AmbiguitySearch.Search.resume, AmbiguitySearch.Search.turn_nil rfl]
    rfl
  next source' hnext =>
    rw [hnext] at htells
    cases htells
    rw [resume]
    rfl

end Turns

end AmbiguitySearch.Indexed
