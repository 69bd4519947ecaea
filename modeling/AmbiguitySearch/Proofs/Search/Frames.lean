import AmbiguitySearch.Proofs.Search.Budget

/-!
# What the frames tell

A search changes one form in place. To take a body out again it remembers where the body begins
and how long it is, and nothing of the form that it was put into. Still nothing is lost, because
the form and the steps can be rebuilt from the open frames: from the outermost to the innermost,
each has put the body that it tried last in the place of its nonterminal (`rebuilt`).

* `Frame.InPlace`: a frame stands at the first nonterminal of the form it was opened in, has an
  order of all bodies there and remembers the length of the body it tried last.
* `visit_eq_ok`, `turn_eq_ok`: all that a visit and a turn can do.
* `derives_rebuilt`: what is rebuilt is a leftmost derivation.

> `Reaches.held`: before every turn the form and the steps are those that the frames tell, and
> every frame but the innermost has a body in the form.
-/

namespace AmbiguitySearch.Indexed

variable {g : Grammar} {word start form : Form} {position nonterminal : Nat} {frame : Frame}
  {frames outer : List Frame}

theorem replace_eq_ok_iff {removed : Nat} {body replaced : Form} :
    replace form position removed body = .ok replaced ↔
      position + removed ≤ form.length ∧ form.splice position removed body = replaced := by
  unfold replace
  split
  next hle => exact ⟨fun h => ⟨hle, Except.ok.inj h⟩, fun h => congrArg _ h.2⟩
  next hlt => exact ⟨nofun, fun h => absurd h.1 hlt⟩

/-- A form is live at its first nonterminal. -/
theorem firstNonterminal?_of_status
    (h : status g word form = .ok (.live position nonterminal)) :
    form.firstNonterminal? = some (position, nonterminal) := by
  unfold status at h
  split at h
  next => cases h
  next =>
    obtain ⟨blocked, -, h⟩ := bind_eq_ok h
    split at h
    next => cases h
    next =>
      split at h
      next => cases h
      next first id hfirst =>
        obtain ⟨outOfReach, -, h⟩ := bind_eq_ok h
        split at h
        next => cases h
        next =>
          cases h
          exact hfirst

/-! ## Frames alone -/

/-- The frame as it was opened. -/
def Frame.fresh (frame : Frame) : Frame := { frame with next := 0, applied := none }

/-- The body that a frame has tried last. -/
def Frame.lastBody (g : Grammar) (frame : Frame) : Form :=
  (g.bodies frame.nonterminal).getD (frame.order.getD (frame.next - 1) 0) []

/-- The form and the steps that open frames have made, beginning with a form. -/
def rebuilt (g : Grammar) (start : Form) : List Frame → Form × List Step
  | [] => (start, [])
  | frame :: outer =>
    match frame.applied with
    | none => rebuilt g start outer
    | some _ =>
      ((rebuilt g start outer).1.splice frame.position 1 (frame.lastBody g),
        stepAt (rebuilt g start outer).1 frame.position frame.nonterminal (frame.lastBody g) ::
          (rebuilt g start outer).2)

/-- A frame that was opened in a form, whatever it has tried since. -/
structure Frame.InPlace (g : Grammar) (frame : Frame) (form : Form) : Prop where
  first : form.firstNonterminal? = some (frame.position, frame.nonterminal)
  arranged : frame.order.Perm (List.range (g.bodies frame.nonterminal).length)
  within : frame.next ≤ frame.order.length
  applied : ∀ length, frame.applied = some length →
    frame.next ≠ 0 ∧ length = (frame.lastBody g).length

/-- Each frame was opened in the form that the frames around it have made. -/
def AllInPlace (g : Grammar) (start : Form) (frames : List Frame) : Prop :=
  ∀ frame outer, frame :: outer <:+ frames → frame.InPlace g (rebuilt g start outer).1

theorem rebuilt_of_none (h : frame.applied = none) :
    rebuilt g start (frame :: outer) = rebuilt g start outer := by
  rw [rebuilt, h]

theorem rebuilt_of_some {length : Nat} (h : frame.applied = some length) :
    rebuilt g start (frame :: outer) =
      ((rebuilt g start outer).1.splice frame.position 1 (frame.lastBody g),
        stepAt (rebuilt g start outer).1 frame.position frame.nonterminal (frame.lastBody g) ::
          (rebuilt g start outer).2) := by
  rw [rebuilt, h]

theorem AllInPlace.of_suffix (h : AllInPlace g start frames) (hsuffix : outer <:+ frames) :
    AllInPlace g start outer :=
  fun frame rest hrest => h frame rest (hrest.trans hsuffix)

theorem AllInPlace.cons (h : AllInPlace g start outer)
    (hframe : frame.InPlace g (rebuilt g start outer).1) : AllInPlace g start (frame :: outer) := by
  intro other rest hsuffix
  rcases List.suffix_cons_iff.mp hsuffix with heq | hsuffix
  · obtain ⟨rfl, rfl⟩ := List.cons.inj heq
    exact hframe
  · exact h other rest hsuffix

theorem Frame.InPlace.lastBody_mem {length : Nat} (h : frame.InPlace g form)
    (happlied : frame.applied = some length) : frame.lastBody g ∈ g.bodies frame.nonterminal := by
  have hlt : frame.next - 1 < frame.order.length := by
    have hnext := (h.applied length happlied).1
    have hwithin := h.within
    omega
  have hchoice : frame.order[frame.next - 1] < (g.bodies frame.nonterminal).length :=
    List.mem_range.mp (h.arranged.mem_iff.mp (List.getElem_mem hlt))
  rw [Frame.lastBody, ← List.getElem_eq_getD (h := hlt), ← List.getElem_eq_getD (h := hchoice)]
  exact List.getElem_mem hchoice

/-- The frame once its next body is in the form. -/
def Frame.put (frame : Frame) (body : Form) : Frame :=
  { frame with next := frame.next + 1, applied := some body.length }

theorem Frame.lastBody_put {body : Form} (h : frame.body g = .ok body) :
    (frame.put body).lastBody g = body := by
  obtain ⟨bodies, hbodies, h⟩ := bind_eq_ok h
  obtain ⟨choice, hchoice, h⟩ := bind_eq_ok h
  rw [Frame.lastBody, Frame.put, Grammar.bodies, getD_of_entry hbodies, Nat.add_sub_cancel,
    getD_of_entry hchoice, getD_of_entry h]

theorem Frame.InPlace.put {body : Form} (h : frame.InPlace g form)
    (hbody : frame.body g = .ok body) (hmore : frame.next ≠ frame.order.length) :
    (frame.put body).InPlace g form where
  first := h.first
  arranged := h.arranged
  within := Nat.lt_of_le_of_ne h.within hmore
  applied length happlied := by
    cases happlied
    rw [lastBody_put hbody]
    exact ⟨Nat.succ_ne_zero _, rfl⟩

/-- There is a step for every frame with a body in the form. -/
theorem length_rebuilt (g : Grammar) (start : Form) (frames : List Frame) :
    (rebuilt g start frames).2.length = frames.countP (·.applied.isSome) := by
  induction frames with
  | nil => rfl
  | cons frame outer ih =>
    rw [List.countP_cons]
    cases happlied : frame.applied with
    | none =>
      rw [rebuilt_of_none happlied, ih]
      rfl
    | some length =>
      rw [rebuilt_of_some happlied, List.length_cons, ih]
      rfl

/-- **The steps lead to the form**, each replacing the first nonterminal that there is. -/
theorem derives_rebuilt (h : AllInPlace g start frames) :
    g.Derives start (rebuilt g start frames).2.reverse (rebuilt g start frames).1 := by
  induction frames with
  | nil => exact .refl start
  | cons frame outer ih =>
    have houter := ih (h.of_suffix (List.suffix_cons frame outer))
    have hplace := h frame outer List.suffix_rfl
    cases happlied : frame.applied with
    | none =>
      rw [rebuilt_of_none happlied]
      exact houter
    | some length =>
      rw [rebuilt_of_some happlied, List.reverse_cons]
      refine houter.trans (.step (Grammar.expands_iff.mpr ?_) (.refl _))
      exact ⟨frame.position, hplace.first, hplace.lastBody_mem happlied, rfl⟩

/-- The steps of the outer frames are those that were taken first. -/
theorem rebuilt_suffix (h : outer <:+ frames) :
    (rebuilt g start outer).2 <:+ (rebuilt g start frames).2 := by
  induction frames with
  | nil => rw [List.suffix_nil.mp h]
  | cons frame rest ih =>
    rcases List.suffix_cons_iff.mp h with rfl | h
    · exact List.suffix_rfl
    · refine (ih h).trans ?_
      cases happlied : frame.applied with
      | none => rw [rebuilt_of_none happlied]
      | some length =>
        rw [rebuilt_of_some happlied]
        exact List.suffix_cons _ _

/-- If all of the outer frames have a body in the form, what they have made is the form before
the step that comes after theirs. -/
theorem before_rebuilt (h : AllInPlace g start frames) (hsuffix : outer <:+ frames)
    (happlied : ∀ frame ∈ outer, frame.applied.isSome = true) :
    Trace.before ⟨start, (rebuilt g start frames).2.reverse⟩ outer.length =
      (rebuilt g start outer).1 := by
  have hsteps : (rebuilt g start outer).2 <:+ (rebuilt g start frames).2 := rebuilt_suffix hsuffix
  -- their steps are the first ones, and there is one for each of them
  have htake := List.prefix_iff_eq_take.mp (List.reverse_prefix.mpr hsteps)
  rw [List.length_reverse, length_rebuilt, List.countP_eq_length.mpr happlied] at htake
  rw [Trace.before, ← htake]
  exact (derives_rebuilt (h.of_suffix hsuffix)).result_eq

/-- **Undoing the innermost frame** gives what the frames around it have made. -/
theorem undo_rebuilt (h : frame.InPlace g (rebuilt g start outer).1) :
    frame.undo (rebuilt g start (frame :: outer)).1 (rebuilt g start (frame :: outer)).2 =
      .ok (rebuilt g start outer) := by
  cases happlied : frame.applied with
  | none =>
    rw [rebuilt_of_none happlied, Frame.undo, happlied]
    rfl
  | some length =>
    obtain ⟨-, rfl⟩ := h.applied length happlied
    have hplaced := Form.getElem?_of_firstNonterminal? h.first
    have hlt := (List.getElem?_eq_some_iff.mp hplaced).1
    rw [rebuilt_of_some happlied, Frame.undo, happlied]
    dsimp only
    rw [replace_eq_ok _ (add_length_le_length_splice _ hlt),
      Form.splice_splice_of_getElem? hplaced]
    rfl

namespace Search

variable {σ : Type} {search : Search σ} {source : σ} {turns : Nat} {state inside next : State σ}
  {result : Turn σ}

/-! ## What a visit and a turn can do -/

/-- A visit that does not abort leaves the form and the steps alone. If it opens a frame, it does
so in the form, and the frame has tried nothing. -/
theorem visit_eq_ok (h : search.visit state = .ok result) :
    result = .aborted state.source ∨ ∃ next, result = .running next ∧ next.form = state.form ∧
      next.steps = state.steps ∧ (next.frames = state.frames ∨ ∃ frame : Frame,
        frame.InPlace search.grammar state.form ∧ frame.fresh = frame ∧
          next.frames = frame :: state.frames) := by
  unfold visit at h
  dsimp only at h
  split at h
  next =>
    cases h
    exact .inr ⟨_, rfl, rfl, rfl, .inl rfl⟩
  next =>
    obtain ⟨found, hfound, h⟩ := bind_eq_ok h
    cases found with
    | derived =>
      cases h
      exact .inr ⟨_, rfl, rfl, rfl, .inl rfl⟩
    | deadEnd =>
      cases h
      exact .inr ⟨_, rfl, rfl, rfl, .inl rfl⟩
    | live position nonterminal =>
      dsimp only at h
      split at h
      next =>
        cases h
        exact .inl rfl
      next =>
        obtain ⟨bodies, hbodies, h⟩ := bind_eq_ok h
        cases h
        refine .inr ⟨_, rfl, rfl, rfl, .inr ⟨_,
          ⟨firstNonterminal?_of_status hfound, ?_, Nat.zero_le _, ?_⟩, rfl, rfl⟩⟩
        · rw [Grammar.bodies, getD_of_entry hbodies]
          exact search.order.arrange_perm _ _
        · intro length happlied
          cases happlied

/-- A turn ends the search if no frame is open. Otherwise it undoes the innermost frame, and then
it closes the frame or goes on to visit what the next body of the frame makes. -/
theorem turn_eq_ok (h : search.turn state = .ok result) :
    state.frames = [] ∧ result = .finished state ∨
      ∃ frame outer form steps, state.frames = frame :: outer ∧
        frame.undo state.form state.steps = .ok (form, steps) ∧
          (result = .running { state with form, steps, frames := outer } ∨
            ∃ inside, search.Places state inside ∧ search.visit inside = .ok result) := by
  unfold turn at h
  split at h
  next hframes =>
    cases h
    exact .inl ⟨hframes, rfl⟩
  next frame outer hframes =>
    obtain ⟨⟨form, steps⟩, hundo, h⟩ := bind_eq_ok h
    refine .inr ⟨frame, outer, form, steps, hframes, hundo, ?_⟩
    dsimp only at h
    split at h
    next =>
      cases h
      exact .inl rfl
    next hon =>
      obtain ⟨body, hbody, h⟩ := bind_eq_ok h
      obtain ⟨replaced, hput, h⟩ := bind_eq_ok h
      exact .inr ⟨_, .body hframes hundo hon hbody hput, h⟩

/-! ## From turn to turn -/

/-- What is so before every turn. -/
structure Held (search : Search σ) (state : State σ) : Prop where
  told : (state.form, state.steps) = rebuilt search.grammar search.start state.frames
  inPlace : AllInPlace search.grammar search.start state.frames
  /-- Only the innermost frame may have no body in the form. -/
  applied : ∀ frame ∈ state.frames.tail, frame.applied.isSome = true

theorem held_initial (search : Search σ) (source : σ) : search.Held (search.initial source) where
  told := rfl
  inPlace frame outer hsuffix := by cases List.suffix_nil.mp hsuffix
  applied := nofun

/-- A visit is made when every frame has a body in the form, so that it may open another. -/
theorem Held.visit (h : search.Held state)
    (happlied : ∀ frame ∈ state.frames, frame.applied.isSome = true)
    (hvisit : search.visit state = .ok (.running next)) : search.Held next := by
  rcases visit_eq_ok hvisit with hend | ⟨_, heq, hform, hsteps, hframes⟩
  · cases hend
  cases heq
  rcases hframes with hframes | ⟨frame, hplace, hfresh, hframes⟩
  · constructor
    · rw [hform, hsteps, hframes]
      exact h.told
    · rw [hframes]
      exact h.inPlace
    · rw [hframes]
      exact h.applied
  · constructor
    · rw [hform, hsteps, hframes, rebuilt_of_none (hfresh ▸ rfl)]
      exact h.told
    · rw [hframes]
      refine h.inPlace.cons ?_
      rw [← h.told]
      exact hplace
    · rw [hframes]
      exact happlied

theorem Held.undo (h : search.Held state) (hframes : state.frames = frame :: outer) :
    frame.undo state.form state.steps = .ok (rebuilt search.grammar search.start outer) := by
  have htold := h.told
  have hplace := h.inPlace
  rw [hframes] at htold hplace
  obtain ⟨hform, hsteps⟩ := Prod.mk.inj htold
  rw [hform, hsteps]
  exact undo_rebuilt (hplace frame outer List.suffix_rfl)

/-- When a turn goes on to a visit, every frame has a body in the form. -/
theorem Held.places (h : search.Held state) (hplaces : search.Places state inside) :
    search.Held inside ∧ ∀ frame ∈ inside.frames, frame.applied.isSome = true := by
  obtain @⟨frame, outer, form, body, replaced, steps, innermost, undone, goesOn, chosen, put⟩ :=
    hplaces
  -- what is left after the undoing no longer depends on the body that was taken out
  have htold : (form, steps) = rebuilt search.grammar search.start outer :=
    Except.ok.inj (undone.symm.trans (h.undo innermost))
  have hall := h.inPlace
  have houter := h.applied
  rw [innermost] at hall houter
  have happlied : ∀ other ∈ frame.put body :: outer, other.applied.isSome = true :=
    List.forall_mem_cons.mpr ⟨rfl, houter⟩
  have hplace := (hall frame outer List.suffix_rfl).put chosen (not_or.mp goesOn).2
  obtain ⟨-, rfl⟩ := replace_eq_ok_iff.mp put
  refine ⟨⟨?_, (hall.of_suffix (List.suffix_cons frame outer)).cons hplace,
    fun other hmem => happlied other (List.mem_of_mem_tail hmem)⟩, happlied⟩
  show _ = rebuilt search.grammar search.start (frame.put body :: outer)
  rw [rebuilt_of_some rfl, Frame.lastBody_put chosen, ← htold]
  rfl

theorem Held.turn (h : search.Held state) (hturn : search.turn state = .ok (.running next)) :
    search.Held next := by
  rcases turn_eq_ok hturn with ⟨-, hend⟩ | ⟨frame, outer, form, steps, hframes, hundo, hnext⟩
  · cases hend
  rcases hnext with heq | ⟨inside, hplaces, hvisit⟩
  · cases heq
    have hall := h.inPlace
    have houter := h.applied
    rw [hframes] at hall houter
    exact ⟨Except.ok.inj (hundo.symm.trans (h.undo hframes)),
      hall.of_suffix (List.suffix_cons frame outer),
      fun other hmem => houter other (List.mem_of_mem_tail hmem)⟩
  · obtain ⟨hinside, happlied⟩ := h.places hplaces
    exact hinside.visit happlied hvisit

/-- **Before every turn the frames tell the form and the steps.** -/
theorem Reaches.held (h : search.Reaches source turns state) : search.Held state := by
  induction h with
  | first visited => exact (held_initial search source).visit nofun visited
  | later _ taken ih => exact ih.turn taken

end Search

end AmbiguitySearch.Indexed
