import AmbiguitySearch.Proofs.Search.Frames

/-!
# Coming back

However deep a search has gone since it opened a frame, once that frame is undone the form and
the steps are those that it was opened with. The frames around it are the same as then, and they
tell the form and the steps (`Reaches.held`); so there is nothing to be said about what happened in
between, except that the frame was there all the time.

* `Visits`: the states that a search looks at. A frame is opened by such a look.
* `Opens`: one of them has opened the frame, which has been open since.
* `Retraceable`: what the frames and the steps of a state have to do with each other.

> `Reaches.exists_opens`: for every open frame there is the visit that opened it.

> `backtracking_restores`: before every turn, undoing the innermost frame brings back what there
> was when it was opened, and at the end there is the start and no step.
-/

namespace AmbiguitySearch.Indexed.Search

variable {σ : Type} {search : Search σ} {source : σ} {turns opening : Nat}
  {state inside next last visited : State σ} {frame used : Frame} {outer : List Frame}

/-! ## When a frame was opened -/

/-- The states that a search looks at, the first one and then each that a turn goes on to. The
number is that of the turns taken once it has been looked at. -/
inductive Visits (search : Search σ) (source : σ) : Nat → State σ → Prop
  | first : Visits search source 0 (search.initial source)
  | later {turns : Nat} {state inside : State σ} (reached : search.Reaches source turns state)
      (places : search.Places state inside) : Visits search source (turns + 1) inside

theorem Visits.held (h : search.Visits source turns visited) : search.Held visited := by
  cases h with
  | first => exact held_initial search source
  | later reached places => exact (reached.held.places places).1

/-- Nothing is looked at any more once enough is known. -/
theorem Visits.few (h : search.Visits source turns visited) :
    visited.witnesses.length < ambiguityThreshold := by
  cases h with
  | first => exact Nat.zero_lt_two
  | later _ places =>
    obtain ⟨-, -, goesOn, -, -⟩ := places
    exact Nat.lt_of_not_le (not_or.mp goesOn).1

/-- So many turns lead to one state. -/
theorem Reaches.unique (h : search.Reaches source turns state)
    (h' : search.Reaches source turns next) : state = next := by
  induction h generalizing next with
  | first visited =>
    cases h' with
    | first visited' =>
      cases visited.symm.trans visited'
      rfl
  | later _ taken ih =>
    cases h' with
    | later reached' taken' =>
      cases ih reached'
      cases taken.symm.trans taken'
      rfl

/-- A visit has opened the frame inside of those around it, and before each turn from then on the
frame has been open there, whatever it had tried by then. -/
structure Opens (search : Search σ) (source : σ) (turns : Nat) (frame : Frame) (outer : List Frame)
    (opening : Nat) (visited : State σ) : Prop where
  earlier : opening ≤ turns
  visits : search.Visits source opening visited
  around : visited.frames = outer
  opens : ∃ opened, search.visit visited = .ok (.running opened) ∧
    opened.frames = frame.fresh :: outer
  stays : ∀ between later, opening ≤ between → between ≤ turns →
    search.Reaches source between later →
      ∃ used : Frame, used.fresh = frame.fresh ∧ used :: outer <:+ later.frames

theorem Visits.opens (h : search.Visits source turns visited)
    (hvisit : search.visit visited = .ok (.running next))
    (hreach : search.Reaches source turns next) (hframes : next.frames = frame :: visited.frames)
    (hfresh : frame.fresh = frame) :
    search.Opens source turns frame visited.frames turns visited where
  earlier := Nat.le_refl turns
  visits := h
  around := rfl
  opens := ⟨next, hvisit, hfresh ▸ hframes⟩
  stays between later hfrom hto hlater := by
    obtain rfl : turns = between := Nat.le_antisymm hfrom hto
    obtain rfl := hreach.unique hlater
    exact ⟨frame, rfl, hframes ▸ List.suffix_rfl⟩

/-- A frame that is still there after another turn is the one that was opened. -/
theorem Opens.later (h : search.Opens source turns frame outer opening visited)
    (hnext : search.Reaches source (turns + 1) next) (hsame : used.fresh = frame.fresh)
    (hthere : used :: outer <:+ next.frames) :
    search.Opens source (turns + 1) used outer opening visited where
  earlier := Nat.le_succ_of_le h.earlier
  visits := h.visits
  around := h.around
  opens := hsame ▸ h.opens
  stays between later hfrom hto hlater := by
    rcases Nat.lt_or_eq_of_le hto with hbefore | rfl
    · obtain ⟨kept, hkept, hsuffix⟩ :=
        h.stays between later hfrom (Nat.le_of_lt_succ hbefore) hlater
      exact ⟨kept, hkept.trans hsame.symm, hsuffix⟩
    · obtain rfl := hnext.unique hlater
      exact ⟨used, rfl, hthere⟩

/-- A frame that is there after a visit has been opened by it or was there before. -/
theorem Visits.opens_or_suffix (h : search.Visits source turns visited)
    (hvisit : search.visit visited = .ok (.running next))
    (hreach : search.Reaches source turns next) (hthere : frame :: outer <:+ next.frames) :
    search.Opens source turns frame outer turns visited ∨ frame :: outer <:+ visited.frames := by
  rcases visit_eq_ok hvisit with hend | ⟨_, heq, -, -, hframes⟩
  · cases hend
  cases heq
  rcases hframes with hframes | ⟨opened, -, hfresh, hframes⟩
  · rw [hframes] at hthere
    exact .inr hthere
  · rw [hframes] at hthere
    rcases List.suffix_cons_iff.mp hthere with heq | hthere
    · obtain ⟨rfl, rfl⟩ := List.cons.inj heq
      exact .inl (h.opens hvisit hreach hframes hfresh)
    · exact .inr hthere

/-- **Every open frame was opened by a visit**, and it has been open since. -/
theorem Reaches.exists_opens (h : search.Reaches source turns state)
    (hthere : frame :: outer <:+ state.frames) :
    ∃ opening visited, search.Opens source turns frame outer opening visited := by
  induction h generalizing frame outer with
  | first hvisit =>
    rcases Visits.first.opens_or_suffix hvisit (.first hvisit) hthere with hopens | hthere
    · exact ⟨_, _, hopens⟩
    · cases List.suffix_nil.mp hthere
  | later hreach hturn ih =>
    have hnext := Reaches.later hreach hturn
    rcases turn_eq_ok hturn with ⟨-, hend⟩ | ⟨innermost, others, form, steps, hframes, -, hcase⟩
    · cases hend
    rw [hframes] at ih
    have hothers := List.suffix_cons innermost others
    rcases hcase with heq | ⟨inside, hplaces, hvisit⟩
    · cases heq
      obtain ⟨opening, visited, hopens⟩ := ih (hthere.trans hothers)
      exact ⟨opening, visited, hopens.later hnext rfl hthere⟩
    rcases (Visits.later hreach hplaces).opens_or_suffix hvisit hnext hthere with hopens | hinside
    · exact ⟨_, _, hopens⟩
    obtain ⟨hinnermost, -, -, -, -⟩ := hplaces
    obtain ⟨rfl, rfl⟩ := List.cons.inj (hinnermost.symm.trans hframes)
    rcases List.suffix_cons_iff.mp hinside with heq | hinside
    · -- the innermost frame has come to its next body, and is the same for all that
      obtain ⟨rfl, rfl⟩ := List.cons.inj heq
      obtain ⟨opening, visited, hopens⟩ := ih List.suffix_rfl
      exact ⟨opening, visited, hopens.later hnext rfl hthere⟩
    · obtain ⟨opening, visited, hopens⟩ := ih (hinside.trans hothers)
      exact ⟨opening, visited, hopens.later hnext rfl hthere⟩

/-- Undoing the innermost frame brings back the form and the steps that it was opened with. -/
theorem Opens.undo (h : search.Opens source turns frame outer opening visited)
    (hheld : search.Held state) (hframes : state.frames = frame :: outer) :
    frame.undo state.form state.steps = .ok (visited.form, visited.steps) := by
  rw [hheld.undo hframes, h.visits.held.told, h.around]

/-! ## The end of a search -/

/-- What a search has to work off: its first visit, and a turn from every state that it reaches. -/
inductive Due (search : Search σ) (source : σ) : Except OutOfRange (Turn σ) → Prop
  | first : Due search source (search.visit (search.initial source))
  | turn {turns : Nat} {state : State σ} (reached : search.Reaches source turns state) :
      Due search source (search.turn state)

theorem Due.running (h : search.Due source (.ok (.running next))) :
    ∃ turns, search.Reaches source turns next := by
  generalize hresult : (Except.ok (.running next) : Except OutOfRange (Turn σ)) = result at h
  cases h with
  | first => exact ⟨0, .first hresult.symm⟩
  | turn reached => exact ⟨_, .later reached hresult.symm⟩

theorem visit_ne_finished : search.visit state ≠ .ok (.finished last) := by
  intro h
  rcases visit_eq_ok h with hend | ⟨_, hend, -⟩
  · cases hend
  · cases hend

theorem Due.finished (h : search.Due source (.ok (.finished last))) :
    ∃ turns, search.Reaches source turns last ∧ last.frames = [] := by
  generalize hresult : (Except.ok (.finished last) : Except OutOfRange (Turn σ)) = result at h
  cases h with
  | first => exact absurd hresult.symm visit_ne_finished
  | turn reached =>
    rcases turn_eq_ok hresult.symm with ⟨hframes, hend⟩ | ⟨_, _, _, _, -, -, hend | ⟨_, -, hvisit⟩⟩
    · cases hend
      exact ⟨_, reached, hframes⟩
    · cases hend
    · exact absurd hvisit visit_ne_finished

/-- A search that finishes has come to a state without frames, and tells what that has found. -/
theorem exists_last {found : Derivations} {rest : σ}
    (h : search.derive source = some (.ok (.found found, rest))) :
    ∃ turns last, search.Reaches source turns last ∧ last.frames = [] ∧
      last.derivations = found ∧ last.source = rest := by
  -- by the calls of the loop, whose argument is always something that is due
  refine resume.partial_correctness search
    (fun result final => search.Due source result → final = .ok (.found found, rest) →
      ∃ turns last, search.Reaches source turns last ∧ last.frames = [] ∧
        last.derivations = found ∧ last.source = rest) ?_ _ _ h .first rfl
  intro resume ih result final hfinal hdue hfound
  split at hfinal
  next miss =>
    cases hfinal
    cases hfound
  next state =>
    obtain ⟨turns, hreach⟩ := hdue.running
    exact ih _ _ hfinal (.turn hreach) hfound
  next last =>
    obtain ⟨turns, hreach, hframes⟩ := hdue.finished
    cases hfinal
    cases hfound
    exact ⟨turns, last, hreach, hframes, rfl, rfl⟩
  next =>
    cases hfinal
    cases hfound

/-! ## Backtracking -/

/-- The frames and the steps of a state belong to each other: the steps lead to the form, and
each of them was taken where a frame is open. -/
structure Retraceable (search : Search σ) (state : State σ) : Prop where
  /-- Every frame but the innermost has a body in the form. -/
  applied : ∀ frame ∈ state.frames.tail, frame.applied.isSome = true
  length_steps : state.steps.length = state.frames.countP (·.applied.isSome)
  replays : search.grammar.Derives search.start state.steps.reverse state.form
  /-- Counted from the outermost, each frame stands at the first nonterminal of the form before
  the step of its number. -/
  placed : ∀ i frame, state.frames.reverse[i]? = some frame →
    (Trace.before ⟨search.start, state.steps.reverse⟩ i).firstNonterminal? =
      some (frame.position, frame.nonterminal)
  arranged : ∀ frame ∈ state.frames,
    frame.order.Perm (List.range (search.grammar.bodies frame.nonterminal).length) ∧
      frame.next ≤ frame.order.length

/-- Counted from the end of a list, an item has as many behind it as its number says. -/
theorem exists_suffix_of_reverse {α : Type} {items : List α} {item : α} {i : Nat}
    (h : items.reverse[i]? = some item) : ∃ rest, item :: rest <:+ items ∧ rest.length = i := by
  have hlt : i < items.length := by
    obtain ⟨hlt, -⟩ := List.getElem?_eq_some_iff.mp h
    rwa [List.length_reverse] at hlt
  rw [List.getElem?_reverse hlt] at h
  obtain ⟨hplace, rfl⟩ := List.getElem?_eq_some_iff.mp h
  refine ⟨items.drop (items.length - 1 - i + 1), ?_, ?_⟩
  · rw [← List.drop_eq_getElem_cons hplace]
    exact List.drop_suffix _ _
  · rw [List.length_drop]
    omega

theorem mem_tail_of_suffix {α : Type} {item other : α} {rest items : List α}
    (h : item :: rest <:+ items) (hmem : other ∈ rest) : other ∈ items.tail := by
  cases items with
  | nil => cases List.suffix_nil.mp h
  | cons first items =>
    rcases List.suffix_cons_iff.mp h with heq | h
    · obtain ⟨-, rfl⟩ := List.cons.inj heq
      exact hmem
    · exact h.subset (List.mem_cons_of_mem _ hmem)

theorem Held.retraceable (h : search.Held state) : search.Retraceable state := by
  obtain ⟨hform, hsteps⟩ := Prod.mk.inj h.told
  constructor
  · exact h.applied
  · rw [hsteps, length_rebuilt]
  · rw [hform, hsteps]
    exact derives_rebuilt h.inPlace
  · intro i frame hframe
    obtain ⟨outer, hsuffix, rfl⟩ := exists_suffix_of_reverse hframe
    have happlied : ∀ other ∈ outer, other.applied.isSome = true := fun other hmem =>
      h.applied other (mem_tail_of_suffix hsuffix hmem)
    rw [hsteps, before_rebuilt h.inPlace ((List.suffix_cons _ _).trans hsuffix) happlied]
    exact (h.inPlace frame outer hsuffix).first
  · intro frame hmem
    obtain ⟨inner, outer, heq⟩ := List.append_of_mem hmem
    have hplace := h.inPlace frame outer ⟨inner, heq.symm⟩
    exact ⟨hplace.arranged, hplace.within⟩

/-- Where no frame is left, there is the start again. -/
theorem Held.restored (h : search.Held state) (hframes : state.frames = []) :
    state.form = search.start ∧ state.steps = [] := by
  have htold := h.told
  rw [hframes] at htold
  exact Prod.mk.inj htold

/-- **Backtracking restores exactly.** Before every turn of a search the steps lead from the start
to the form, each from where its frame stands, and no state was looked at once enough was known.
Undoing the innermost frame brings back the form and the steps that there were when it was opened.
So a search that finishes has the start as its form and no step when it ends, also if it ends
because enough is known. -/
theorem backtracking_restores (search : Search σ) (hg : search.grammar.Loaded)
    (hne : search.grammar.nonterminals ≠ []) (source : σ) :
    (∀ turns state, search.Reaches source turns state →
      search.Retraceable state ∧
      (∀ earlier visited, earlier ≤ turns → search.Visits source earlier visited →
        visited.witnesses.length < ambiguityThreshold) ∧
      ∀ frame outer, state.frames = frame :: outer →
        ∃ opening visited, search.Opens source turns frame outer opening visited ∧
          frame.undo state.form state.steps = .ok (visited.form, visited.steps)) ∧
    ∃ outcome rest, search.derive source = some (.ok (outcome, rest)) ∧
      search.toSearch.count source = .ok (outcome, rest) ∧
        ∀ found, outcome = .found found →
          ∃ turns last, search.Reaches source turns last ∧
            search.turn last = .ok (.finished last) ∧ last.derivations = found ∧
              last.source = rest ∧ last.form = search.start ∧ last.steps = [] := by
  constructor
  · intro turns state hreach
    have hheld := hreach.held
    refine ⟨hheld.retraceable, fun _ _ _ hvisits => hvisits.few, fun frame outer hframes => ?_⟩
    have hinnermost : frame :: outer <:+ state.frames := hframes ▸ List.suffix_rfl
    obtain ⟨opening, visited, hopens⟩ := hreach.exists_opens hinnermost
    exact ⟨opening, visited, hopens, hopens.undo hheld hframes⟩
  · have hderive := search.derive_eq_run hg hne source
    have hcount : search.toSearch.count source = .ok (search.toSearch.run source) :=
      AmbiguitySearch.Search.count_eq_run hg hne source
    rcases hrun : search.toSearch.run source with ⟨outcome, rest⟩
    rw [hrun] at hderive hcount
    refine ⟨outcome, rest, hderive, hcount, ?_⟩
    rintro found rfl
    obtain ⟨turns, last, hreach, hframes, hderivations, hsource⟩ := exists_last hderive
    have hturn : search.turn last = .ok (.finished last) := by
      rw [turn, hframes]
      rfl
    exact ⟨turns, last, hreach, hturn, hderivations, hsource, hreach.held.restored hframes⟩

/-- Three letters in a row. -/
def threeLetters : Search Unit :=
  ⟨concatenation, .asListed, 20, [.terminal 0, .terminal 0, .terminal 0]⟩

/-- Two derivations of three letters are found while frames are open, and each of these is closed
before the search ends. -/
theorem backtracking_restores_threeLetters : ∃ found turns last,
    threeLetters.derive () = some (.ok (.found found, ())) ∧ found.count = 2 ∧
      threeLetters.Reaches () turns last ∧ last.derivations = found ∧
        last.form = [.nonterminal 0] ∧ last.steps = [] := by
  have hg : concatenation.Loaded := .ofDefinitions _
  have hne : concatenation.nonterminals ≠ [] := by decide
  obtain ⟨-, outcome, rest, hderive, hcount, hends⟩ :=
    backtracking_restores threeLetters hg hne ()
  have htwo : (match (threeLetters.toSearch.descent ()).1 with
      | .found found => found.count
      | .aborted _ => 0) = 2 := by decide +kernel
  rw [AmbiguitySearch.Search.count_eq_run hg hne, AmbiguitySearch.Search.run_eq_descent] at hcount
  rw [Except.ok.inj hcount] at htwo
  cases outcome with
  | aborted limit => cases htwo
  | found found =>
    obtain ⟨turns, last, hreach, -, hderivations, -, hform, hsteps⟩ := hends found rfl
    exact ⟨found, turns, last, hderive, htwo, hreach, hderivations, hform, hsteps⟩

end AmbiguitySearch.Indexed.Search
