import AmbiguitySearch.Proofs.Text.Words

/-!
# Maximal runs

A run is a stretch of visible characters that cannot be made longer: what stands before it
ends in a blank, and what stands behind it begins with one, unless the text ends there
(`IsRun`). That is said of places in a text, without going through it from the left, as
`words` does.

> `exists_runs`: the words of a text are its runs, in the order of their places.

The other way round, words can be laid out in a text with blanks of any kind between them.

> `words_flatMap`: the words of such a text are the words laid out.
-/

namespace AmbiguitySearch.Text

/-- The characters from `place` on are visible, and those next to them are not. -/
def IsRun (text : List Char) (place : Nat) (run : List Char) : Prop :=
  run ≠ [] ∧ (∀ c ∈ run, isBlank c = false) ∧ ∃ before after,
    text = before ++ (run ++ after) ∧ before.length = place ∧
      (∀ c ∈ before.getLast?, isBlank c = true) ∧ ∀ c ∈ after.head?, isBlank c = true

variable {front text word rest run : List Char} {place : Nat}

/-! ## Runs at the beginning of a text -/

theorem not_isRun_nil : ¬ IsRun [] place run := by
  intro h
  obtain ⟨hne, -, before, after, htext, -⟩ := h
  have hnil := (List.append_eq_nil_iff.mp htext.symm).2
  exact hne (List.append_eq_nil_iff.mp hnil).1

/-- A text that begins with a run does not begin with a blank. -/
theorem not_isBlank_head? {after : List Char} (hne : run ≠ [])
    (hrun : ∀ c ∈ run, isBlank c = false) : ¬ ∀ c ∈ (run ++ after).head?, isBlank c = true := by
  intro h
  obtain ⟨c, run, rfl⟩ := List.exists_cons_of_ne_nil hne
  have hblank := h c rfl
  rw [hrun c (List.mem_cons_self ..)] at hblank
  cases hblank

theorem not_isBlank_getLast? (hne : word ≠ []) (hword : ∀ c ∈ word, isBlank c = false) :
    ¬ ∀ c ∈ word.getLast?, isBlank c = true := by
  intro h
  have hblank := h _ (List.getLast?_eq_some_getLast hne)
  rw [hword _ (List.getLast_mem hne)] at hblank
  cases hblank

/-- **Runs further behind** are those of the text there, if the text before it ends in a blank
or it begins with one. -/
theorem isRun_behind (hapart : (∀ c ∈ front.getLast?, isBlank c = true) ∨
    ∀ c ∈ text.head?, isBlank c = true) :
    IsRun (front ++ text) (front.length + place) run ↔ IsRun text place run := by
  constructor
  · intro h
    obtain ⟨hne, hrun, before, after, htext, hplace, hbefore, hafter⟩ := h
    have hlength : front.length ≤ before.length := by omega
    obtain ⟨between, rfl⟩ := List.prefix_of_prefix_length_le
      (List.prefix_append front text) (htext ▸ List.prefix_append before _) hlength
    rw [List.append_assoc] at htext
    rw [List.length_append] at hplace
    refine ⟨hne, hrun, between, after, List.append_cancel_left htext, by omega, ?_, hafter⟩
    intro c hc
    refine hbefore c ?_
    rw [List.getLast?_append, Option.mem_def.mp hc]
    rfl
  · intro h
    obtain ⟨hne, hrun, between, after, rfl, rfl, hbetween, hafter⟩ := h
    refine ⟨hne, hrun, front ++ between, after, (List.append_assoc ..).symm, List.length_append,
      ?_, hafter⟩
    intro c hc
    rw [List.getLast?_append] at hc
    cases hlast : between.getLast? with
    | some last =>
      rw [hlast] at hc
      exact hbetween c (hlast.trans hc)
    | none =>
      rw [hlast] at hc
      rw [List.getLast?_eq_none_iff.mp hlast, List.nil_append] at hapart
      exact hapart.resolve_right (not_isBlank_head? hne hrun) c hc

/-- At the beginning of a text, with a blank or nothing after it, a word is the only run. -/
theorem isRun_iff_of_lt (hword : ∀ c ∈ word, isBlank c = false)
    (hrest : ∀ c ∈ rest.head?, isBlank c = true) (hplace : place < word.length) :
    IsRun (word ++ rest) place run ↔ place = 0 ∧ run = word := by
  constructor
  · intro h
    obtain ⟨-, hrun, before, after, htext, rfl, hbefore, hafter⟩ := h
    obtain ⟨between, rfl⟩ := List.prefix_of_prefix_length_le
      (htext ▸ List.prefix_append before _) (List.prefix_append word rest) (Nat.le_of_lt hplace)
    have hnil : before = [] := by
      by_contra hsome
      refine not_isBlank_getLast? hsome (fun c hc => ?_) hbefore
      exact hword c (List.mem_append_left _ hc)
    subst hnil
    have hsplit := splitWord_eq hword hrest
    rw [htext, List.nil_append, List.nil_append, splitWord_eq hrun hafter] at hsplit
    exact ⟨rfl, congrArg Prod.fst hsplit⟩
  · intro h
    obtain ⟨rfl, rfl⟩ := h
    exact ⟨List.ne_nil_of_length_pos hplace, hword, [], rest, rfl, rfl, nofun, hrest⟩

/-! ## Words are runs -/

/-- Runs with more text before them. -/
def pushed (distance : Nat) (runs : List (Nat × List Char)) : List (Nat × List Char) :=
  runs.map fun run => (distance + run.1, run.2)

theorem mem_pushed_iff {distance : Nat} {runs : List (Nat × List Char)} :
    (place, run) ∈ pushed distance runs ↔
      ∃ place', distance + place' = place ∧ (place', run) ∈ runs := by
  simp only [pushed, List.mem_map, Prod.mk.injEq, Prod.exists]
  constructor
  · intro h
    obtain ⟨place', run', hmem, hplace, rfl⟩ := h
    exact ⟨place', hplace, hmem⟩
  · intro h
    obtain ⟨place', hplace, hmem⟩ := h
    exact ⟨place', run, hmem, hplace, rfl⟩

/-- The runs of a text that has some text before it. -/
theorem mem_pushed_iff_isRun {runs : List (Nat × List Char)}
    (hruns : ∀ place run, (place, run) ∈ runs ↔ IsRun text place run)
    (hapart : (∀ c ∈ front.getLast?, isBlank c = true) ∨ ∀ c ∈ text.head?, isBlank c = true) :
    (place, run) ∈ pushed front.length runs ↔
      front.length ≤ place ∧ IsRun (front ++ text) place run := by
  rw [mem_pushed_iff]
  constructor
  · intro h
    obtain ⟨place', rfl, hmem⟩ := h
    exact ⟨Nat.le_add_right .., (isRun_behind hapart).mpr ((hruns place' run).mp hmem)⟩
  · intro h
    obtain ⟨hle, hrun⟩ := h
    obtain ⟨place', rfl⟩ := Nat.exists_eq_add_of_le hle
    exact ⟨place', rfl, (hruns place' run).mpr ((isRun_behind hapart).mp hrun)⟩

/-- The runs of a text, each with its place, in order. -/
structure Runs (text : List Char) (runs : List (Nat × List Char)) : Prop where
  mem_iff : ∀ place run, (place, run) ∈ runs ↔ IsRun text place run
  ordered : runs.Pairwise fun earlier later => earlier.1 < later.1

namespace Runs

variable {runs : List (Nat × List Char)}

theorem nil : Runs [] [] where
  mem_iff place run := by
    refine ⟨nofun, fun h => ?_⟩
    exact absurd h not_isRun_nil
  ordered := .nil

theorem ordered_pushed (h : Runs text runs) (distance : Nat) :
    (pushed distance runs).Pairwise fun earlier later => earlier.1 < later.1 := by
  refine List.pairwise_map.mpr (h.ordered.imp ?_)
  intro earlier later hlt
  exact Nat.add_lt_add_left hlt distance

/-- A blank in front moves all runs. -/
theorem cons_blank {b : Char} (hb : isBlank b = true) (h : Runs text runs) :
    Runs (b :: text) (pushed 1 runs) where
  mem_iff place run := by
    have hfront : ∀ c ∈ [b].getLast?, isBlank c = true := by
      intro c hc
      cases hc
      exact hb
    have hpushed : (place, run) ∈ pushed 1 runs ↔ 1 ≤ place ∧ IsRun (b :: text) place run :=
      mem_pushed_iff_isRun h.mem_iff (.inl hfront)
    refine hpushed.trans (and_iff_right_of_imp fun hrun => ?_)
    -- no run begins with the blank
    by_contra hzero
    obtain ⟨hne, hvisible, before, after, htext, hplace, -⟩ := hrun
    have hnil : before = [] := List.length_eq_zero_iff.mp (by simp at hzero; omega)
    rw [hnil, List.nil_append] at htext
    have hhead : ∀ c ∈ (run ++ after).head?, isBlank c = true := by
      rw [← htext]
      exact hfront
    exact not_isBlank_head? hne hvisible hhead
  ordered := h.ordered_pushed 1

/-- A word in front, with a blank or nothing after it, is one more run. -/
theorem append (hne : word ≠ []) (hword : ∀ c ∈ word, isBlank c = false)
    (hrest : ∀ c ∈ rest.head?, isBlank c = true) (h : Runs rest runs) :
    Runs (word ++ rest) ((0, word) :: pushed word.length runs) where
  mem_iff place run := by
    have hpos : 0 < word.length := List.length_pos_iff.mpr hne
    rw [List.mem_cons, mem_pushed_iff_isRun h.mem_iff (.inr hrest), Prod.mk.injEq]
    by_cases hlt : place < word.length
    · rw [isRun_iff_of_lt hword hrest hlt]
      refine ⟨fun hor => hor.resolve_right fun hle => ?_, .inl⟩
      exact absurd hle.1 (Nat.not_le.mpr hlt)
    · refine ⟨fun hor => ?_, fun hrun => .inr ⟨Nat.not_lt.mp hlt, hrun⟩⟩
      rcases hor with hfirst | hlater
      · rw [hfirst.1] at hlt
        exact absurd hpos hlt
      · exact hlater.2
  ordered := by
    refine List.pairwise_cons.mpr ⟨fun later hlater => ?_, h.ordered_pushed _⟩
    obtain ⟨run, -, rfl⟩ := List.mem_map.mp hlater
    exact Nat.add_pos_left (List.length_pos_iff.mpr hne) _

end Runs

theorem map_snd_pushed (distance : Nat) (runs : List (Nat × List Char)) :
    (pushed distance runs).map Prod.snd = runs.map Prod.snd := by
  rw [pushed, List.map_map]
  rfl

/-- **The words of a text are its runs**, one for each and in the order of their places. -/
theorem exists_runs (text : List Char) :
    ∃ runs, Runs text runs ∧ runs.map Prod.snd = words text := by
  match text with
  | [] => exact ⟨[], .nil, words_nil.symm⟩
  | c :: text =>
    by_cases hc : isBlank c = true
    · obtain ⟨runs, hruns, hwords⟩ := exists_runs text
      refine ⟨_, hruns.cons_blank hc, ?_⟩
      rw [map_snd_pushed, hwords, words_cons_blank hc]
    · have hshorter : (splitWord (c :: text)).2.length < (c :: text).length :=
        length_splitWord_lt (eq_false_of_ne_true hc)
      obtain ⟨runs, hruns, hwords⟩ := exists_runs (splitWord (c :: text)).2
      have hne : (splitWord (c :: text)).1 ≠ [] := by simp [splitWord, hc]
      have hword : ∀ d ∈ (splitWord (c :: text)).1, isBlank d = false :=
        fun d => isBlank_of_mem_splitWord
      have hbehind : ∀ d ∈ (splitWord (c :: text)).2.head?, isBlank d = true :=
        isBlank_of_mem_head?_splitWord
      have happend := hruns.append hne hword hbehind
      have hfirst := words_append hne hword hbehind
      rw [splitWord_append] at happend hfirst
      refine ⟨_, happend, ?_⟩
      rw [List.map_cons, map_snd_pushed, hwords, hfirst]
termination_by text.length
decreasing_by
  · exact Nat.lt_succ_self _
  · exact hshorter

/-! ## Words laid out -/

/-- **Words with blanks behind each**, some at least behind each but the last, are the words of
the text they make. -/
theorem words_flatMap : ∀ {pieces : List (List Char × List Char)},
    (∀ piece ∈ pieces, piece.1 ≠ [] ∧ ∀ c ∈ piece.1, isBlank c = false) →
      (∀ piece ∈ pieces, ∀ c ∈ piece.2, isBlank c = true) →
        (∀ piece ∈ pieces.dropLast, piece.2 ≠ []) →
          words (pieces.flatMap fun piece => piece.1 ++ piece.2) = pieces.map Prod.fst
  | [], _, _, _ => words_nil
  | (word, gap) :: pieces, hwords, hgaps, hapart => by
    obtain ⟨⟨hne, hword⟩, hwords⟩ := List.forall_mem_cons.mp hwords
    obtain ⟨hgap, hgaps⟩ := List.forall_mem_cons.mp hgaps
    have hbehind : ∀ c ∈ (gap ++ pieces.flatMap fun piece => piece.1 ++ piece.2).head?,
        isBlank c = true := by
      intro c hc
      cases gap with
      | cons b gap =>
        cases hc
        exact hgap c (List.mem_cons_self ..)
      | nil =>
        -- only the last word can do without blanks
        cases pieces with
        | nil => cases hc
        | cons next pieces => exact absurd rfl (hapart (word, []) (List.mem_cons_self ..))
    have hlater : ∀ piece ∈ pieces.dropLast, piece.2 ≠ [] := by
      intro piece hpiece
      cases pieces with
      | nil => cases hpiece
      | cons next pieces => exact hapart piece (List.mem_cons_of_mem _ hpiece)
    rw [List.flatMap_cons, List.append_assoc, words_append hne hword hbehind,
      words_append_blank hgap, words_flatMap hwords hgaps hlater, List.map_cons]

end AmbiguitySearch.Text
