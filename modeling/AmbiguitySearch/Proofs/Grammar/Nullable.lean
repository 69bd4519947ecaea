import AmbiguitySearch.Grammar.Basic

/-!
# The nullable flags solve their equation

`saturateFlags` has a bound on the number of passes, and the bound is never what
ends it. A pass that sets a flag leaves one more set than there were, and there are
no more flags than nonterminals:

> `nullableFlags_settles`: the passes end by themselves, with one that sets no flag.

What is true of the flags in the end is true of them at any time, or is what the last
pass found. A flag that is set is set for a reason (`Sound`), the reasons go back to
nonterminals that have a body with nothing in it (`Settles.of_closed`), and the last
pass found no reason to set another (`closed_of_not_updated`). The search reads off
this that a nonterminal is nullable exactly if some body of it has nullable symbols
only, and that of all flags with that property they are the fewest:

> `Grammar.isNullable_nonterminal_iff`: the equation.

> `Grammar.isNullable_of_closed`: induction over the nullable nonterminals.
-/

namespace AmbiguitySearch

variable {rules : List (List Form)} {marking : Marking} {flags : Array Bool}

theorem bodyVanishes_iff {vanishes : Nat → Bool} {body : Form} :
    bodyVanishes vanishes body = true ↔
      ∀ symbol ∈ body, ∃ id, symbol = .nonterminal id ∧ vanishes id = true := by
  unfold bodyVanishes
  rw [List.all_eq_true]
  refine forall₂_congr fun symbol _ => ?_
  cases symbol with
  | terminal => simp
  | nonterminal id => simp

theorem bodyVanishes_mono {vanishes vanishes' : Nat → Bool} {body : Form}
    (h : ∀ id, vanishes id = true → vanishes' id = true)
    (hb : bodyVanishes vanishes body = true) : bodyVanishes vanishes' body = true := by
  rw [bodyVanishes_iff] at hb ⊢
  intro symbol hs
  obtain ⟨id, heq, hid⟩ := hb symbol hs
  exact ⟨id, heq, h id hid⟩

/-- Reading the flags after one of them is set. -/
theorem getD_setIfInBounds {id : Nat} (h : id < flags.size) (other : Nat) :
    (flags.setIfInBounds id true).getD other false =
      if id = other then true else flags.getD other false := by
  rw [Array.getD_eq_getD_getElem?, Array.getElem?_setIfInBounds, Array.getD_eq_getD_getElem?]
  split
  next => rfl
  next => rfl

namespace Marking

/-! ## One visit -/

/-- A visit does nothing if the flag is set already or there is no reason to set it,
and sets it otherwise. -/
theorem visit_cases (marking : Marking) (id : Nat) (bodies : List Form) :
    (marking.visit id bodies = marking ∧
      (marking.has id = true ∨ bodies.any (bodyVanishes marking.has) = false)) ∨
    (marking.visit id bodies = ⟨marking.flags.setIfInBounds id true, true⟩ ∧
      marking.has id = false ∧ bodies.any (bodyVanishes marking.has) = true) := by
  unfold visit
  cases hid : marking.has id with
  | true => exact .inl ⟨rfl, .inl rfl⟩
  | false =>
    cases hany : bodies.any (bodyVanishes marking.has) with
    | true => exact .inr ⟨rfl, rfl, rfl⟩
    | false => exact .inl ⟨rfl, .inr rfl⟩

theorem size_visit (marking : Marking) (id : Nat) (bodies : List Form) :
    (marking.visit id bodies).flags.size = marking.flags.size := by
  rcases visit_cases marking id bodies with ⟨hsame, -⟩ | ⟨hset, -⟩
  · rw [hsame]
  · rw [hset, Array.size_setIfInBounds]

/-- The flags after a visit that sets one. -/
theorem has_set {id : Nat} (h : id < marking.flags.size) (other : Nat) :
    has ⟨marking.flags.setIfInBounds id true, true⟩ other =
      if id = other then true else marking.has other :=
  getD_setIfInBounds h other

theorem has_set_of_has {id other : Nat} (h : id < marking.flags.size)
    (hother : marking.has other = true) :
    has ⟨marking.flags.setIfInBounds id true, true⟩ other = true := by
  rw [has_set h]
  split
  next => rfl
  next => exact hother

/-- Setting a flag that is not set adds one to those that are. -/
theorem count_set {id : Nat} (h : id < marking.flags.size) (hid : marking.has id = false) :
    (marking.flags.setIfInBounds id true).count true = marking.flags.count true + 1 := by
  have hget : marking.flags[id] = false := by
    unfold has at hid
    rw [Array.getD_eq_getD_getElem?, Array.getElem?_eq_getElem h] at hid
    exact hid
  rw [Array.setIfInBounds, dif_pos h, Array.count_set]
  simp [hget]

/-! ## One pass -/

/-- What every visit of a nonterminal with its bodies keeps, a pass keeps. -/
theorem visitFrom_induction {motive : Marking → Prop}
    (hvisit : ∀ (marking : Marking) (id : Nat) (bodies : List Form),
      rules[id]? = some bodies → motive marking → motive (marking.visit id bodies)) :
    ∀ (rest : List (List Form)) {id : Nat} {marking : Marking}, rules.drop id = rest →
      motive marking → motive (marking.visitFrom id rest)
  | [], _, _, _, h => h
  | bodies :: rest, id, marking, hrest, h => by
    have hbodies : rules[id]? = some bodies := by
      rw [← List.head?_drop, hrest, List.head?_cons]
    have hlater : rules.drop (id + 1) = rest := by
      rw [← List.tail_drop, hrest, List.tail_cons]
    exact visitFrom_induction hvisit rest hlater (hvisit marking id bodies hbodies h)

theorem markPass_induction {motive : Marking → Prop}
    (hvisit : ∀ (marking : Marking) (id : Nat) (bodies : List Form),
      rules[id]? = some bodies → motive marking → motive (marking.visit id bodies))
    (h : motive ⟨flags, false⟩) : motive (markPass rules flags) :=
  visitFrom_induction hvisit rules List.drop_zero h

theorem updated_visitFrom (h : marking.updated = true) (id : Nat) :
    ∀ rest, (marking.visitFrom id rest).updated = true := by
  intro rest
  induction rest generalizing marking id with
  | nil => exact h
  | cons bodies rest ih =>
    refine ih ?_ (id + 1)
    rcases visit_cases marking id bodies with ⟨hsame, -⟩ | ⟨hset, -⟩
    · rw [hsame]
      exact h
    · rw [hset]

/-- Visits that set no flag change nothing, and found no reason to. -/
theorem visitFrom_of_not_updated :
    ∀ {rest : List (List Form)} {id : Nat}, (marking.visitFrom id rest).updated = false →
      marking.visitFrom id rest = marking ∧ ∀ (later : Nat) (bodies : List Form),
        rest[later]? = some bodies →
          marking.has (id + later) = true ∨ bodies.any (bodyVanishes marking.has) = false
  | [], _, _ => ⟨rfl, nofun⟩
  | bodies :: rest, id, h => by
    rcases visit_cases marking id bodies with ⟨hsame, hreason⟩ | ⟨hset, -⟩
    · rw [visitFrom, hsame] at h ⊢
      obtain ⟨hrest, hreasons⟩ := visitFrom_of_not_updated h
      refine ⟨hrest, ?_⟩
      intro later bodies' hlater
      cases later with
      | zero =>
        cases hlater
        exact hreason
      | succ later =>
        rw [Nat.add_left_comm, Nat.add_comm]
        exact hreasons later bodies' hlater
    · -- the flag set here would be told of at the end
      rw [visitFrom, hset, updated_visitFrom rfl] at h
      cases h

end Marking

/-- There is a flag for every nonterminal, and each flag set has a body for a reason. -/
structure Sound (rules : List (List Form)) (flags : Array Bool) : Prop where
  size_eq : flags.size = rules.length
  reason : ∀ id : Nat, flags.getD id false = true →
    ∃ body ∈ rules.getD id [], bodyVanishes (fun id => flags.getD id false) body = true

theorem lt_length_of_getElem? {id : Nat} {bodies : List Form} (h : rules[id]? = some bodies) :
    id < rules.length := by
  obtain ⟨hlt, -⟩ := List.getElem?_eq_some_iff.mp h
  exact hlt

theorem getD_of_getElem? {id : Nat} {bodies : List Form} (h : rules[id]? = some bodies) :
    rules.getD id [] = bodies := by
  rw [List.getD_eq_getElem?_getD, h, Option.getD_some]

theorem Sound.visit (h : Sound rules marking.flags) {id : Nat} {bodies : List Form}
    (hbodies : rules[id]? = some bodies) : Sound rules (marking.visit id bodies).flags := by
  rcases marking.visit_cases id bodies with ⟨hsame, -⟩ | ⟨hset, -, hany⟩
  · rw [hsame]
    exact h
  · have hid : id < marking.flags.size := by
      rw [h.size_eq]
      exact lt_length_of_getElem? hbodies
    have hkept : ∀ other, marking.has other = true →
        Marking.has ⟨marking.flags.setIfInBounds id true, true⟩ other = true :=
      fun other => Marking.has_set_of_has hid
    rw [hset]
    refine ⟨by rw [Array.size_setIfInBounds, h.size_eq], ?_⟩
    intro other hother
    rw [getD_setIfInBounds hid] at hother
    split at hother
    next heq =>
      obtain ⟨body, hb, hv⟩ := List.any_eq_true.mp hany
      rw [← heq, getD_of_getElem? hbodies]
      exact ⟨body, hb, bodyVanishes_mono hkept hv⟩
    next =>
      obtain ⟨body, hb, hv⟩ := h.reason other hother
      exact ⟨body, hb, bodyVanishes_mono hkept hv⟩

theorem Sound.markPass (h : Sound rules flags) : Sound rules (markPass rules flags).flags :=
  Marking.markPass_induction (motive := fun marking => Sound rules marking.flags)
    (fun _ _ _ hbodies hm => hm.visit hbodies) h

/-- A pass that sets a flag leaves more of them set. -/
theorem count_markPass (hsize : flags.size = rules.length) :
    flags.count true + (markPass rules flags).updated.toNat ≤
      (markPass rules flags).flags.count true ∧
    (markPass rules flags).flags.size = rules.length := by
  refine Marking.markPass_induction (motive := fun marking =>
    flags.count true + marking.updated.toNat ≤ marking.flags.count true ∧
      marking.flags.size = rules.length) ?_ ⟨Nat.le_refl _, hsize⟩
  rintro marking id bodies hbodies ⟨hcount, hsize⟩
  rcases marking.visit_cases id bodies with ⟨hsame, -⟩ | ⟨hset, hid, -⟩
  · rw [hsame]
    exact ⟨hcount, hsize⟩
  · have hlt : id < marking.flags.size := by
      rw [hsize]
      exact lt_length_of_getElem? hbodies
    rw [hset, Marking.count_set hlt hid, Array.size_setIfInBounds]
    exact ⟨Nat.add_le_add_right (Nat.le_trans (Nat.le_add_right _ _) hcount) 1, hsize⟩

/-- A pass that sets no flag leaves the flags as they are, with no reason to set
another. -/
theorem closed_of_not_updated (h : (markPass rules flags).updated = false) :
    (markPass rules flags).flags = flags ∧ ∀ id, ∀ body ∈ rules.getD id [],
      bodyVanishes (fun id => flags.getD id false) body = true → flags.getD id false = true := by
  obtain ⟨hsame, hreasons⟩ := Marking.visitFrom_of_not_updated h
  refine ⟨by rw [markPass, hsame], ?_⟩
  intro id body hb hv
  cases hbodies : rules[id]? with
  | none =>
    rw [List.getD_eq_getElem?_getD, hbodies] at hb
    cases hb
  | some bodies =>
    rw [getD_of_getElem? hbodies] at hb
    rcases hreasons id bodies hbodies with hid | hnone
    · rw [Nat.zero_add] at hid
      exact hid
    · exact absurd hv (List.any_eq_false.mp hnone body hb)

/-! ## All passes -/

/-- Passes over the rules, without a bound, up to one that sets no flag. In each there
is a flag for every nonterminal, so that the look-ups of declared nonterminals find
one. -/
inductive Settles (rules : List (List Form)) : Array Bool → Nat → Array Bool → Prop where
  | last {flags : Array Bool} (size_eq : flags.size = rules.length)
      (idle : (markPass rules flags).updated = false) :
      Settles rules flags 0 (markPass rules flags).flags
  | onward {flags final : Array Bool} {passes : Nat} (size_eq : flags.size = rules.length)
      (busy : (markPass rules flags).updated = true)
      (rest : Settles rules (markPass rules flags).flags passes final) :
      Settles rules flags (passes + 1) final

/-- Enough passes are as good as any number of them. -/
theorem saturateFlags_settles :
    ∀ (passes : Nat) {flags : Array Bool}, flags.size = rules.length →
      rules.length < passes + flags.count true →
        ∃ made, made + flags.count true ≤ rules.length ∧
          Settles rules flags made (saturateFlags rules passes flags)
  | 0, flags, hsize, hcount => by
    -- no more flags are set than there are
    have hle : flags.count true ≤ flags.size := Array.count_le_size
    omega
  | passes + 1, flags, hsize, hcount => by
    obtain ⟨hmore, hsize'⟩ := count_markPass hsize
    have hle : flags.count true ≤ flags.size := Array.count_le_size
    rw [saturateFlags]
    cases hupdated : (markPass rules flags).updated with
    | false => exact ⟨0, by omega, .last hsize hupdated⟩
    | true =>
      rw [hupdated, Bool.toNat_true] at hmore
      obtain ⟨made, hmade, hrest⟩ := saturateFlags_settles passes hsize' (by omega)
      exact ⟨made + 1, by omega, .onward hsize hupdated hrest⟩

theorem size_initialFlags (rules : List (List Form)) :
    (initialFlags rules).size = rules.length := by
  simp [initialFlags]

/-- **The passes end by themselves**, after no more of them than there are
nonterminals, not counting the last one. -/
theorem nullableFlags_settles (rules : List (List Form)) :
    ∃ made ≤ rules.length, Settles rules (initialFlags rules) made (nullableFlags rules) := by
  obtain ⟨made, hmade, hsettles⟩ :=
    saturateFlags_settles (rules.length + 1) (size_initialFlags rules) (by omega)
  exact ⟨made, by omega, hsettles⟩

/-- The flags at the beginning are those of the empty bodies. -/
theorem getD_initialFlags {id : Nat} :
    (initialFlags rules).getD id false = true ↔ [] ∈ rules.getD id [] := by
  unfold initialFlags
  rw [Array.getD_eq_getD_getElem?, List.getElem?_toArray, List.getElem?_map,
    List.getD_eq_getElem?_getD]
  cases rules[id]? with
  | none => simp
  | some bodies => simp

theorem sound_initialFlags (rules : List (List Form)) :
    Sound rules (initialFlags rules) :=
  ⟨size_initialFlags rules, fun _ hid => ⟨[], getD_initialFlags.mp hid, rfl⟩⟩

theorem Settles.sound {final : Array Bool} {made : Nat} (h : Settles rules flags made final)
    (hsound : Sound rules flags) : Sound rules final := by
  induction h with
  | last => exact hsound.markPass
  | onward _ _ _ ih => exact ih hsound.markPass

theorem Settles.closed {final : Array Bool} {made : Nat} (h : Settles rules flags made final) :
    ∀ id, ∀ body ∈ rules.getD id [],
      bodyVanishes (fun id => final.getD id false) body = true → final.getD id false = true := by
  induction h with
  | last _ idle =>
    obtain ⟨hsame, hclosed⟩ := closed_of_not_updated idle
    rw [hsame]
    exact hclosed
  | onward _ _ _ ih => exact ih

section Least

variable {vanishes : Nat → Prop}

/-- A visit sets no flag that a property closed under the equation does not have. -/
theorem Marking.visit_of_closed {id : Nat} {bodies : List Form}
    (hclosed : ∀ body ∈ bodies,
      (∀ symbol ∈ body, ∃ inner, symbol = .nonterminal inner ∧ vanishes inner) → vanishes id)
    (hid : id < marking.flags.size) (h : ∀ other, marking.has other = true → vanishes other) :
    ∀ other, (marking.visit id bodies).has other = true → vanishes other := by
  intro other hother
  rcases marking.visit_cases id bodies with ⟨hsame, -⟩ | ⟨hset, -, hany⟩
  · rw [hsame] at hother
    exact h other hother
  · rw [hset, Marking.has_set hid] at hother
    split at hother
    next heq =>
      obtain ⟨body, hb, hv⟩ := List.any_eq_true.mp hany
      rw [← heq]
      refine hclosed body hb ?_
      intro symbol hs
      obtain ⟨inner, hinner, hflag⟩ := bodyVanishes_iff.mp hv symbol hs
      exact ⟨inner, hinner, h inner hflag⟩
    next => exact h other hother

theorem markPass_of_closed
    (hclosed : ∀ id, ∀ body ∈ rules.getD id [],
      (∀ symbol ∈ body, ∃ inner, symbol = .nonterminal inner ∧ vanishes inner) → vanishes id)
    (hsize : flags.size = rules.length) (h : ∀ id, flags.getD id false = true → vanishes id) :
    ∀ id, (markPass rules flags).flags.getD id false = true → vanishes id := by
  refine (Marking.markPass_induction (motive := fun marking =>
    marking.flags.size = rules.length ∧ ∀ id, marking.has id = true → vanishes id) ?_
      ⟨hsize, h⟩).2
  rintro marking id bodies hbodies ⟨hsize, hm⟩
  have hid : id < marking.flags.size := by
    rw [hsize]
    exact lt_length_of_getElem? hbodies
  rw [← getD_of_getElem? hbodies]
  exact ⟨by rw [Marking.size_visit, hsize], Marking.visit_of_closed (hclosed id) hid hm⟩

/-- What is closed under the equation, and holds of the nonterminals flagged at the
beginning, holds of those flagged in the end. -/
theorem Settles.of_closed {final : Array Bool} {made : Nat}
    (hclosed : ∀ id, ∀ body ∈ rules.getD id [],
      (∀ symbol ∈ body, ∃ inner, symbol = .nonterminal inner ∧ vanishes inner) → vanishes id)
    (h : Settles rules flags made final) (hflags : ∀ id, flags.getD id false = true → vanishes id) :
    ∀ id, final.getD id false = true → vanishes id := by
  induction h with
  | last size_eq => exact markPass_of_closed hclosed size_eq hflags
  | onward size_eq _ _ ih => exact ih (markPass_of_closed hclosed size_eq hflags)

end Least

namespace Grammar

variable {g : Grammar}

/-- A body vanishes under the flags of the grammar exactly if all its symbols are
nullable. -/
theorem bodyVanishes_nullableFlags (g : Grammar) (body : Form) :
    bodyVanishes (fun id => (nullableFlags g.rules).getD id false) body = body.all g.isNullable := by
  unfold bodyVanishes
  congr 1
  funext symbol
  cases symbol with
  | terminal => rfl
  | nonterminal id => exact (g.isNullable_nonterminal id).symm

/-- The equation of nullability, read off the grammar. -/
theorem isNullable_nonterminal_iff (g : Grammar) (id : Nat) :
    g.isNullable (.nonterminal id) = true ↔ ∃ body ∈ g.bodies id, body.all g.isNullable = true := by
  obtain ⟨made, -, hsettles⟩ := nullableFlags_settles g.rules
  rw [g.isNullable_nonterminal]
  simp only [← bodyVanishes_nullableFlags]
  constructor
  · intro hid
    exact (hsettles.sound (sound_initialFlags g.rules)).reason id hid
  · rintro ⟨body, hb, hv⟩
    exact hsettles.closed id body hb hv

/-- A nonterminal is nullable only if some body makes it so without a cycle. -/
theorem isNullable_of_closed {vanishes : Nat → Prop}
    (hclosed : ∀ id, ∀ body ∈ g.bodies id,
      (∀ symbol ∈ body, ∃ inner, symbol = .nonterminal inner ∧ vanishes inner) → vanishes id)
    {id : Nat} (hid : g.isNullable (.nonterminal id) = true) : vanishes id := by
  obtain ⟨made, -, hsettles⟩ := nullableFlags_settles g.rules
  rw [g.isNullable_nonterminal] at hid
  refine hsettles.of_closed hclosed ?_ id hid
  intro first hfirst
  exact hclosed first [] (getD_initialFlags.mp hfirst) nofun

/-- There is a flag for each nonterminal. -/
theorem size_nullable (g : Grammar) : g.nullable.size = g.rules.length := by
  obtain ⟨made, -, hsettles⟩ := nullableFlags_settles g.rules
  rw [g.nullable_eq]
  exact (hsettles.sound (sound_initialFlags g.rules)).size_eq

end Grammar

end AmbiguitySearch
