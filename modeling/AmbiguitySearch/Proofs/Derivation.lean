import AmbiguitySearch.Derivation
import Mathlib.Data.Set.Defs

/-!
# Leftmost derivations, step by step

`Grammar.Expands` cuts a form at its first nonterminal; the search finds that
place with `firstNonterminal?` and replaces it with `splice`. `expands_iff` says
that the two descriptions agree, and every later fact goes through it.

A leftmost derivation is fixed by the rules it applies
(`Derives.steps_eq_of_rules_eq`), so `derivationsOf` counts derivations as
sequences of rules. What stands before the first nonterminal stays where it is
(`Derives.prefix_settled`).
-/

namespace AmbiguitySearch

namespace Form

/-- A word holds terminals only. -/
def IsWord (form : Form) : Prop := ∀ symbol ∈ form, symbol.isTerminal = true

instance (form : Form) : Decidable form.IsWord :=
  inferInstanceAs (Decidable (∀ symbol ∈ form, symbol.isTerminal = true))

theorem isWord_nil : IsWord [] := by
  intro s hs
  cases hs

theorem isWord_cons {symbol : Symbol} {rest : Form} (hs : symbol.isTerminal = true)
    (hr : rest.IsWord) : IsWord (symbol :: rest) := by
  intro s h
  rcases List.mem_cons.mp h with rfl | h
  · exact hs
  · exact hr s h

/-- Terminals in front move the first nonterminal to the right. -/
theorem firstNonterminal?_append :
    ∀ {before : Form} (rest : Form), before.IsWord →
      firstNonterminal? (before ++ rest) =
        (firstNonterminal? rest).map fun found => (before.length + found.1, found.2)
  | [], rest, _ => by
    cases h : firstNonterminal? rest <;> simp [h]
  | .nonterminal id :: before, rest, hw => by
    exact absurd (hw _ (List.mem_cons_self ..)) (by simp [Symbol.isTerminal])
  | .terminal id :: before, rest, hw => by
    have hbefore : IsWord before := fun s hs => hw s (List.mem_cons_of_mem _ hs)
    have ih := firstNonterminal?_append rest hbefore
    rw [List.cons_append, firstNonterminal?, ih]
    cases firstNonterminal? rest with
    | none => rfl
    | some found => simp only [Option.map_some, List.length_cons]; congr 2; omega

theorem firstNonterminal?_eq_none_iff {form : Form} :
    form.firstNonterminal? = none ↔ form.IsWord := by
  constructor
  · intro h
    induction form with
    | nil => exact isWord_nil
    | cons symbol rest ih =>
      cases symbol with
      | nonterminal id => cases h
      | terminal id =>
        refine isWord_cons rfl (ih ?_)
        rw [firstNonterminal?] at h
        cases hr : firstNonterminal? rest with
        | none => rfl
        | some found => rw [hr] at h; cases h
  · intro hw
    have h := firstNonterminal?_append [] hw
    rwa [List.append_nil] at h

/-- The first nonterminal is where the form leaves off being a word. -/
theorem firstNonterminal?_eq_some_iff {form : Form} {position id : Nat} :
    form.firstNonterminal? = some (position, id) ↔
      ∃ before after : Form, before.IsWord ∧ before.length = position ∧
        form = before ++ .nonterminal id :: after := by
  constructor
  · intro h
    induction form generalizing position with
    | nil => cases h
    | cons symbol rest ih =>
      cases symbol with
      | nonterminal first =>
        cases h
        exact ⟨[], rest, isWord_nil, rfl, rfl⟩
      | terminal first =>
        rw [firstNonterminal?] at h
        cases hr : firstNonterminal? rest with
        | none => rw [hr] at h; cases h
        | some found =>
          rw [hr] at h
          cases h
          obtain ⟨before, after, hw, hlen, heq⟩ := ih hr
          exact ⟨.terminal first :: before, after, isWord_cons rfl hw,
            by rw [List.length_cons, hlen], by rw [heq, List.cons_append]⟩
  · rintro ⟨before, after, hw, rfl, rfl⟩
    rw [firstNonterminal?_append _ hw]
    rfl

/-- The first nonterminal is in its place. -/
theorem getElem?_of_firstNonterminal? {form : Form} {position id : Nat}
    (h : form.firstNonterminal? = some (position, id)) :
    form[position]? = some (.nonterminal id) := by
  obtain ⟨before, after, -, rfl, rfl⟩ := firstNonterminal?_eq_some_iff.mp h
  rw [List.getElem?_append_right (Nat.le_refl _), Nat.sub_self]
  rfl

/-- Replacing the symbol after `before`. -/
theorem splice_append_cons (before after body : Form) (symbol : Symbol) :
    (before ++ symbol :: after).splice before.length 1 body = before ++ (body ++ after) := by
  have hdrop : (before ++ symbol :: after).drop (before.length + 1) = after := by
    rw [← List.drop_drop, List.drop_left, List.drop_one, List.tail_cons]
  rw [splice, List.take_left, hdrop]

/-- Putting a symbol back in the place of the body that replaced it. -/
theorem splice_splice_of_getElem? {form : Form} {position : Nat} {symbol : Symbol}
    (h : form[position]? = some symbol) (body : Form) :
    (form.splice position 1 body).splice position body.length [symbol] = form := by
  obtain ⟨hlt, rfl⟩ := List.getElem?_eq_some_iff.mp h
  have htaken : (form.drop position).take 1 = [form[position]] := by
    rw [List.drop_eq_getElem_cons hlt, List.take_succ_cons, List.take_zero]
  rw [← htaken]
  exact splice_splice (Nat.le_of_lt hlt) body

end Form

/-- The rule that a step applies. -/
def Step.rule (step : Step) : Nat × Form := (step.nonterminal, step.body)

/-- The form before the step of that number. Behind the last step this is the result. -/
def Trace.before (trace : Trace) (taken : Nat) : Form :=
  Trace.result ⟨trace.start, trace.steps.take taken⟩

/-- A trace ends where it ends once its first step is taken. -/
theorem Trace.result_cons (form : Form) (first : Step) (rest : List Step) :
    Trace.result ⟨form, first :: rest⟩ = Trace.result ⟨first.form, rest⟩ := by
  simp only [Trace.result, List.getLast?_cons]
  cases rest.getLast? with
  | none => rfl
  | some last => rfl

namespace Grammar

variable {g : Grammar}

/-- A leftmost step in the words of the search. -/
theorem expands_iff {form : Form} {step : Step} :
    g.Expands form step ↔ ∃ position,
      form.firstNonterminal? = some (position, step.nonterminal) ∧
        step.body ∈ g.bodies step.nonterminal ∧ step.form = form.splice position 1 step.body := by
  constructor
  · rintro ⟨hw, hb⟩
    rename_i before after body nonterminal
    exact ⟨before.length, Form.firstNonterminal?_eq_some_iff.mpr ⟨before, after, hw, rfl, rfl⟩, hb,
      (Form.splice_append_cons before after body _).symm⟩
  · rintro ⟨position, hfirst, hb, hform⟩
    obtain ⟨before, after, hw, rfl, rfl⟩ := Form.firstNonterminal?_eq_some_iff.mp hfirst
    rw [Form.splice_append_cons] at hform
    obtain ⟨nonterminal, body, form⟩ := step
    simp only at hform hb
    subst hform
    exact .leftmost hw hb

/-- A word is final. -/
theorem not_expands_of_isWord {form : Form} {step : Step} (hw : form.IsWord) :
    ¬ g.Expands form step := by
  intro h
  obtain ⟨position, hfirst, -⟩ := expands_iff.mp h
  rw [Form.firstNonterminal?_eq_none_iff.mpr hw] at hfirst
  cases hfirst

theorem Derives.of_isWord {form target : Form} {steps : List Step} (hw : form.IsWord)
    (h : g.Derives form steps target) : steps = [] ∧ form = target := by
  cases h with
  | refl => exact ⟨rfl, rfl⟩
  | step hexp _ => exact absurd hexp (not_expands_of_isWord hw)

/-- From one form, equal rules are equal steps. -/
theorem Expands.eq_of_rule_eq {form : Form} {step step' : Step} (h : g.Expands form step)
    (h' : g.Expands form step') (hrule : step.rule = step'.rule) : step = step' := by
  obtain ⟨position, hfirst, -, hform⟩ := expands_iff.mp h
  obtain ⟨position', hfirst', -, hform'⟩ := expands_iff.mp h'
  obtain ⟨hnt, hbody⟩ := Prod.mk.injEq .. ▸ hrule
  have hpos : position = position' := by
    rw [hfirst] at hfirst'
    exact (Prod.mk.inj (Option.some.inj hfirst')).1
  obtain ⟨nonterminal, body, form₁⟩ := step
  obtain ⟨nonterminal', body', form₂⟩ := step'
  simp only at hnt hbody hform hform'
  subst hnt hbody hpos
  rw [hform, hform']

theorem Derives.trans {form middle target : Form} {steps steps' : List Step}
    (h : g.Derives form steps middle) (h' : g.Derives middle steps' target) :
    g.Derives form (steps ++ steps') target := by
  induction h with
  | refl => exact h'
  | step hexp _ ih => exact .step hexp (ih h')

/-- A leftmost derivation is told by its rules alone. -/
theorem Derives.steps_eq_of_rules_eq {form target target' : Form} {steps steps' : List Step}
    (h : g.Derives form steps target) (h' : g.Derives form steps' target')
    (hrules : steps.map Step.rule = steps'.map Step.rule) : steps = steps' := by
  induction h generalizing steps' with
  | refl form => exact (List.map_eq_nil_iff.mp hrules.symm).symm
  | step hexp _ ih =>
    cases h' with
    | refl => cases hrules
    | step hexp' hder' =>
      rw [List.map_cons, List.map_cons] at hrules
      obtain ⟨hhead, htail⟩ := List.cons.inj hrules
      obtain rfl := hexp.eq_of_rule_eq hexp' hhead
      rw [ih hder' htail]

/-- Terminals in front of a form are in front of every form derived from it. -/
theorem Derives.prefix_settled {before rest target : Form} {steps : List Step}
    (hw : before.IsWord) (h : g.Derives (before ++ rest) steps target) : before <+: target := by
  generalize hform : before ++ rest = form at h
  induction h generalizing rest with
  | refl form => exact ⟨rest, hform⟩
  | @step _ _ first _ hexp _ ih =>
    subst hform
    obtain ⟨position, hfirst, -, hform⟩ := expands_iff.mp hexp
    rw [Form.firstNonterminal?_append _ hw] at hfirst
    obtain ⟨found, -, hfound⟩ := Option.map_eq_some_iff.mp hfirst
    obtain ⟨rfl, -⟩ := Prod.mk.inj hfound
    -- the step is made behind `before`, which the splice leaves alone
    have hnext : before ++ rest.splice found.1 1 first.body = first.form := by
      rw [hform, Form.splice, Form.splice, List.take_length_add_append, Nat.add_assoc,
        List.drop_length_add_append, List.append_assoc]
    exact ih hnext

/-- The recorded result of a derivation is the form it derives. -/
theorem Derives.result_eq {form target : Form} {steps : List Step}
    (h : g.Derives form steps target) : Trace.result ⟨form, steps⟩ = target := by
  induction h with
  | refl => rfl
  | step _ _ ih => rw [Trace.result_cons, ih]

/-- The leftmost derivations of a form from the start symbol, each told by the
rules it applies in order. -/
def derivationsOf (g : Grammar) (word : Form) : Set (List (Nat × Form)) :=
  {rules | ∃ steps, g.Derives [g.startSymbol] steps word ∧ steps.map Step.rule = rules}

end Grammar

end AmbiguitySearch
