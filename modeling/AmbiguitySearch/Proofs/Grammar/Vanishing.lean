import AmbiguitySearch.Proofs.Derivation
import AmbiguitySearch.Proofs.Grammar.Loaded
import AmbiguitySearch.Proofs.Grammar.Nullable
import Mathlib.Logic.Relation

/-!
# What is nullable is what vanishes

The nullable flags are computed from the rules without deriving anything. They say what
can be derived all the same, with the rules applied anywhere in a form (`Rewrites`) and in
any number:

> `nullability_exact`: a nonterminal has its flag exactly if it derives the empty form, and
> the computation of the flags comes to an end.

From a flag to a derivation the way is induction over the nullable nonterminals, where the
symbols of a body vanish one after the other (`derives_nil_of_forall`). It yields a leftmost
derivation. Back from a derivation, of whatever kind, the nullable symbols of a form make
the form before it nullable too (`all_isNullable_of_rewrites`).
-/

namespace AmbiguitySearch.Grammar

variable {g : Grammar}

/-- One application of a rule, to any nonterminal of the form. -/
inductive Rewrites (g : Grammar) : Form → Form → Prop where
  | anywhere {before after body : Form} {nonterminal : Nat}
      (declared : body ∈ g.bodies nonterminal) :
      Rewrites g (before ++ .nonterminal nonterminal :: after) (before ++ (body ++ after))

theorem Expands.rewrites {form : Form} {step : Step} (h : g.Expands form step) :
    g.Rewrites form step.form := by
  obtain ⟨-, hb⟩ := h
  exact .anywhere hb

/-- A leftmost derivation applies rules. -/
theorem Derives.rewrites {form target : Form} {steps : List Step}
    (h : g.Derives form steps target) : Relation.ReflTransGen g.Rewrites form target := by
  induction h with
  | refl => exact .refl
  | step hexp _ ih => exact .head hexp.rewrites ih

/-! ## From a flag to a derivation -/

/-- A leftmost derivation takes no notice of what stands behind the form. -/
theorem Derives.exists_append {form target : Form} {steps : List Step}
    (h : g.Derives form steps target) (behind : Form) :
    ∃ steps', g.Derives (form ++ behind) steps' (target ++ behind) := by
  induction h with
  | refl form => exact ⟨[], .refl _⟩
  | step hexp _ ih =>
    obtain ⟨steps', hder⟩ := ih
    obtain @⟨before, after, body, nonterminal, hsettled, hb⟩ := hexp
    refine ⟨⟨nonterminal, body, before ++ (body ++ (after ++ behind))⟩ :: steps', ?_⟩
    rw [List.append_assoc, List.cons_append]
    refine .step (.leftmost hsettled hb) ?_
    show g.Derives (before ++ (body ++ (after ++ behind))) _ _
    rw [← List.append_assoc body, ← List.append_assoc before]
    exact hder

/-- The nonterminal derives the empty form. -/
def Vanishes (g : Grammar) (nonterminal : Nat) : Prop :=
  ∃ steps, g.Derives [.nonterminal nonterminal] steps []

/-- Symbols that vanish one by one vanish together. -/
theorem derives_nil_of_forall : ∀ {form : Form},
    (∀ symbol ∈ form, ∃ id, symbol = .nonterminal id ∧ g.Vanishes id) →
      ∃ steps, g.Derives form steps []
  | [], _ => ⟨[], .refl []⟩
  | symbol :: form, h => by
    obtain ⟨⟨id, rfl, steps, hfirst⟩, hrest⟩ := List.forall_mem_cons.mp h
    obtain ⟨steps', hahead⟩ := hfirst.exists_append form
    obtain ⟨steps'', hbehind⟩ := derives_nil_of_forall hrest
    exact ⟨steps' ++ steps'', Derives.trans hahead hbehind⟩

theorem vanishes_of_isNullable {nonterminal : Nat}
    (h : g.isNullable (.nonterminal nonterminal) = true) : g.Vanishes nonterminal := by
  refine isNullable_of_closed ?_ h
  intro id body hb hall
  obtain ⟨steps, hder⟩ := derives_nil_of_forall hall
  refine ⟨⟨id, body, body⟩ :: steps, .step ?_ hder⟩
  have hexp : g.Expands ([] ++ .nonterminal id :: []) ⟨id, body, [] ++ (body ++ [])⟩ :=
    .leftmost Form.isWord_nil hb
  rw [List.append_nil] at hexp
  exact hexp

/-! ## From a derivation to a flag -/

/-- Where all symbols are nullable, they were before. -/
theorem all_isNullable_of_rewrites {form form' : Form} (h : g.Rewrites form form')
    (hall : form'.all g.isNullable = true) : form.all g.isNullable = true := by
  obtain @⟨before, after, body, nonterminal, hb⟩ := h
  rw [List.all_append, List.all_append, Bool.and_eq_true, Bool.and_eq_true] at hall
  obtain ⟨hbefore, hbody, hafter⟩ := hall
  have hnullable : g.isNullable (.nonterminal nonterminal) = true :=
    (g.isNullable_nonterminal_iff nonterminal).mpr ⟨body, hb, hbody⟩
  rw [List.all_append, List.all_cons, hbefore, hnullable, hafter]
  rfl

theorem all_isNullable_of_reflTransGen {form : Form}
    (h : Relation.ReflTransGen g.Rewrites form []) : form.all g.isNullable = true := by
  induction h using Relation.ReflTransGen.head_induction_on with
  | refl => rfl
  | head hstep _ ih => exact all_isNullable_of_rewrites hstep ih

theorem isNullable_iff_rewrites {nonterminal : Nat} :
    g.isNullable (.nonterminal nonterminal) = true ↔
      Relation.ReflTransGen g.Rewrites [.nonterminal nonterminal] [] := by
  constructor
  · intro h
    obtain ⟨steps, hder⟩ := vanishes_of_isNullable h
    exact hder.rewrites
  · intro h
    have hall := all_isNullable_of_reflTransGen h
    rw [List.all_cons, Bool.and_eq_true] at hall
    exact hall.1

/-! ## The statement -/

/-- Asking for a declared nonterminal is answered with its flag. -/
theorem Loaded.nullability_eq (hg : g.Loaded) {nonterminal : Nat}
    (h : nonterminal < g.nonterminals.length) :
    g.nullability (.nonterminal nonterminal) = .ok (g.isNullable (.nonterminal nonterminal)) := by
  rw [← hg.length_rules] at h
  have hdeclared : g.declaredBodies nonterminal = .ok g.rules[nonterminal] :=
    entry_eq_ok_iff.mpr (List.getElem?_eq_getElem h)
  rw [nullability, hdeclared]
  rfl

/-- **Nullability is exact.** A declared nonterminal is said to be nullable exactly if the
empty form can be derived from it, by any rules in any order and just as well by leftmost
steps. And over any rules the passes that set the flags come to an end, with a look-up in
range answered each time. -/
theorem nullability_exact (hg : g.Loaded) :
    (∀ nonterminal < g.nonterminals.length, ∃ flag,
      g.nullability (.nonterminal nonterminal) = .ok flag ∧
        (flag = true ↔ Relation.ReflTransGen g.Rewrites [.nonterminal nonterminal] []) ∧
          (flag = true ↔ ∃ steps, g.Derives [.nonterminal nonterminal] steps [])) ∧
    ∀ rules : List (List Form), ∃ made ≤ rules.length,
      Settles rules (initialFlags rules) made (nullableFlags rules) := by
  refine ⟨?_, nullableFlags_settles⟩
  intro nonterminal hdeclared
  refine ⟨_, hg.nullability_eq hdeclared, isNullable_iff_rewrites, vanishes_of_isNullable, ?_⟩
  rintro ⟨steps, hder⟩
  exact isNullable_iff_rewrites.mpr hder.rewrites

/-- The grammar `S -> A B`, `A -> B | epsilon`, `B -> A`, `C -> C`, with a nonterminal
`D` that has no bodies. -/
def mutualUnits : Grammar :=
  .ofDefinitions [⟨"S", [["A", "B"]]⟩, ⟨"A", [["B"], ["epsilon"]]⟩, ⟨"B", [["A"]]⟩,
    ⟨"C", [["C"]]⟩, ⟨"D", []⟩]

/-- `S` vanishes, as `A` and `B` do, while `C` has only itself to go by. -/
theorem nullability_exact_mutualUnits :
    Relation.ReflTransGen mutualUnits.Rewrites [.nonterminal 0] [] ∧
      ¬ Relation.ReflTransGen mutualUnits.Rewrites [.nonterminal 3] [] := by
  have hg : mutualUnits.Loaded := .ofDefinitions _
  have hexact := (nullability_exact hg).1
  obtain ⟨flag, hflag, hiff, -⟩ := hexact 0 (by decide)
  obtain ⟨flag', hflag', hiff', -⟩ := hexact 3 (by decide)
  have htrue : mutualUnits.nullability (.nonterminal 0) = .ok true := by rfl
  have hfalse : mutualUnits.nullability (.nonterminal 3) = .ok false := by rfl
  rw [htrue] at hflag
  rw [hfalse] at hflag'
  cases hflag
  cases hflag'
  exact ⟨hiff.mp rfl, fun h => nomatch hiff'.mpr h⟩

end AmbiguitySearch.Grammar
