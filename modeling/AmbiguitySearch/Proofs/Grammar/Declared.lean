import AmbiguitySearch.Proofs.Derivation
import AmbiguitySearch.Proofs.Grammar.Loaded

/-!
# Derivations stay within the tables

A grammar built from definitions uses no symbol that its tables do not have, since
every symbol of a body has a name there. So a leftmost derivation that starts from
declared symbols has declared symbols only, however long it is.

> `Loaded.declares_of_mem_bodies`: every symbol of every body is declared.

> `Loaded.declares_of_derives`: every symbol of every form derived is declared.
-/

namespace AmbiguitySearch

namespace Grammar

variable {g : Grammar}

/-- The symbol is in one of the tables. -/
def Declares (g : Grammar) : Symbol → Prop
  | .terminal id => id < g.terminals.length
  | .nonterminal id => id < g.nonterminals.length

instance (g : Grammar) : DecidablePred g.Declares
  | .terminal id => inferInstanceAs (Decidable (id < g.terminals.length))
  | .nonterminal id => inferInstanceAs (Decidable (id < g.nonterminals.length))

/-- A symbol is declared if it has a name. -/
theorem declares_of_nameIn {symbol : Symbol} {name : String}
    (h : nameIn g.nonterminals g.terminals symbol = some name) : g.Declares symbol := by
  cases symbol with
  | terminal id => exact (List.getElem?_eq_some_iff.mp h).1
  | nonterminal id => exact (List.getElem?_eq_some_iff.mp h).1

theorem declares_of_spelled {form : Form} {names : List String}
    (h : Spelled g.nonterminals g.terminals form names) : ∀ symbol ∈ form, g.Declares symbol := by
  induction h with
  | nil => exact nofun
  | cons hname _ ih => exact List.forall_mem_cons.mpr ⟨declares_of_nameIn hname, ih⟩

/-- Only a declared nonterminal has bodies. -/
theorem exists_rules_of_mem_bodies {nonterminal : Nat} {body : Form}
    (h : body ∈ g.bodies nonterminal) :
    ∃ bodies, g.rules[nonterminal]? = some bodies ∧ body ∈ bodies := by
  unfold bodies at h
  rw [List.getD_eq_getElem?_getD] at h
  cases hget : g.rules[nonterminal]? with
  | none =>
    rw [hget] at h
    cases h
  | some bodies =>
    rw [hget] at h
    exact ⟨bodies, rfl, h⟩

namespace Loaded

theorem declares_of_mem_rules (h : g.Loaded) : ∀ bodies ∈ g.rules, ∀ body ∈ bodies,
    ∀ symbol ∈ body, g.Declares symbol := by
  induction h with
  | ofDefinitions definitions =>
    intro bodies hbodies body hb
    obtain ⟨name, spelled, hspelled, -⟩ := exists_of_mem_rules_ofDefinitions hbodies
    obtain ⟨names, -, hnames⟩ := Spelled.exists_of_mem hspelled hb
    exact declares_of_spelled hnames
  | withStart _ found ih =>
    obtain ⟨hterminals, hnonterminals, hrules, -⟩ := withStart?_eq_some found
    intro bodies hbodies body hb symbol hs
    rw [hrules] at hbodies
    have hdeclared := ih bodies hbodies body hb symbol hs
    cases symbol with
    | terminal id =>
      unfold Declares
      rw [hterminals]
      exact hdeclared
    | nonterminal id =>
      unfold Declares
      rw [hnonterminals]
      exact hdeclared

/-- **Every symbol of every body is declared.** -/
theorem declares_of_mem_bodies (h : g.Loaded) {nonterminal : Nat} {body : Form}
    (hb : body ∈ g.bodies nonterminal) : ∀ symbol ∈ body, g.Declares symbol := by
  obtain ⟨bodies, hbodies, hmem⟩ := exists_rules_of_mem_bodies hb
  exact h.declares_of_mem_rules bodies (List.mem_of_getElem? hbodies) body hmem

theorem lt_of_mem_bodies (h : g.Loaded) {nonterminal : Nat} {body : Form}
    (hb : body ∈ g.bodies nonterminal) : nonterminal < g.nonterminals.length := by
  obtain ⟨bodies, hbodies, -⟩ := exists_rules_of_mem_bodies hb
  obtain ⟨hlt, -⟩ := List.getElem?_eq_some_iff.mp hbodies
  rw [← h.length_rules]
  exact hlt

/-- A leftmost step brings in declared symbols only. -/
theorem declares_of_expands (h : g.Loaded) {form : Form} {step : Step}
    (hexp : g.Expands form step) (hform : ∀ symbol ∈ form, g.Declares symbol) :
    ∀ symbol ∈ step.form, g.Declares symbol := by
  obtain @⟨before, after, body, nonterminal, -, hb⟩ := hexp
  intro symbol hs
  rcases List.mem_append.mp hs with hbefore | hrest
  · exact hform symbol (List.mem_append_left _ hbefore)
  · rcases List.mem_append.mp hrest with hbody | hafter
    · exact h.declares_of_mem_bodies hb symbol hbody
    · exact hform symbol (List.mem_append_right _ (List.mem_cons_of_mem _ hafter))

/-- **Every symbol of every form derived is declared.** -/
theorem declares_of_derives (h : g.Loaded) {form target : Form} {steps : List Step}
    (hder : g.Derives form steps target) (hform : ∀ symbol ∈ form, g.Declares symbol) :
    ∀ symbol ∈ target, g.Declares symbol := by
  induction hder with
  | refl => exact hform
  | step hexp _ ih => exact ih (h.declares_of_expands hexp hform)

/-- The start is declared if anything is. -/
theorem declares_startSymbol (h : g.Loaded) (hne : g.nonterminals ≠ []) :
    g.Declares g.startSymbol := by
  show g.start < g.nonterminals.length
  rw [← h.length_rules]
  exact h.start_lt hne

end Loaded

end Grammar

end AmbiguitySearch
