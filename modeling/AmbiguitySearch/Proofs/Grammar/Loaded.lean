import AmbiguitySearch.Proofs.Grammar.Table

/-!
# The grammars there are

A grammar is built from definitions, and its start may be moved afterwards, any
number of times. `Loaded` is the family of grammars that come about this way.
Two facts about them matter to a search: no nonterminal lists a body twice
(`Loaded.nodup_bodies`), and the start is declared if anything is
(`Loaded.start_lt`).
-/

namespace AmbiguitySearch

namespace Grammar

/-- Built from definitions, with the start moved any number of times. A move to
a name that nobody defined is none. -/
inductive Loaded : Grammar → Prop where
  | ofDefinitions (definitions : List Definition) : Loaded (ofDefinitions definitions)
  | withStart {g moved : Grammar} {name : String} (loaded : Loaded g)
      (found : g.withStart? name = some moved) : Loaded moved

theorem nodup_bodies_of_rules {g : Grammar} (h : ∀ bodies ∈ g.rules, bodies.Nodup)
    (nonterminal : Nat) : (g.bodies nonterminal).Nodup := by
  unfold bodies
  rw [List.getD_eq_getElem?_getD]
  cases hget : g.rules[nonterminal]? with
  | none => exact List.nodup_nil
  | some bodies => exact h bodies (List.mem_of_getElem? hget)

/-- Moving the start leaves the tables and the rules alone, and the new start is
declared. -/
theorem withStart?_eq_some {g moved : Grammar} {name : String}
    (h : g.withStart? name = some moved) :
    moved.terminals = g.terminals ∧ moved.nonterminals = g.nonterminals ∧
      moved.rules = g.rules ∧ moved.start < g.nonterminals.length := by
  obtain ⟨id, hid, rfl⟩ := Option.map_eq_some_iff.mp h
  obtain ⟨hlt, -⟩ := List.idxOf?_eq_some_iff.mp hid
  exact ⟨rfl, rfl, rfl, hlt⟩

namespace Loaded

variable {g : Grammar}

theorem length_rules (h : g.Loaded) : g.rules.length = g.nonterminals.length := by
  induction h with
  | ofDefinitions definitions => exact (ofDefinitions_records definitions).length_rules
  | withStart _ found ih =>
    obtain ⟨-, hnt, hrules, -⟩ := withStart?_eq_some found
    rw [hrules, hnt, ih]

/-- No name stands for two symbols. -/
theorem unambiguous (h : g.Loaded) : Unambiguous g.nonterminals g.terminals := by
  induction h with
  | ofDefinitions definitions => exact ofDefinitions_unambiguous definitions
  | withStart _ found ih =>
    obtain ⟨hterminals, hnonterminals, -⟩ := withStart?_eq_some found
    rw [hterminals, hnonterminals]
    exact ih

/-- Bodies form a set: of equal ones the first stays. -/
theorem nodup_bodies (h : g.Loaded) (nonterminal : Nat) : (g.bodies nonterminal).Nodup := by
  refine nodup_bodies_of_rules ?_ nonterminal
  induction h with
  | ofDefinitions definitions =>
    intro bodies hbodies
    obtain ⟨name, spelled, hspelled, hfirsts⟩ := exists_of_mem_rules_ofDefinitions hbodies
    exact Spelled.nodup (ofDefinitions_unambiguous definitions) hspelled hfirsts.nodup
  | withStart _ found ih =>
    rw [(withStart?_eq_some found).2.2.1]
    exact ih

/-- The start is declared as soon as there is a nonterminal. -/
theorem start_lt (h : g.Loaded) (hne : g.nonterminals ≠ []) : g.start < g.rules.length := by
  rw [h.length_rules]
  cases h with
  | ofDefinitions definitions => exact List.length_pos_iff.mpr hne
  | withStart _ found =>
    obtain ⟨-, hnt, -, hlt⟩ := withStart?_eq_some found
    rw [hnt]
    exact hlt

end Loaded

end Grammar

end AmbiguitySearch
