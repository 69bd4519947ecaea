import AmbiguitySearch.Proofs.Grammar.Definition
import Mathlib.Data.List.Shortlex

/-!
# Grammars as they are written

On paper a grammar has no tables. It has rules between names and a name to start from; a
name with rules is a nonterminal, and a derivation rewrites strings of names
(`NamedGrammar`). A grammar built from definitions is one of these with its names numbered
(`Grammar.Denotes`), so that each derivation of the one is a derivation of the other: the
forms on the way spell each other, and so do the rules.

> `Denotes.exists_derives_named`, `Denotes.exists_derives`: there and back.

Since no name stands for two symbols, different derivations stay different. What is said
about the number of derivations of a word can be said of its spelling
(`Denotes.subsingleton`, `Denotes.nontrivial`).
-/

namespace AmbiguitySearch

/-- Rules by name, each a left-hand side and a body, and the name to start from. -/
structure NamedGrammar where
  rules : List (String × List String)
  start : String

namespace NamedGrammar

def leftSides (n : NamedGrammar) : List String := n.rules.map Prod.fst

/-- The names without rules, in the order in which they first appear in bodies. -/
def terminals (n : NamedGrammar) : List String :=
  ((n.rules.flatMap Prod.snd).filter (· ∉ n.leftSides)).eraseDups

/-- A string of names without rules. -/
def Spells (n : NamedGrammar) (word : List String) : Prop := ∀ name ∈ word, name ∈ n.terminals

instance (n : NamedGrammar) (word : List String) : Decidable (n.Spells word) :=
  inferInstanceAs (Decidable (∀ name ∈ word, name ∈ n.terminals))

/-- The order of terminals. -/
def Precedes (n : NamedGrammar) (name name' : String) : Prop :=
  n.terminals.idxOf name < n.terminals.idxOf name'

/-- A leftmost derivation, told by the rules applied: each replaces the first name that
has rules. -/
inductive Derives (n : NamedGrammar) :
    List String → List (String × List String) → List String → Prop where
  | refl (names : List String) : Derives n names [] names
  | step {before after body target : List String} {name : String}
      {rest : List (String × List String)} (settled : ∀ other ∈ before, other ∉ n.leftSides)
      (listed : (name, body) ∈ n.rules) (derives : Derives n (before ++ (body ++ after)) rest target) :
      Derives n (before ++ name :: after) ((name, body) :: rest) target

/-- The leftmost derivations of a string from the start. -/
def derivationsOf (n : NamedGrammar) (word : List String) : Set (List (String × List String)) :=
  {rules | n.Derives [n.start] rules word}

/-- No string of terminals that comes before this one has two derivations. -/
def UnambiguousBefore (n : NamedGrammar) (word : List String) : Prop :=
  ∀ earlier, n.Spells earlier → List.Shortlex n.Precedes earlier word →
    (n.derivationsOf earlier).Subsingleton

/-- With neither a terminal nor an empty body there is nothing to derive. -/
def Wordless (n : NamedGrammar) : Prop := n.terminals = [] ∧ ∀ rule ∈ n.rules, rule.2 ≠ []

end NamedGrammar

namespace Grammar

/-- The names of a form. -/
abbrev SpelledBy (g : Grammar) : Form → List String → Prop := Spelled g.nonterminals g.terminals

/-- The names of a rule. -/
def RuleSpelledBy (g : Grammar) (rule : Nat × Form) (named : String × List String) : Prop :=
  g.nonterminals[rule.1]? = some named.1 ∧ g.SpelledBy rule.2 named.2

/-- The grammar is the one by name with its names numbered. -/
structure Denotes (g : Grammar) (n : NamedGrammar) : Prop where
  tables : Unambiguous g.nonterminals g.terminals
  leftSides : ∀ name, name ∈ g.nonterminals ↔ name ∈ n.leftSides
  terminals : g.terminals = n.terminals
  rules : ∀ (id : Nat) (name : String), g.nonterminals[id]? = some name →
    ∃ spelled, List.Forall₂ g.SpelledBy (g.bodies id) spelled ∧
      ∀ body, body ∈ spelled ↔ (name, body) ∈ n.rules
  start : g.nonterminals[g.start]? = some n.start

variable {g : Grammar} {n : NamedGrammar}

/-! ## Spelling forms piece by piece -/

theorem spelledBy_append {form form' : Form} {names names' : List String}
    (h : g.SpelledBy form names) (h' : g.SpelledBy form' names') :
    g.SpelledBy (form ++ form') (names ++ names') :=
  List.rel_append h h'

theorem exists_of_spelledBy_append : ∀ (form : Form) {form' : Form} {names : List String},
    g.SpelledBy (form ++ form') names → ∃ front back, names = front ++ back ∧
      g.SpelledBy form front ∧ g.SpelledBy form' back
  | [], _, names, h => ⟨[], names, rfl, .nil, h⟩
  | _ :: form, _, _, .cons hfirst hrest => by
    obtain ⟨front, back, rfl, hfront, hback⟩ := exists_of_spelledBy_append form hrest
    exact ⟨_ :: front, back, rfl, .cons hfirst hfront, hback⟩

theorem exists_of_spelledBy_names_append : ∀ (front : List String) {form : Form}
    {back : List String}, g.SpelledBy form (front ++ back) → ∃ form' form'', form = form' ++ form'' ∧
      g.SpelledBy form' front ∧ g.SpelledBy form'' back
  | [], form, _, h => ⟨[], form, rfl, .nil, h⟩
  | _ :: front, _, _, .cons hfirst hrest => by
    obtain ⟨form', form'', rfl, hfront, hback⟩ := exists_of_spelledBy_names_append front hrest
    exact ⟨_ :: form', form'', rfl, .cons hfirst hfront, hback⟩

namespace Denotes

/-- Terminals are spelled by names without rules, and nothing else is. -/
theorem isTerminal_iff (h : g.Denotes n) {symbol : Symbol} {name : String}
    (hname : nameIn g.nonterminals g.terminals symbol = some name) :
    symbol.isTerminal = true ↔ name ∉ n.leftSides := by
  rw [← h.leftSides]
  cases symbol with
  | terminal id =>
    refine iff_of_true rfl fun hdefined => ?_
    exact h.tables.disjoint hdefined (List.mem_of_getElem? hname)
  | nonterminal id =>
    refine iff_of_false nofun fun hundefined => ?_
    exact hundefined (List.mem_of_getElem? hname)

theorem isWord_iff (h : g.Denotes n) {form : Form} {names : List String}
    (hspelled : g.SpelledBy form names) :
    (∀ symbol ∈ form, symbol.isTerminal = true) ↔ ∀ name ∈ names, name ∉ n.leftSides := by
  induction hspelled with
  | nil => exact ⟨nofun, nofun⟩
  | cons hfirst _ ih =>
    rw [List.forall_mem_cons, List.forall_mem_cons, h.isTerminal_iff hfirst, ih]

/-! ## One step, there and back -/

/-- A rule of the tables is a rule by name. -/
theorem exists_rule_named (h : g.Denotes n) {id : Nat} {name : String} {body : Form}
    (hname : g.nonterminals[id]? = some name) (hbody : body ∈ g.bodies id) :
    ∃ names, (name, names) ∈ n.rules ∧ g.SpelledBy body names := by
  obtain ⟨spelled, hspelled, hrules⟩ := h.rules id name hname
  obtain ⟨names, hmem, hnames⟩ := Spelled.exists_of_mem hspelled hbody
  exact ⟨names, (hrules names).mp hmem, hnames⟩

/-- A rule by name is a rule of the tables. -/
theorem exists_rule (h : g.Denotes n) {id : Nat} {name : String} {names : List String}
    (hname : g.nonterminals[id]? = some name) (hrule : (name, names) ∈ n.rules) :
    ∃ body ∈ g.bodies id, g.SpelledBy body names := by
  obtain ⟨spelled, hspelled, hrules⟩ := h.rules id name hname
  obtain ⟨body, hmem, hbody⟩ := Spelled.exists_of_mem_names hspelled ((hrules names).mpr hrule)
  exact ⟨body, hmem, hbody⟩

/-- What a leftmost step does to the names. -/
theorem exists_step_named (h : g.Denotes n) {form : Form} {step : Step} {names : List String}
    (hexp : g.Expands form step) (hform : g.SpelledBy form names) :
    ∃ before after name body, names = before ++ name :: after ∧
      (∀ other ∈ before, other ∉ n.leftSides) ∧ (name, body) ∈ n.rules ∧
        g.RuleSpelledBy step.rule (name, body) ∧
          g.SpelledBy step.form (before ++ (body ++ after)) := by
  obtain @⟨front, back, body, id, hsettled, hbody⟩ := hexp
  obtain ⟨before, rest, rfl, hbefore, hrest⟩ := exists_of_spelledBy_append _ hform
  cases hrest with
  | @cons _ name _ after hname hafter =>
    obtain ⟨names, hrule, hnames⟩ := h.exists_rule_named hname hbody
    exact ⟨before, after, name, names, rfl, (h.isWord_iff hbefore).mp hsettled, hrule,
      ⟨hname, hnames⟩, spelledBy_append hbefore (spelledBy_append hnames hafter)⟩

/-- A step by name is a leftmost step. -/
theorem exists_step (h : g.Denotes n) {form : Form} {before after body : List String}
    {name : String} (hsettled : ∀ other ∈ before, other ∉ n.leftSides)
    (hrule : (name, body) ∈ n.rules) (hform : g.SpelledBy form (before ++ name :: after)) :
    ∃ step, g.Expands form step ∧ g.RuleSpelledBy step.rule (name, body) ∧
      g.SpelledBy step.form (before ++ (body ++ after)) := by
  obtain ⟨front, rest, rfl, hfront, hrest⟩ := exists_of_spelledBy_names_append _ hform
  cases hrest with
  | @cons symbol _ back _ hname hback =>
    have hleft : name ∈ n.leftSides := List.mem_map_of_mem hrule
    cases symbol with
    | terminal id => exact absurd hleft ((h.isTerminal_iff hname).mp rfl)
    | nonterminal id =>
      obtain ⟨form, hmem, hbody⟩ := h.exists_rule hname hrule
      exact ⟨⟨id, form, front ++ (form ++ back)⟩,
        .leftmost ((h.isWord_iff hfront).mpr hsettled) hmem, ⟨hname, hbody⟩,
        spelledBy_append hfront (spelledBy_append hbody hback)⟩

/-! ## Derivations, there and back -/

theorem exists_derives_named (h : g.Denotes n) {form target : Form} {steps : List Step}
    {names : List String} (hder : g.Derives form steps target) (hform : g.SpelledBy form names) :
    ∃ rules targetNames, n.Derives names rules targetNames ∧ g.SpelledBy target targetNames ∧
      List.Forall₂ g.RuleSpelledBy (steps.map Step.rule) rules := by
  induction hder generalizing names with
  | refl => exact ⟨[], names, .refl names, hform, .nil⟩
  | step hexp _ ih =>
    obtain ⟨before, after, name, body, rfl, hsettled, hlisted, hrule, hnext⟩ :=
      h.exists_step_named hexp hform
    obtain ⟨rules, targetNames, hder, htarget, hrules⟩ := ih hnext
    exact ⟨(name, body) :: rules, targetNames, .step hsettled hlisted hder, htarget,
      .cons hrule hrules⟩

theorem exists_derives (h : g.Denotes n) {form : Form} {names targetNames : List String}
    {rules : List (String × List String)} (hder : n.Derives names rules targetNames)
    (hform : g.SpelledBy form names) :
    ∃ steps target, g.Derives form steps target ∧ g.SpelledBy target targetNames ∧
      List.Forall₂ g.RuleSpelledBy (steps.map Step.rule) rules := by
  induction hder generalizing form with
  | refl => exact ⟨[], form, .refl form, hform, .nil⟩
  | step hsettled hlisted _ ih =>
    obtain ⟨first, hexp, hrule, hnext⟩ := h.exists_step hsettled hlisted hform
    obtain ⟨steps, target, hder, htarget, hrules⟩ := ih hnext
    exact ⟨first :: steps, target, .step hexp hder, htarget, .cons hrule hrules⟩

/-! ## How many derivations there are -/

theorem spelledBy_start (h : g.Denotes n) : g.SpelledBy [g.startSymbol] [n.start] :=
  .cons h.start .nil

theorem exists_derivation_named (h : g.Denotes n) {word : Form} {names : List String}
    (hword : g.SpelledBy word names) {rules : List (Nat × Form)}
    (hmem : rules ∈ g.derivationsOf word) :
    ∃ named ∈ n.derivationsOf names, List.Forall₂ g.RuleSpelledBy rules named := by
  obtain ⟨steps, hder, rfl⟩ := hmem
  obtain ⟨named, targetNames, hnamed, htarget, hrules⟩ :=
    h.exists_derives_named hder h.spelledBy_start
  rw [Spelled.names_eq htarget hword] at hnamed
  exact ⟨named, hnamed, hrules⟩

theorem exists_derivation (h : g.Denotes n) {word : Form} {names : List String}
    (hword : g.SpelledBy word names) {named : List (String × List String)}
    (hmem : named ∈ n.derivationsOf names) :
    ∃ rules ∈ g.derivationsOf word, List.Forall₂ g.RuleSpelledBy rules named := by
  obtain ⟨steps, target, hder, htarget, hrules⟩ := h.exists_derives hmem h.spelledBy_start
  rw [Spelled.form_eq h.tables htarget hword] at hder
  exact ⟨steps.map Step.rule, ⟨steps, hder, rfl⟩, hrules⟩

theorem named_eq {rules : List (Nat × Form)} {named named' : List (String × List String)}
    (hrules : List.Forall₂ g.RuleSpelledBy rules named)
    (hrules' : List.Forall₂ g.RuleSpelledBy rules named') : named = named' := by
  refine List.right_unique_forall₂' ?_ hrules hrules'
  rintro rule named named' ⟨hname, hbody⟩ ⟨hname', hbody'⟩
  exact Prod.ext (Option.some.inj (hname.symm.trans hname')) (Spelled.names_eq hbody hbody')

theorem rules_eq (h : g.Denotes n) {rules rules' : List (Nat × Form)}
    {named : List (String × List String)} (hrules : List.Forall₂ g.RuleSpelledBy rules named)
    (hrules' : List.Forall₂ g.RuleSpelledBy rules' named) : rules = rules' := by
  refine List.left_unique_forall₂' ?_ hrules hrules'
  rintro rule rule' named ⟨hname, hbody⟩ ⟨hname', hbody'⟩
  exact Prod.ext (eq_of_getElem?_eq h.tables.nonterminals_nodup hname hname')
    (Spelled.form_eq h.tables hbody hbody')

/-- A word with at most one derivation is spelled by a string with at most one. -/
theorem subsingleton (h : g.Denotes n) {word : Form} {names : List String}
    (hword : g.SpelledBy word names) (hone : (g.derivationsOf word).Subsingleton) :
    (n.derivationsOf names).Subsingleton := by
  intro named hmem named' hmem'
  obtain ⟨rules, hin, hrules⟩ := h.exists_derivation hword hmem
  obtain ⟨rules', hin', hrules'⟩ := h.exists_derivation hword hmem'
  obtain rfl := hone hin hin'
  exact named_eq hrules hrules'

/-- A word with two derivations is spelled by a string with two. -/
theorem nontrivial (h : g.Denotes n) {word : Form} {names : List String}
    (hword : g.SpelledBy word names) (hmany : (g.derivationsOf word).Nontrivial) :
    (n.derivationsOf names).Nontrivial := by
  obtain ⟨rules, hin, rules', hin', hne⟩ := hmany
  obtain ⟨named, hmem, hrules⟩ := h.exists_derivation_named hword hin
  obtain ⟨named', hmem', hrules'⟩ := h.exists_derivation_named hword hin'
  refine ⟨named, hmem, named', hmem', ?_⟩
  rintro rfl
  exact hne (h.rules_eq hrules hrules')

end Denotes

/-! ## Grammars built from definitions -/

/-- The rules that some definitions list: alternatives without `epsilon`. -/
def namedRules (definitions : List Definition) : List (String × List String) :=
  (listed definitions).map fun entry => (entry.1, symbolNames entry.2)

theorem namedRules_eq_flatMap (definitions : List Definition) :
    namedRules definitions = definitions.flatMap fun definition =>
      definition.alternatives.map fun alternative => (definition.name, symbolNames alternative) := by
  unfold namedRules listed
  rw [List.map_flatMap]
  refine List.flatMap_congr fun definition _ => ?_
  rw [List.map_map]
  rfl

theorem namedRules_append (definitions more : List Definition) :
    namedRules (definitions ++ more) = namedRules definitions ++ namedRules more := by
  rw [namedRules_eq_flatMap, namedRules_eq_flatMap, namedRules_eq_flatMap, List.flatMap_append]

theorem namedRules_singleton (definition : Definition) : namedRules [definition] =
    definition.alternatives.map fun alternative => (definition.name, symbolNames alternative) := by
  rw [namedRules_eq_flatMap, List.flatMap_singleton]

theorem mem_namedRules_iff {definitions : List Definition} {name : String} {body : List String} :
    (name, body) ∈ namedRules definitions ↔ body ∈ alternativesRead (listed definitions) name := by
  simp only [namedRules, alternativesRead, List.mem_map, List.mem_filter, Prod.mk.injEq,
    decide_eq_true_eq, and_assoc]

theorem mem_leftSides_iff {definitions : List Definition}
    (hne : ∀ definition ∈ definitions, definition.alternatives ≠ []) (start name : String) :
    name ∈ (NamedGrammar.mk (namedRules definitions) start).leftSides ↔
      name ∈ Definition.definedNames definitions := by
  rw [NamedGrammar.leftSides, namedRules_eq_flatMap, Definition.definedNames, List.mem_eraseDups,
    List.mem_map, List.mem_map]
  constructor
  · rintro ⟨rule, hrule, rfl⟩
    obtain ⟨definition, hmem, hrule⟩ := List.mem_flatMap.mp hrule
    obtain ⟨alternative, -, rfl⟩ := List.mem_map.mp hrule
    exact ⟨definition, hmem, rfl⟩
  · rintro ⟨definition, hmem, rfl⟩
    -- a definition without alternatives would define a name and list no rule
    obtain ⟨alternative, halternative⟩ := List.exists_mem_of_ne_nil _ (hne definition hmem)
    exact ⟨_, List.mem_flatMap.mpr ⟨definition, hmem, List.mem_map_of_mem halternative⟩, rfl⟩

theorem terminals_ofDefinitions_eq {definitions : List Definition}
    (hne : ∀ definition ∈ definitions, definition.alternatives ≠ []) (start : String) :
    (ofDefinitions definitions).terminals =
      (NamedGrammar.mk (namedRules definitions) start).terminals := by
  have hitems : terminalNames (Definition.definedNames definitions)
      ((listed definitions).flatMap Prod.snd) =
        ((namedRules definitions).flatMap Prod.snd).filter
          (· ∉ (NamedGrammar.mk (namedRules definitions) start).leftSides) := by
    simp only [mem_leftSides_iff hne]
    unfold terminalNames namedRules symbolNames
    rw [List.flatMap_map, List.filter_flatMap, List.filter_flatMap]
    refine List.flatMap_congr fun entry _ => ?_
    rw [List.filter_filter]
    simp [Bool.and_comm]
  have hfirsts := (ofDefinitions_records definitions).terminals
  rw [hitems] at hfirsts
  exact hfirsts.unique (.eraseDups _)

/-- **The table denotes what the definitions list**, with its start at any name defined. -/
theorem denotes_ofDefinitions {definitions : List Definition}
    (hne : ∀ definition ∈ definitions, definition.alternatives ≠ []) {start : Nat} {name : String}
    (hstart : (ofDefinitions definitions).nonterminals[start]? = some name) :
    ({ ofDefinitions definitions with start } : Grammar).Denotes ⟨namedRules definitions, name⟩ where
  tables := ofDefinitions_unambiguous definitions
  leftSides other := (mem_leftSides_iff hne name other).symm
  terminals := terminals_ofDefinitions_eq hne name
  rules id other hother := by
    obtain ⟨bodies, spelled, hbodies, hspelled, hfirsts⟩ :=
      (ofDefinitions_records definitions).rules id other hother
    have hget : (ofDefinitions definitions).bodies id = bodies := by
      rw [Grammar.bodies, List.getD_eq_getElem?_getD, hbodies]
      rfl
    refine ⟨spelled, hget ▸ hspelled, fun body => ?_⟩
    rw [mem_namedRules_iff, hfirsts.mem_iff]
  start := hstart

end Grammar

end AmbiguitySearch
