import AmbiguitySearch.Proofs.Grammar.Printed

/-!
# Rules listed once more

Of the rules that definitions list, a grammar keeps the first appearances: of a name on the
left, of a terminal, and of a body among those of its nonterminal. All three can be told
from the first appearances of the rules themselves, so that a rule listed again, under
whatever definition, changes nothing, ids and order and flags included.

The reason is one fact on lists. Where every item stands for some others, what appears
first among these is found in the first appearances of the items (`SameFirsts.flatMap`).

> `ofDefinitions_eq_of_sameFirsts`: definitions that list the same rules, in the order of
> their first appearance, make the same grammar.

> `Definition.Reworded.sameFirsts`: definitions split in two, alternatives given twice and
> `epsilon` beside names leave the rules as they are.
-/

namespace AmbiguitySearch

/-- The same items, in the order of their first appearance. -/
def SameFirsts {α : Type} [DecidableEq α] (items items' : List α) : Prop :=
  items.eraseDups = items'.eraseDups

namespace SameFirsts

variable {α β : Type} [DecidableEq α] [DecidableEq β] {items items' more more' : List α}

theorem refl (items : List α) : SameFirsts items items := Eq.refl items.eraseDups

theorem trans {other : List α} (h : SameFirsts items items') (h' : SameFirsts items' other) :
    SameFirsts items other := Eq.trans h h'

theorem symm (h : SameFirsts items items') : SameFirsts items' items := Eq.symm h

theorem mem_iff (h : SameFirsts items items') (item : α) : item ∈ items ↔ item ∈ items' := by
  rw [← List.mem_eraseDups, h, List.mem_eraseDups]

/-- Items that are there already appear for no first time. -/
theorem append_of_subset (h : more ⊆ items) : SameFirsts (items ++ more) items := by
  have hnone : more.removeAll items = [] := by
    rw [List.removeAll, List.filter_eq_nil_iff]
    intro item hmem
    simp [h hmem]
  rw [SameFirsts, List.eraseDups_append, hnone, List.eraseDups_nil, List.append_nil]

theorem append_right (h : SameFirsts items items') (more : List α) :
    SameFirsts (items ++ more) (items' ++ more) := by
  have hmore : more.removeAll items = more.removeAll items' := by
    unfold List.removeAll
    refine List.filter_congr fun item _ => ?_
    simp [h.mem_iff item]
  rw [SameFirsts, List.eraseDups_append, List.eraseDups_append, hmore, h]

/-- So they can be put in anywhere behind their first appearance. -/
theorem again (h : more ⊆ items) (behind : List α) :
    SameFirsts (items ++ behind) (items ++ (more ++ behind)) := by
  rw [← List.append_assoc]
  exact ((append_of_subset h).append_right behind).symm

theorem eraseDups_flatMap (f : α → List β) (items : List α) :
    SameFirsts (items.flatMap f) (items.eraseDups.flatMap f) := by
  induction items using List.reverseRecOn with
  | nil => exact .refl []
  | append_singleton items item ih =>
    rw [FirstAppearances.eraseDups_concat, List.flatMap_append, List.flatMap_singleton]
    split
    next hmem =>
      refine (append_of_subset ?_).trans ih
      intro image himage
      exact List.mem_flatMap.mpr ⟨item, List.mem_eraseDups.mp hmem, himage⟩
    next =>
      rw [List.flatMap_append, List.flatMap_singleton]
      exact ih.append_right (f item)

/-- **What the items stand for** appears in the order in which they do. -/
theorem flatMap (h : SameFirsts items items') (f : α → List β) :
    SameFirsts (items.flatMap f) (items'.flatMap f) := by
  have hfirsts := eraseDups_flatMap f items
  rw [h] at hfirsts
  exact hfirsts.trans (eraseDups_flatMap f items').symm

theorem map (h : SameFirsts items items') (f : α → β) :
    SameFirsts (items.map f) (items'.map f) := by
  rw [List.map_eq_flatMap, List.map_eq_flatMap]
  exact h.flatMap _

theorem filter (h : SameFirsts items items') (p : α → Bool) :
    SameFirsts (items.filter p) (items'.filter p) := by
  rw [← List.flatMap_singleton' items, ← List.flatMap_singleton' items', List.filter_flatMap,
    List.filter_flatMap]
  exact h.flatMap _

theorem append (h : SameFirsts items items') (h' : SameFirsts more more') :
    SameFirsts (items ++ more) (items' ++ more') := by
  refine (h.append_right more).trans ?_
  rw [SameFirsts, List.eraseDups_append, List.eraseDups_append]
  exact congrArg _ (h'.filter _)

end SameFirsts

namespace Grammar

variable {definitions definitions' : List Definition}

/-- The flags follow from the rules. -/
theorem eq_of_tables {g g' : Grammar} (hterminals : g.terminals = g'.terminals)
    (hnonterminals : g.nonterminals = g'.nonterminals) (hrules : g.rules = g'.rules)
    (hstart : g.start = g'.start) : g = g' := by
  obtain ⟨terminals, nonterminals, rules, start, -, rfl⟩ := g
  obtain ⟨terminals', nonterminals', rules', start', -, rfl⟩ := g'
  cases hterminals
  cases hnonterminals
  cases hrules
  cases hstart
  rfl

/-! ## What is told by the rules -/

/-- Where each definition has alternatives, the names are defined as they come in the rules. -/
theorem sameFirsts_names (hne : ∀ definition ∈ definitions, definition.alternatives ≠ []) :
    SameFirsts ((namedRules definitions).map Prod.fst) (definitions.map (·.name)) := by
  induction definitions using List.reverseRecOn with
  | nil => exact .refl []
  | append_singleton definitions definition ih =>
    obtain ⟨hearlier, hlast⟩ := List.forall_mem_append.mp hne
    have hsome := hlast definition (List.mem_singleton_self definition)
    rw [namedRules_append, List.map_append, List.map_append, namedRules_singleton, List.map_map]
    refine (ih hearlier).append ?_
    -- a name that is listed several times is listed once and then again
    obtain ⟨first, others, hothers⟩ := List.exists_cons_of_ne_nil hsome
    rw [hothers]
    show SameFirsts ([definition.name] ++ others.map fun _ => definition.name) [definition.name]
    refine .append_of_subset ?_
    intro name hname
    obtain ⟨-, -, rfl⟩ := List.mem_map.mp hname
    exact List.mem_singleton_self _

section Same

variable (hne : ∀ definition ∈ definitions, definition.alternatives ≠ [])
  (hne' : ∀ definition ∈ definitions', definition.alternatives ≠ [])
  (hsame : SameFirsts (namedRules definitions) (namedRules definitions'))

include hsame

theorem bodiesOf_congr (name : String) :
    bodiesOf definitions name = bodiesOf definitions' name := by
  rw [bodiesOf, bodiesOf, alternativesRead_eq, alternativesRead_eq]
  exact (hsame.filter _).map _

include hne hne'

theorem definedNames_congr :
    Definition.definedNames definitions = Definition.definedNames definitions' :=
  (sameFirsts_names hne).symm.trans ((hsame.map _).trans (sameFirsts_names hne'))

theorem terminals_congr :
    (ofDefinitions definitions).terminals = (ofDefinitions definitions').terminals := by
  have hleft : ∀ name, name ∈ (namedRules definitions).map Prod.fst ↔
      name ∈ (namedRules definitions').map Prod.fst := (hsame.map Prod.fst).mem_iff
  rw [terminals_ofDefinitions_eq hne "", terminals_ofDefinitions_eq hne' "",
    NamedGrammar.terminals, NamedGrammar.terminals, NamedGrammar.leftSides, NamedGrammar.leftSides]
  simp only [hleft]
  exact (hsame.flatMap _).filter _

/-- The tables of names being the same, the same alternatives are the same bodies. -/
theorem rules_congr : (ofDefinitions definitions).rules = (ofDefinitions definitions').rules := by
  have hnames := definedNames_congr hne hne' hsame
  have hterminals := terminals_congr hne hne' hsame
  have htables := ofDefinitions_unambiguous definitions
  have hrules := forall₂_rules definitions
  have hrules' := forall₂_rules definitions'
  have hnonterminals : (ofDefinitions definitions').nonterminals =
      (ofDefinitions definitions).nonterminals := hnames.symm
  rw [← hnames] at hrules'
  simp only [SpelledBy, hnonterminals, ← hterminals, ← bodiesOf_congr hsame] at hrules'
  have hnumbered : (ofDefinitions definitions).rules.zipIdx =
      (ofDefinitions definitions').rules.zipIdx := by
    refine List.left_unique_forall₂' ?_ hrules hrules'
    intro numbered numbered' name hnumbered hnumbered'
    refine Prod.ext ?_ (eq_of_getElem?_eq htables.nonterminals_nodup hnumbered.1 hnumbered'.1)
    refine List.left_unique_forall₂' ?_ hnumbered.2 hnumbered'.2
    intro body body' names hbody hbody'
    exact hbody.form_eq htables hbody'
  rw [← List.zipIdx_map_fst 0 (rules (ofDefinitions definitions)), hnumbered, List.zipIdx_map_fst]

/-- **Rules listed once more change nothing.** -/
theorem ofDefinitions_eq_of_sameFirsts : ofDefinitions definitions = ofDefinitions definitions' :=
  eq_of_tables (terminals_congr hne hne' hsame) (definedNames_congr hne hne' hsame)
    (rules_congr hne hne' hsame) rfl

end Same

end Grammar

/-! ## Definitions in other words -/

namespace Definition

/-- Other words for a definition: some definitions, one or two, that say the same. -/
inductive Reworded : Definition → List Definition → Prop where
  /-- Its alternatives are given by one definition and then by another. -/
  | split (name : String) (front back : List (List String)) :
    Reworded ⟨name, front ++ back⟩ [⟨name, front⟩, ⟨name, back⟩]
  /-- An alternative is given once more behind itself. -/
  | again (name : String) (alternative : List String) (before between behind : List (List String)) :
    Reworded ⟨name, before ++ alternative :: (between ++ behind)⟩
      [⟨name, before ++ alternative :: (between ++ alternative :: behind)⟩]
  /-- An `epsilon` is put into an alternative. -/
  | inserted (name : String) (front back : List String) (before behind : List (List String)) :
    Reworded ⟨name, before ++ (front ++ back) :: behind⟩
      [⟨name, before ++ (front ++ epsilon :: back) :: behind⟩]
  /-- An `epsilon` is taken out of an alternative, of which something is left. -/
  | deleted (name : String) (front back : List String) (before behind : List (List String))
      (left : front ++ back ≠ []) :
    Reworded ⟨name, before ++ (front ++ epsilon :: back) :: behind⟩
      [⟨name, before ++ (front ++ back) :: behind⟩]

theorem symbolNames_epsilon_between (front back : List String) :
    symbolNames (front ++ epsilon :: back) = symbolNames (front ++ back) := by
  simp [symbolNames]

/-- **Other words list the same rules**, apart from one that is listed again. -/
theorem Reworded.sameFirsts {definition : Definition} {definitions : List Definition}
    (h : definition.Reworded definitions) :
    SameFirsts (Grammar.namedRules [definition]) (Grammar.namedRules definitions) := by
  cases h with
  | split name front back =>
    have htwo : Grammar.namedRules [⟨name, front⟩, ⟨name, back⟩] =
        Grammar.namedRules [⟨name, front⟩] ++ Grammar.namedRules [⟨name, back⟩] :=
      Grammar.namedRules_append [_] [_]
    rw [htwo]
    simp only [Grammar.namedRules_singleton, List.map_append]
    exact .refl _
  | again name alternative before between behind =>
    have hseen : [(name, symbolNames alternative)] ⊆
        (before ++ alternative :: between).map fun other => (name, symbolNames other) := by
      intro rule hrule
      rw [List.mem_singleton.mp hrule]
      exact List.mem_map_of_mem (List.mem_append_right _ (List.mem_cons_self ..))
    have hagain := SameFirsts.again hseen (behind.map fun other => (name, symbolNames other))
    simpa [Grammar.namedRules_singleton] using hagain
  | inserted name front back before behind =>
    simp only [Grammar.namedRules_singleton, List.map_append, List.map_cons,
      symbolNames_epsilon_between]
    exact .refl _
  | deleted name front back before behind left =>
    simp only [Grammar.namedRules_singleton, List.map_append, List.map_cons,
      symbolNames_epsilon_between]
    exact .refl _

end Definition

end AmbiguitySearch
