import AmbiguitySearch.Proofs.Grammar.Declared
import AmbiguitySearch.Proofs.Grammar.Named
import AmbiguitySearch.Proofs.Grammar.Nullable
import Mathlib.Data.Finset.Image
import Mathlib.Data.List.Perm.Basic

/-!
# Grammars that differ in their names and ids only

Two lists of definitions can say the same thing in many ways: with their lines and
alternatives in another order, with some of them repeated, and with other names
(`Restates`). The tables built from them have nothing literal in common, since every id
depends on what stands first. What they have in common is a relation between symbols, each
symbol of the one table being related to the symbol of the other that has its new name.

`Corresponds` is what such a relation keeps to. It is symmetric, so that of every fact
that follows from it only one direction needs a proof.

> `Restates.corresponds`: the tables of renamed definitions correspond.

> `Corresponds.isNullable_eq`, `Corresponds.vocabularyEmpty_eq`: corresponding tables
> agree on what vanishes and on whether there is a word at all.
-/

namespace AmbiguitySearch

namespace Grammar

/-- A one-to-one relation between the symbols of two tables under which they have the same
rules, in whatever order. -/
structure Corresponds (g g' : Grammar) (same : Symbol → Symbol → Prop) : Prop where
  declared : ∀ {symbol symbol'}, same symbol symbol' → g.Declares symbol ∧ g'.Declares symbol'
  total : ∀ {symbol}, g.Declares symbol → ∃ symbol', same symbol symbol'
  onto : ∀ {symbol'}, g'.Declares symbol' → ∃ symbol, same symbol symbol'
  unique : Relator.BiUnique same
  isTerminal_eq : ∀ {symbol symbol'}, same symbol symbol' → symbol.isTerminal = symbol'.isTerminal
  bodies : ∀ {id id'}, same (.nonterminal id) (.nonterminal id') →
    ∃ bodies', bodies'.Perm (g'.bodies id') ∧
      List.Forall₂ (List.Forall₂ same) (g.bodies id) bodies'

namespace Corresponds

variable {g g' : Grammar} {same : Symbol → Symbol → Prop}

theorem symm (h : Corresponds g g' same) : Corresponds g' g (flip same) where
  declared hsame := (h.declared hsame).symm
  total hdeclared := h.onto hdeclared
  onto hdeclared := h.total hdeclared
  unique := ⟨fun _ _ _ hsame hsame' => h.unique.2 hsame hsame',
    fun _ _ _ hsame hsame' => h.unique.1 hsame hsame'⟩
  isTerminal_eq hsame := (h.isTerminal_eq hsame).symm
  bodies hsame := by
    obtain ⟨bodies', hperm, hbodies⟩ := h.bodies hsame
    -- the bodies change places on the other side instead
    obtain ⟨bodies, hbodies, hperm⟩ := List.perm_comp_forall₂ hperm.symm hbodies.flip
    refine ⟨bodies, hperm, hbodies.imp ?_⟩
    intro _ _ hbody
    exact hbody.flip

/-- The counterpart of a nonterminal is one. -/
theorem exists_nonterminal (h : Corresponds g g' same) {id : Nat} {symbol' : Symbol}
    (hsame : same (.nonterminal id) symbol') : ∃ id', symbol' = .nonterminal id' := by
  have hkind := h.isTerminal_eq hsame
  cases symbol' with
  | terminal id' => cases hkind
  | nonterminal id' => exact ⟨id', rfl⟩

theorem exists_body (h : Corresponds g g' same) {id id' : Nat} {body : Form}
    (hsame : same (.nonterminal id) (.nonterminal id')) (hbody : body ∈ g.bodies id) :
    ∃ body' ∈ g'.bodies id', List.Forall₂ same body body' := by
  obtain ⟨bodies', hperm, hbodies⟩ := h.bodies hsame
  obtain ⟨body', hmem, hbody'⟩ := exists_of_mem_of_forall₂ hbodies hbody
  exact ⟨body', hperm.mem_iff.mp hmem, hbody'⟩

/-! ## What vanishes -/

/-- Vanishing is brought over by induction on the reasons for it. -/
theorem isNullable (h : Corresponds g g' same) {symbol symbol' : Symbol}
    (hsame : same symbol symbol') (hvanishes : g.isNullable symbol = true) :
    g'.isNullable symbol' = true := by
  cases symbol with
  | terminal id => cases hvanishes
  | nonterminal id =>
    let vanishesToo := fun id => ∀ symbol', same (.nonterminal id) symbol' →
      g'.isNullable symbol' = true
    suffices hclosed : ∀ id, ∀ body ∈ g.bodies id,
        (∀ symbol ∈ body, ∃ inner, symbol = .nonterminal inner ∧ vanishesToo inner) →
          vanishesToo id from isNullable_of_closed hclosed hvanishes symbol' hsame
    intro id body hbody hinner symbol' hsame
    obtain ⟨id', rfl⟩ := h.exists_nonterminal hsame
    obtain ⟨body', hbody', hforms⟩ := h.exists_body hsame hbody
    refine (g'.isNullable_nonterminal_iff id').mpr ⟨body', hbody', List.all_eq_true.mpr ?_⟩
    intro symbol' hmem
    obtain ⟨symbol, hsymbol, hsame⟩ := exists_of_mem_of_forall₂ hforms.flip hmem
    obtain ⟨inner, rfl, hvanishes⟩ := hinner symbol hsymbol
    exact hvanishes symbol' hsame

theorem isNullable_eq (h : Corresponds g g' same) {symbol symbol' : Symbol}
    (hsame : same symbol symbol') : g.isNullable symbol = g'.isNullable symbol' := by
  apply Bool.eq_iff_iff.mpr
  exact ⟨h.isNullable hsame, h.symm.isNullable hsame⟩

/-- A word of the one grammar means a word of the other. -/
theorem vocabularyEmpty (h : Corresponds g g' same) (hg' : g'.Loaded)
    (hempty : g.vocabularyEmpty = true) : g'.vocabularyEmpty = true := by
  simp only [Grammar.vocabularyEmpty, Bool.and_eq_true, List.isEmpty_iff, Bool.not_eq_true',
    List.any_eq_false, List.any_eq_true, not_exists, not_and] at hempty ⊢
  obtain ⟨hterminals, hbodies⟩ := hempty
  constructor
  · by_contra hne
    have hfirst : g'.Declares (.terminal 0) := List.length_pos_iff.mpr hne
    obtain ⟨symbol, hsame⟩ := h.onto hfirst
    have hdeclared := (h.declared hsame).1
    have hkind := h.isTerminal_eq hsame
    cases symbol with
    | nonterminal id => cases hkind
    | terminal id =>
      rw [Declares, hterminals] at hdeclared
      cases hdeclared
  · intro bodies' hmem body' hbody' hnil
    obtain ⟨id', hlt, rfl⟩ := List.mem_iff_getElem.mp hmem
    have hid' : g'.Declares (.nonterminal id') := by
      show id' < g'.nonterminals.length
      rw [← hg'.length_rules]
      exact hlt
    obtain ⟨symbol, hsame⟩ := h.onto hid'
    obtain ⟨id, rfl⟩ := h.symm.exists_nonterminal hsame
    have hget : g'.bodies id' = g'.rules[id'] := by
      rw [Grammar.bodies, List.getD_eq_getElem?_getD, List.getElem?_eq_getElem hlt]
      rfl
    obtain ⟨body, hbody, hforms⟩ := h.symm.exists_body hsame (hget ▸ hbody')
    obtain ⟨bodies, hrules, hin⟩ := exists_rules_of_mem_bodies hbody
    rw [hnil] at hforms
    cases hforms
    exact hbodies bodies (List.mem_of_getElem? hrules) [] hin rfl

theorem vocabularyEmpty_eq (h : Corresponds g g' same) (hg : g.Loaded) (hg' : g'.Loaded) :
    g.vocabularyEmpty = g'.vocabularyEmpty := by
  apply Bool.eq_iff_iff.mpr
  exact ⟨h.vocabularyEmpty hg', h.symm.vocabularyEmpty hg⟩

end Corresponds

/-! ## Definitions under other names -/

/-- The names that some definitions define or use in a rule. -/
def namesUsed (definitions : List Definition) : List String :=
  definitions.map (·.name) ++ (namedRules definitions).flatMap Prod.snd

/-- A rule under other names. -/
def renameRule (rename : String → String) (rule : String × List String) : String × List String :=
  (rename rule.1, rule.2.map rename)

/-- The second definitions say under other names what the first ones say. Rules are
compared without `epsilon`, which is the name of no symbol and so needs no clause of
its own. -/
structure Restates (rename : String → String) (definitions definitions' : List Definition) :
    Prop where
  injective : ∀ name ∈ namesUsed definitions, ∀ name' ∈ namesUsed definitions,
    rename name = rename name' → name = name'
  leftSides : (definitions.map (·.name)).toFinset.image rename =
    (definitions'.map (·.name)).toFinset
  rules : (namedRules definitions).toFinset.image (renameRule rename) =
    (namedRules definitions').toFinset

/-- Symbols of two tables, the second with the new name of the first. -/
def Counterparts (rename : String → String) (g g' : Grammar) (symbol symbol' : Symbol) : Prop :=
  ∃ name, nameIn g.nonterminals g.terminals symbol = some name ∧
    nameIn g'.nonterminals g'.terminals symbol' = some (rename name)

variable {definitions definitions' : List Definition} {rename : String → String}

theorem mem_definedNames_iff {name : String} :
    name ∈ Definition.definedNames definitions ↔ name ∈ definitions.map (·.name) :=
  List.mem_eraseDups

/-- Only a name that is defined has rules. -/
theorem mem_names_of_mem_namedRules {rule : String × List String}
    (hrule : rule ∈ namedRules definitions) : rule.1 ∈ definitions.map (·.name) := by
  rw [namedRules_eq_flatMap] at hrule
  obtain ⟨definition, hmem, hrule⟩ := List.mem_flatMap.mp hrule
  obtain ⟨alternative, -, rfl⟩ := List.mem_map.mp hrule
  exact List.mem_map_of_mem hmem

/-- Every name of a rule is used. -/
theorem mem_namesUsed_of_mem_namedRules {rule : String × List String}
    (hrule : rule ∈ namedRules definitions) :
    rule.1 ∈ namesUsed definitions ∧ ∀ name ∈ rule.2, name ∈ namesUsed definitions := by
  constructor
  · exact List.mem_append_left _ (mem_names_of_mem_namedRules hrule)
  · intro name hname
    exact List.mem_append_right _ (List.mem_flatMap.mpr ⟨rule, hrule, hname⟩)

/-- A terminal is a name used in a rule that nobody defines. -/
theorem mem_terminals_iff {name : String} :
    name ∈ (ofDefinitions definitions).terminals ↔
      name ∈ (namedRules definitions).flatMap Prod.snd ∧ name ∉ definitions.map (·.name) := by
  rw [(ofDefinitions_records definitions).terminals.mem_iff, terminalNames, List.mem_filter]
  simp only [mem_definedNames_iff, namedRules, symbolNames, List.mem_flatMap, List.mem_map,
    List.mem_filter, decide_eq_true_eq, exists_exists_and_eq_and, ne_eq]
  grind

theorem mem_terminals_iff_used {name : String} :
    name ∈ (ofDefinitions definitions).terminals ↔
      name ∈ namesUsed definitions ∧ name ∉ definitions.map (·.name) := by
  rw [mem_terminals_iff, namesUsed, List.mem_append]
  tauto

/-- The names of symbols are the names used. -/
theorem exists_nameIn_iff {name : String} :
    (∃ symbol, nameIn (ofDefinitions definitions).nonterminals
      (ofDefinitions definitions).terminals symbol = some name) ↔ name ∈ namesUsed definitions := by
  rw [namesUsed, List.mem_append]
  constructor
  · rintro ⟨symbol, hname⟩
    cases symbol with
    | terminal id => exact Or.inr (mem_terminals_iff.mp (List.mem_of_getElem? hname)).1
    | nonterminal id => exact Or.inl (mem_definedNames_iff.mp (List.mem_of_getElem? hname))
  · intro hused
    by_cases hdefined : name ∈ definitions.map (·.name)
    · obtain ⟨id, hid⟩ := List.mem_iff_getElem?.mp (mem_definedNames_iff.mpr hdefined)
      exact ⟨.nonterminal id, hid⟩
    · have hterminal := mem_terminals_iff.mpr ⟨hused.resolve_left hdefined, hdefined⟩
      obtain ⟨id, hid⟩ := List.mem_iff_getElem?.mp hterminal
      exact ⟨.terminal id, hid⟩

theorem isTerminal_eq_decide {symbol : Symbol} {name : String}
    (hname : nameIn (ofDefinitions definitions).nonterminals (ofDefinitions definitions).terminals
      symbol = some name) : symbol.isTerminal = decide (name ∉ definitions.map (·.name)) := by
  cases symbol with
  | terminal id =>
    have hundefined := (mem_terminals_iff.mp (List.mem_of_getElem? hname)).2
    exact (decide_eq_true hundefined).symm
  | nonterminal id =>
    have hdefined := mem_definedNames_iff.mp (List.mem_of_getElem? hname)
    exact (decide_eq_false (not_not_intro hdefined)).symm

theorem exists_nameIn_of_declares {g : Grammar} {symbol : Symbol} (h : g.Declares symbol) :
    ∃ name, nameIn g.nonterminals g.terminals symbol = some name := by
  cases symbol with
  | terminal id => exact ⟨_, List.getElem?_eq_getElem h⟩
  | nonterminal id => exact ⟨_, List.getElem?_eq_getElem h⟩

/-- The bodies of a name are spelled by its alternatives, each at its first appearance. -/
theorem exists_spelled_bodies {id : Nat} {name : String}
    (hname : (ofDefinitions definitions).nonterminals[id]? = some name) :
    ∃ spelled, List.Forall₂ (ofDefinitions definitions).SpelledBy
        ((ofDefinitions definitions).bodies id) spelled ∧
      FirstAppearances (alternativesRead (listed definitions) name) spelled := by
  obtain ⟨bodies, spelled, hbodies, hspelled, hfirsts⟩ :=
    (ofDefinitions_records definitions).rules id name hname
  have hget : (ofDefinitions definitions).bodies id = bodies := by
    rw [Grammar.bodies, List.getD_eq_getElem?_getD, hbodies]
    rfl
  exact ⟨spelled, hget ▸ hspelled, hfirsts⟩

/-- Items with related labels are related, position by position. -/
theorem forall₂_of_map {α β γ γ' : Type} {label : α → γ → Prop} {label' : β → γ' → Prop}
    {change : γ → γ'} {related : α → β → Prop}
    (hrelated : ∀ a c b, label a c → label' b (change c) → related a b) {as : List α} {bs : List β}
    {cs : List γ} (hlabel : List.Forall₂ label as cs)
    (hlabel' : List.Forall₂ label' bs (cs.map change)) : List.Forall₂ related as bs := by
  induction hlabel generalizing bs with
  | nil =>
    cases hlabel'
    exact .nil
  | cons hfirst _ ih =>
    cases hlabel' with
    | cons hfirst' hrest' => exact .cons (hrelated _ _ _ hfirst hfirst') (ih hrest')

namespace Restates

variable (h : Restates rename definitions definitions')
include h

theorem mem_leftSides_iff {name : String} :
    name ∈ definitions'.map (·.name) ↔ ∃ old ∈ definitions.map (·.name), rename old = name := by
  rw [← List.mem_toFinset, ← h.leftSides, Finset.mem_image]
  simp only [List.mem_toFinset]

theorem mem_namedRules_iff {rule : String × List String} :
    rule ∈ namedRules definitions' ↔ ∃ old ∈ namedRules definitions, renameRule rename old = rule := by
  rw [← List.mem_toFinset, ← h.rules, Finset.mem_image]
  simp only [List.mem_toFinset]

/-- The names used have new names that are used, and there are no others. -/
theorem mem_namesUsed_iff {name : String} :
    name ∈ namesUsed definitions' ↔ ∃ old ∈ namesUsed definitions, rename old = name := by
  simp only [namesUsed, List.mem_append, h.mem_leftSides_iff, List.mem_flatMap,
    h.mem_namedRules_iff]
  constructor
  · rintro (⟨old, hold, rfl⟩ | ⟨_, ⟨rule, hrule, rfl⟩, hname⟩)
    · exact ⟨old, Or.inl hold, rfl⟩
    · obtain ⟨old, hold, rfl⟩ := List.mem_map.mp hname
      exact ⟨old, Or.inr ⟨rule, hrule, hold⟩, rfl⟩
  · rintro ⟨old, hold | ⟨rule, hrule, hold⟩, rfl⟩
    · exact Or.inl ⟨old, hold, rfl⟩
    · exact Or.inr ⟨_, ⟨rule, hrule, rfl⟩, List.mem_map_of_mem hold⟩

/-- A name is defined exactly if its new name is. -/
theorem mem_leftSides_rename_iff {name : String} (hname : name ∈ namesUsed definitions) :
    rename name ∈ definitions'.map (·.name) ↔ name ∈ definitions.map (·.name) := by
  rw [h.mem_leftSides_iff]
  constructor
  · rintro ⟨old, hold, hrename⟩
    rw [← h.injective old (List.mem_append_left _ hold) name hname hrename]
    exact hold
  · intro hdefined
    exact ⟨name, hdefined, rfl⟩

theorem map_injective {names names' : List String} (hnames : ∀ name ∈ names, name ∈ namesUsed definitions)
    (hnames' : ∀ name ∈ names', name ∈ namesUsed definitions)
    (heq : names.map rename = names'.map rename) : names = names' := by
  induction names generalizing names' with
  | nil => exact (List.map_eq_nil_iff.mp heq.symm).symm
  | cons name names ih =>
    cases names' with
    | nil => cases heq
    | cons name' names' =>
      obtain ⟨hfirst, hrest⟩ := List.cons.inj heq
      obtain ⟨hname, hnames⟩ := List.forall_mem_cons.mp hnames
      obtain ⟨hname', hnames'⟩ := List.forall_mem_cons.mp hnames'
      rw [h.injective name hname name' hname' hfirst, ih hnames hnames' hrest]

/-- The alternatives of a name are those of its new name, up to their order. -/
theorem perm_alternatives {name : String} (hname : name ∈ namesUsed definitions)
    {spelled spelled' : List (List String)}
    (hspelled : FirstAppearances (alternativesRead (listed definitions) name) spelled)
    (hspelled' : FirstAppearances (alternativesRead (listed definitions') (rename name)) spelled') :
    (spelled.map (List.map rename)).Perm spelled' := by
  have hmem : ∀ body, body ∈ spelled ↔ (name, body) ∈ namedRules definitions := fun body =>
    (hspelled.mem_iff body).trans Grammar.mem_namedRules_iff.symm
  have hused : ∀ body ∈ spelled, ∀ other ∈ body, other ∈ namesUsed definitions :=
    fun body hbody => (mem_namesUsed_of_mem_namedRules ((hmem body).mp hbody)).2
  refine (List.perm_ext_iff_of_nodup (hspelled.nodup.map_on ?_) hspelled'.nodup).mpr ?_
  · intro body hbody body' hbody' heq
    exact h.map_injective (hused body hbody) (hused body' hbody') heq
  · intro body'
    rw [hspelled'.mem_iff, ← Grammar.mem_namedRules_iff, h.mem_namedRules_iff, List.mem_map]
    constructor
    · rintro ⟨body, hbody, rfl⟩
      exact ⟨(name, body), (hmem body).mp hbody, rfl⟩
    · rintro ⟨⟨old, body⟩, hrule, heq⟩
      obtain ⟨hold, rfl⟩ := Prod.mk.inj heq
      -- only this name has the new name
      have hused := (mem_namesUsed_of_mem_namedRules hrule).1
      obtain rfl := h.injective old hused name hname hold
      exact ⟨body, (hmem body).mpr hrule, rfl⟩

/-- Names and their new names stand for counterparts. -/
theorem counterparts_unique : Relator.BiUnique (Counterparts rename (ofDefinitions definitions)
    (ofDefinitions definitions')) := by
  constructor
  · rintro symbol symbol' other ⟨name, hname, hother⟩ ⟨name', hname', hother'⟩
    have hnew : rename name = rename name' := Option.some.inj (hother.symm.trans hother')
    have hold := h.injective name (exists_nameIn_iff.mp ⟨symbol, hname⟩) name'
      (exists_nameIn_iff.mp ⟨symbol', hname'⟩) hnew
    rw [← hold] at hname'
    exact nameIn_injective (ofDefinitions_unambiguous definitions) hname hname'
  · rintro symbol other other' ⟨name, hname, hother⟩ ⟨name', hname', hother'⟩
    obtain rfl := Option.some.inj (hname.symm.trans hname')
    exact nameIn_injective (ofDefinitions_unambiguous definitions') hother hother'

/-- A symbol is a nonterminal exactly if its name is defined. -/
theorem counterparts_isTerminal_eq {symbol symbol' : Symbol}
    (hsame : Counterparts rename (ofDefinitions definitions) (ofDefinitions definitions')
      symbol symbol') : symbol.isTerminal = symbol'.isTerminal := by
  obtain ⟨name, hname, hname'⟩ := hsame
  have hused : name ∈ namesUsed definitions := exists_nameIn_iff.mp ⟨symbol, hname⟩
  rw [isTerminal_eq_decide hname, isTerminal_eq_decide hname']
  simp only [h.mem_leftSides_rename_iff hused]

/-- **Renamed definitions make corresponding tables.** -/
theorem corresponds : Corresponds (ofDefinitions definitions) (ofDefinitions definitions')
    (Counterparts rename (ofDefinitions definitions) (ofDefinitions definitions')) where
  declared := by
    rintro symbol symbol' ⟨name, hname, hname'⟩
    exact ⟨declares_of_nameIn hname, declares_of_nameIn hname'⟩
  total := by
    intro symbol hdeclared
    obtain ⟨name, hname⟩ := exists_nameIn_of_declares hdeclared
    have hused := h.mem_namesUsed_iff.mpr ⟨name, exists_nameIn_iff.mp ⟨symbol, hname⟩, rfl⟩
    obtain ⟨symbol', hname'⟩ := exists_nameIn_iff.mpr hused
    exact ⟨symbol', name, hname, hname'⟩
  onto := by
    intro symbol' hdeclared
    obtain ⟨name', hname'⟩ := exists_nameIn_of_declares hdeclared
    obtain ⟨name, hused, rfl⟩ := h.mem_namesUsed_iff.mp (exists_nameIn_iff.mp ⟨symbol', hname'⟩)
    obtain ⟨symbol, hname⟩ := exists_nameIn_iff.mpr hused
    exact ⟨symbol, name, hname, hname'⟩
  unique := h.counterparts_unique
  isTerminal_eq hsame := h.counterparts_isTerminal_eq hsame
  bodies := by
    rintro id id' ⟨name, hname, hname'⟩
    obtain ⟨spelled, hbodies, hspelled⟩ := exists_spelled_bodies hname
    obtain ⟨spelled', hbodies', hspelled'⟩ := exists_spelled_bodies hname'
    have hused : name ∈ namesUsed definitions := exists_nameIn_iff.mp ⟨.nonterminal id, hname⟩
    have hperm := h.perm_alternatives hused hspelled hspelled'
    obtain ⟨bodies', hrelated, hsame⟩ := List.perm_comp_forall₂ hperm hbodies'.flip
    refine ⟨bodies', hsame, forall₂_of_map ?_ hbodies hrelated.flip⟩
    intro body names body' hbody hbody'
    refine forall₂_of_map ?_ hbody hbody'
    intro symbol name symbol' hsymbol hsymbol'
    exact ⟨name, hsymbol, hsymbol'⟩

/-- The terminals are the same under their new names, in whatever order. -/
theorem perm_terminals :
    ((ofDefinitions definitions).terminals.map rename).Perm (ofDefinitions definitions').terminals := by
  have hused : ∀ name ∈ (ofDefinitions definitions).terminals, name ∈ namesUsed definitions :=
    fun name hname => List.mem_append_right _ (mem_terminals_iff.mp hname).1
  have hnodup := (ofDefinitions_unambiguous definitions).terminals_nodup
  have hnodup' := (ofDefinitions_unambiguous definitions').terminals_nodup
  refine (List.perm_ext_iff_of_nodup (hnodup.map_on ?_) hnodup').mpr ?_
  · intro name hname name' hname' heq
    exact h.injective name (hused name hname) name' (hused name' hname') heq
  · intro name
    rw [List.mem_map, mem_terminals_iff_used, h.mem_namesUsed_iff]
    constructor
    · rintro ⟨old, hold, rfl⟩
      refine ⟨⟨old, hused old hold, rfl⟩, fun hleft => ?_⟩
      exact (mem_terminals_iff.mp hold).2 ((h.mem_leftSides_rename_iff (hused old hold)).mp hleft)
    · rintro ⟨⟨old, hold, rfl⟩, hleft⟩
      refine ⟨old, mem_terminals_iff_used.mpr ⟨hold, fun hdefined => hleft ?_⟩, rfl⟩
      exact (h.mem_leftSides_rename_iff hold).mpr hdefined

end Restates

end Grammar

end AmbiguitySearch
