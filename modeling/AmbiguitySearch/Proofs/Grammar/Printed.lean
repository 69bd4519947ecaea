import AmbiguitySearch.Proofs.Grammar.Renaming

/-!
# Grammars in print

A grammar can be written down again, one line for each rule, nonterminals and bodies in the
order of their tables (`Grammar.printed`). What comes out depends on the definitions only
through the rules in that order (`tableRules`): the names defined, each at its first
appearance, and with each name its alternatives without `epsilon`, each at its first
appearance.

Taking the lines as definitions again (`writtenAs`) gives a grammar that has nothing new to
say. Its terminals may be numbered in another order, since lines of one name that stood
apart in the source have come together.

> `tableRules_writtenAs`: written down once more, it has the same rules in the same order.

> `restates_writtenAs`: it says the same under the same names, so that the two tables
> correspond.
-/

namespace AmbiguitySearch

namespace Grammar

variable {definitions : List Definition}

/-! ## Printing -/

/-- The rules of a grammar, a line for each. -/
def printed (g : Grammar) : Except OutOfRange String := do
  let lines ← g.rules.zipIdx.mapM fun (bodies, id) => bodies.mapM (g.spellRule id)
  return String.join (lines.flatten.map (· ++ "\n"))

/-- The bodies of all nonterminals, read through the names of their symbols. -/
def namedBodies (g : Grammar) : Except OutOfRange (List (List (List String))) :=
  g.rules.mapM fun bodies => bodies.mapM fun body => body.mapM g.name

/-- The distinct items of a list, each at its first appearance. -/
def distinct {α : Type} [DecidableEq α] (items : List α) : List α := items.eraseDups

/-- The alternatives of a name, without `epsilon` and each at its first appearance. -/
def bodiesOf (definitions : List Definition) (name : String) : List (List String) :=
  distinct (alternativesRead (listed definitions) name)

theorem firstAppearances_bodiesOf (definitions : List Definition) (name : String) :
    FirstAppearances (alternativesRead (listed definitions) name) (bodiesOf definitions name) :=
  .eraseDups _

/-- The rules in the order of the table. -/
def tableRules (definitions : List Definition) : List (String × List String) :=
  (Definition.definedNames definitions).flatMap fun name =>
    (bodiesOf definitions name).map (name, ·)

/-- How the names of a body are written. -/
def writtenBody (names : List String) : List String := if names = [] then [epsilon] else names

/-- The line of a rule. -/
def ruleText (rule : String × List String) : String :=
  let body := " ".intercalate (writtenBody rule.2)
  s!"{rule.1} -> {body}"

/-- The text of some rules. -/
def rulesText (rules : List (String × List String)) : String :=
  String.join (rules.map (ruleText · ++ "\n"))

/-- The table holds the names defined, each with its alternatives. -/
theorem forall₂_rules (definitions : List Definition) :
    List.Forall₂ (fun numbered name =>
      (ofDefinitions definitions).nonterminals[numbered.2]? = some name ∧
        List.Forall₂ (ofDefinitions definitions).SpelledBy numbered.1 (bodiesOf definitions name))
      (ofDefinitions definitions).rules.zipIdx (Definition.definedNames definitions) := by
  have hrecords := ofDefinitions_records definitions
  refine List.forall₂_iff_get.mpr ⟨?_, ?_⟩
  · rw [List.length_zipIdx]
    exact hrecords.length_rules
  · intro id hlt hid
    have hname := List.getElem?_eq_getElem hid
    obtain ⟨bodies, spelled, hbodies, hspelled, hfirsts⟩ := hrecords.rules id _ hname
    obtain ⟨hrules, hget⟩ := List.getElem?_eq_some_iff.mp hbodies
    rw [hfirsts.unique (firstAppearances_bodiesOf definitions _)] at hspelled
    simp only [List.get_eq_getElem, List.getElem_zipIdx, Nat.zero_add]
    refine ⟨hname, ?_⟩
    rw [← hget] at hspelled
    exact hspelled

theorem namedBodies_ofDefinitions (definitions : List Definition) :
    (ofDefinitions definitions).namedBodies =
      .ok ((Definition.definedNames definitions).map (bodiesOf definitions)) := by
  rw [namedBodies, mapM_eq_ok_iff, List.forall₂_map_right_iff, ← List.zipIdx_map_fst 0 (rules _),
    List.forall₂_map_left_iff]
  refine (forall₂_rules definitions).imp ?_
  intro numbered name hbodies
  exact mapM_eq_ok_iff.mpr (hbodies.2.imp fun _ _ => mapM_name_eq_ok)

theorem spellRule_eq_ok {g : Grammar} {id : Nat} {name : String} {body : Form}
    {names : List String} (hname : g.nonterminals[id]? = some name) (hbody : g.SpelledBy body names) :
    g.spellRule id body = .ok (ruleText (name, names)) := by
  have hform : g.spellForm body = .ok (" ".intercalate (writtenBody names)) := by
    rw [spellForm_eq_ok_of_mapM (mapM_name_eq_ok hbody), writtenBody]
    split
    next => rfl
    next => rfl
  rw [spellRule, entry_eq_ok_iff.mpr hname, hform]
  rfl

/-- **What is printed** are the rules in the order of the table. -/
theorem printed_ofDefinitions (definitions : List Definition) :
    (ofDefinitions definitions).printed = .ok (rulesText (tableRules definitions)) := by
  have hlines : (ofDefinitions definitions).rules.zipIdx.mapM (fun numbered =>
      numbered.1.mapM ((ofDefinitions definitions).spellRule numbered.2)) =
        .ok ((Definition.definedNames definitions).map fun name =>
          (bodiesOf definitions name).map fun names => ruleText (name, names)) := by
    rw [mapM_eq_ok_iff, List.forall₂_map_right_iff]
    refine (forall₂_rules definitions).imp ?_
    intro numbered name hbodies
    rw [mapM_eq_ok_iff, List.forall₂_map_right_iff]
    exact hbodies.2.imp fun _ _ => spellRule_eq_ok hbodies.1
  have hprinted : (ofDefinitions definitions).printed = (do
      let lines ← (ofDefinitions definitions).rules.zipIdx.mapM fun numbered =>
        numbered.1.mapM ((ofDefinitions definitions).spellRule numbered.2)
      return String.join (lines.flatten.map (· ++ "\n"))) := rfl
  rw [hprinted, hlines]
  show Except.ok _ = Except.ok _
  rw [rulesText, tableRules, ← List.flatMap_def, List.map_flatMap, List.map_flatMap]
  simp only [List.map_map]
  rfl

/-! ## Written as definitions again -/

/-- The definition on the line of a rule. -/
def writtenAs (rule : String × List String) : Definition := ⟨rule.1, [writtenBody rule.2]⟩

theorem symbolNames_writtenBody {names : List String} (h : epsilon ∉ names) :
    symbolNames (writtenBody names) = names := by
  unfold writtenBody
  by_cases hnil : names = []
  · rw [if_pos hnil, hnil]
    rfl
  · rw [if_neg hnil, symbolNames, List.filter_eq_self]
    intro name hmem
    have hname : name ≠ epsilon := by
      intro heq
      rw [heq] at hmem
      exact h hmem
    simp [hname]

/-- Rules that are written down state themselves. -/
theorem namedRules_writtenAs {rules : List (String × List String)}
    (h : ∀ rule ∈ rules, epsilon ∉ rule.2) : namedRules (rules.map writtenAs) = rules := by
  rw [namedRules_eq_flatMap, List.flatMap_map, ← List.flatMap_singleton' rules, List.flatMap_assoc]
  refine List.flatMap_congr fun rule hmem => ?_
  rw [List.flatMap_singleton]
  show [(rule.1, symbolNames (writtenBody rule.2))] = [rule]
  rw [symbolNames_writtenBody (h rule hmem)]

theorem alternativesRead_eq (definitions : List Definition) (name : String) :
    alternativesRead (listed definitions) name =
      ((namedRules definitions).filter (·.1 = name)).map Prod.snd := by
  rw [alternativesRead, namedRules, List.filter_map, List.map_map]
  rfl

theorem epsilon_notMem_of_mem_namedRules {rule : String × List String}
    (h : rule ∈ namedRules definitions) : epsilon ∉ rule.2 := by
  obtain ⟨entry, -, rfl⟩ := List.mem_map.mp h
  simp [symbolNames]

/-- The table has the rules that the definitions list. -/
theorem mem_tableRules_iff {rule : String × List String} :
    rule ∈ tableRules definitions ↔ rule ∈ namedRules definitions := by
  obtain ⟨name, names⟩ := rule
  have hbodies : names ∈ bodiesOf definitions name ↔ (name, names) ∈ namedRules definitions := by
    rw [(firstAppearances_bodiesOf definitions name).mem_iff, mem_namedRules_iff]
  rw [tableRules, List.mem_flatMap, ← hbodies]
  constructor
  · rintro ⟨other, -, hmem⟩
    obtain ⟨body, hbody, heq⟩ := List.mem_map.mp hmem
    obtain ⟨rfl, rfl⟩ := Prod.mk.inj heq
    exact hbody
  · intro hmem
    have hdefined : name ∈ definitions.map (·.name) :=
      mem_names_of_mem_namedRules (hbodies.mp hmem)
    exact ⟨name, mem_definedNames_iff.mpr hdefined, List.mem_map_of_mem hmem⟩

theorem namedRules_map_writtenAs (definitions : List Definition) :
    namedRules ((tableRules definitions).map writtenAs) = tableRules definitions :=
  namedRules_writtenAs fun _ hrule =>
    epsilon_notMem_of_mem_namedRules (mem_tableRules_iff.mp hrule)

/-- Of names in groups, those in the group of a name are what the name has. -/
theorem filter_flatMap_group {α β : Type} [DecidableEq α] {names : List α} (hnodup : names.Nodup)
    (group : α → List β) {name : α} (hname : name ∈ names) :
    ((names.flatMap fun other => (group other).map (other, ·)).filter (·.1 = name)).map Prod.snd =
      group name := by
  have hgroup : ∀ other, ((group other).map (other, ·)).filter (·.1 = name) =
      if other = name then (group other).map (other, ·) else [] := by
    intro other
    by_cases heq : other = name
    · simp [heq, List.filter_map, Function.comp_def]
    · simp [heq, List.filter_map, Function.comp_def]
  rw [List.filter_flatMap]
  simp only [hgroup]
  induction names with
  | nil => cases hname
  | cons first names ih =>
    obtain ⟨hnew, hnodup⟩ := List.nodup_cons.mp hnodup
    rw [List.flatMap_cons, List.map_append]
    by_cases heq : first = name
    · have hnone : (names.flatMap fun other =>
          if other = name then (group other).map (other, ·) else []) = [] := by
        refine List.flatMap_eq_nil_iff.mpr fun other hother => if_neg fun hsame => hnew ?_
        rw [heq, ← hsame]
        exact hother
      rw [if_pos heq, hnone, heq]
      simp [List.map_map, Function.comp_def]
    · rw [if_neg heq, List.map_nil, List.nil_append]
      exact ih hnodup ((List.mem_cons.mp hname).resolve_left (Ne.symm heq))

theorem bodiesOf_writtenAs {name : String} (h : name ∈ Definition.definedNames definitions) :
    bodiesOf ((tableRules definitions).map writtenAs) name = bodiesOf definitions name := by
  have hnodup := (ofDefinitions_unambiguous definitions).nonterminals_nodup
  have hread : alternativesRead (listed ((tableRules definitions).map writtenAs)) name =
      bodiesOf definitions name := by
    rw [alternativesRead_eq, namedRules_map_writtenAs]
    exact filter_flatMap_group hnodup (bodiesOf definitions) h
  have hfirsts := firstAppearances_bodiesOf ((tableRules definitions).map writtenAs) name
  rw [hread] at hfirsts
  exact hfirsts.unique (.of_nodup (firstAppearances_bodiesOf definitions name).nodup)

section Again

variable (hne : ∀ definition ∈ definitions, definition.alternatives ≠ [])
include hne

theorem bodiesOf_ne_nil {name : String} (h : name ∈ Definition.definedNames definitions) :
    bodiesOf definitions name ≠ [] := by
  obtain ⟨definition, hmem, rfl⟩ := List.mem_map.mp (mem_definedNames_iff.mp h)
  obtain ⟨alternative, halternative⟩ := List.exists_mem_of_ne_nil _ (hne definition hmem)
  suffices hbody : symbolNames alternative ∈ bodiesOf definitions definition.name from
    List.ne_nil_of_mem hbody
  rw [(firstAppearances_bodiesOf definitions _).mem_iff, ← mem_namedRules_iff,
    namedRules_eq_flatMap]
  exact List.mem_flatMap.mpr ⟨definition, hmem, List.mem_map_of_mem halternative⟩

theorem tableRules_ne_nil (hsome : definitions ≠ []) : tableRules definitions ≠ [] := by
  obtain ⟨definition, hmem⟩ := List.exists_mem_of_ne_nil _ hsome
  have hdefined : definition.name ∈ Definition.definedNames definitions :=
    mem_definedNames_iff.mpr (List.mem_map_of_mem hmem)
  obtain ⟨body, hbody⟩ := List.exists_mem_of_ne_nil _ (bodiesOf_ne_nil hne hdefined)
  exact List.ne_nil_of_mem (List.mem_flatMap.mpr ⟨_, hdefined, List.mem_map_of_mem hbody⟩)

theorem definedNames_writtenAs :
    Definition.definedNames ((tableRules definitions).map writtenAs) =
      Definition.definedNames definitions := by
  have hnodup := (ofDefinitions_unambiguous definitions).nonterminals_nodup
  have hgroups := FirstAppearances.flatMap hnodup fun name hname => bodiesOf_ne_nil hne hname
  have hnames : ((tableRules definitions).map writtenAs).map (·.name) =
      (Definition.definedNames definitions).flatMap fun name =>
        (bodiesOf definitions name).map fun _ => name := by
    rw [tableRules, List.map_flatMap, List.map_flatMap]
    simp only [List.map_map]
    rfl
  rw [← hnames] at hgroups
  exact FirstAppearances.unique (.eraseDups _) hgroups

/-- **Written down once more**, the rules are the same in the same order. -/
theorem tableRules_writtenAs :
    tableRules ((tableRules definitions).map writtenAs) = tableRules definitions := by
  rw [tableRules, definedNames_writtenAs hne, tableRules]
  refine List.flatMap_congr fun name hname => ?_
  rw [← tableRules, bodiesOf_writtenAs hname]

theorem namedBodies_writtenAs :
    (ofDefinitions ((tableRules definitions).map writtenAs)).namedBodies =
      (ofDefinitions definitions).namedBodies := by
  rw [namedBodies_ofDefinitions, namedBodies_ofDefinitions, definedNames_writtenAs hne]
  refine congrArg Except.ok (List.map_congr_left fun name hname => ?_)
  exact bodiesOf_writtenAs hname

/-- **It says the same**, under the same names. -/
theorem restates_writtenAs : Restates id definitions ((tableRules definitions).map writtenAs) where
  injective _ _ _ _ heq := heq
  leftSides := by
    rw [Finset.image_id]
    ext name
    rw [List.mem_toFinset, List.mem_toFinset, ← mem_definedNames_iff, ← mem_definedNames_iff,
      definedNames_writtenAs hne]
  rules := by
    have hid : renameRule id = id := by
      funext rule
      rw [renameRule, List.map_id]
      rfl
    rw [hid, Finset.image_id, namedRules_map_writtenAs]
    ext rule
    rw [List.mem_toFinset, List.mem_toFinset, mem_tableRules_iff]

theorem nullable_writtenAs :
    (ofDefinitions ((tableRules definitions).map writtenAs)).nullable =
      (ofDefinitions definitions).nullable := by
  have hsame := (restates_writtenAs hne).corresponds
  have hnames := definedNames_writtenAs hne
  generalize (tableRules definitions).map writtenAs = again at hsame hnames
  have hsize : (ofDefinitions again).nullable.size = (ofDefinitions definitions).nullable.size := by
    rw [size_nullable, size_nullable, (ofDefinitions_records again).length_rules,
      (ofDefinitions_records definitions).length_rules, hnames]
  refine Array.ext hsize fun id hid hid' => ?_
  -- the names being the same, a nonterminal corresponds to that of the same id
  have hlt : id < (Definition.definedNames definitions).length := by
    rw [← (ofDefinitions_records definitions).length_rules, ← size_nullable]
    exact hid'
  have hcounterparts : Counterparts (fun name => name) (ofDefinitions definitions)
      (ofDefinitions again) (.nonterminal id) (.nonterminal id) := by
    refine ⟨_, List.getElem?_eq_getElem hlt, ?_⟩
    show (Definition.definedNames again)[id]? = _
    rw [hnames]
    exact List.getElem?_eq_getElem hlt
  have hflag := hsame.isNullable_eq hcounterparts
  simp only [isNullable, Array.getD_eq_getD_getElem?, Array.getElem?_eq_getElem hid,
    Array.getElem?_eq_getElem hid', Option.getD_some] at hflag
  exact hflag.symm

end Again

end Grammar

end AmbiguitySearch
