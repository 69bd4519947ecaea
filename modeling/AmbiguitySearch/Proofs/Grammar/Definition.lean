import AmbiguitySearch.Proofs.Grammar.Declared

/-!
# The definitions, read back from the grammar

A grammar built from definitions can be asked for the names of its symbols, and then its
rules are the alternatives of the definitions again, united by name, without `epsilon` and
without repetitions (`States`). Nothing else can be found in it: the terminals are the names
that are used and not defined.

> `ofDefinitions_states`: that is so for all definitions, and moving the start later on
> changes the start and nothing else.
-/

namespace AmbiguitySearch

theorem bind_eq_ok {α β ε : Type} {result : Except ε α} {next : α → Except ε β} {final : β}
    (h : (result >>= next) = .ok final) : ∃ value, result = .ok value ∧ next value = .ok final := by
  cases result with
  | error problem => cases h
  | ok value => exact ⟨value, rfl, h⟩

theorem mapM_eq_ok_iff {α β ε : Type} {f : α → Except ε β} {items : List α} {results : List β} :
    items.mapM f = .ok results ↔
      List.Forall₂ (fun item result => f item = .ok result) items results := by
  constructor
  · intro h
    induction items generalizing results with
    | nil =>
      cases h
      exact .nil
    | cons item items ih =>
      rw [List.mapM_cons] at h
      obtain ⟨first, hfirst, h⟩ := bind_eq_ok h
      obtain ⟨rest, hrest, h⟩ := bind_eq_ok h
      cases h
      exact .cons hfirst (ih hrest)
  · intro h
    induction h with
    | nil => rfl
    | cons hfirst _ ih =>
      rw [List.mapM_cons, hfirst, ih]
      rfl

theorem exists_mapM_eq_ok {α β ε : Type} {f : α → Except ε β} :
    ∀ {items : List α}, (∀ item ∈ items, ∃ result, f item = .ok result) →
      ∃ results, items.mapM f = .ok results
  | [], _ => ⟨[], rfl⟩
  | item :: items, h => by
    obtain ⟨⟨result, hresult⟩, hrest⟩ := List.forall_mem_cons.mp h
    obtain ⟨results, hresults⟩ := exists_mapM_eq_ok hrest
    refine ⟨result :: results, ?_⟩
    rw [List.mapM_cons, hresult, hresults]
    rfl

theorem entry_eq_ok {α : Type} {table : List α} {index : Nat} (h : index < table.length) :
    entry table index = .ok table[index] :=
  entry_eq_ok_iff.mpr (List.getElem?_eq_getElem h)

theorem getD_of_entry {α : Type} {table : List α} {index : Nat} {found : α}
    (h : entry table index = .ok found) (default : α) : table.getD index default = found := by
  rw [List.getD_eq_getElem?_getD, entry_eq_ok_iff.mp h, Option.getD_some]

namespace Grammar

variable {g : Grammar} {definitions : List Definition}

/-! ## What is listed, by definition -/

theorem flatMap_listed (definitions : List Definition) :
    (listed definitions).flatMap Prod.snd = definitions.flatMap (·.alternatives.flatten) := by
  rw [listed, List.flatMap_assoc]
  refine List.flatMap_congr fun definition _ => ?_
  rw [List.flatMap_map, List.flatMap_id']

theorem alternativesRead_listed (definitions : List Definition) (name : String) :
    alternativesRead (listed definitions) name =
      ((definitions.filter (·.name = name)).flatMap (·.alternatives)).map symbolNames := by
  unfold alternativesRead listed
  induction definitions with
  | nil => rfl
  | cons first definitions ih =>
    rw [List.flatMap_cons, List.filter_append, List.map_append, ih, List.filter_cons]
    by_cases hname : first.name = name
    · simp [hname, List.filter_map, Function.comp_def]
    · simp [hname, List.filter_map, Function.comp_def]

/-- The names of a form, asked of the grammar. -/
theorem mapM_name_eq_ok {form : Form} {names : List String}
    (h : Spelled g.nonterminals g.terminals form names) : form.mapM g.name = .ok names :=
  mapM_eq_ok_iff.mpr (h.imp fun _ _ => name_eq_ok_iff.mpr)

/-- A form is spelled by the names of its symbols, if all of them have one. -/
theorem spellForm_eq_ok_of_mapM {form : Form} {names : List String}
    (h : form.mapM g.name = .ok names) :
    g.spellForm form = .ok (if names = [] then epsilon else " ".intercalate names) := by
  cases form with
  | nil =>
    cases h
    rfl
  | cons symbol rest =>
    have hne : names ≠ [] := by
      cases mapM_eq_ok_iff.mp h
      exact List.cons_ne_nil _ _
    rw [spellForm, h, if_neg hne]
    · rfl
    · exact nofun

/-! ## Moving the start -/

/-- Moves the start to the nonterminal of that name. Without one nothing happens. -/
def moveStart (g : Grammar) (name : String) : Grammar := (g.withStart? name).getD g

theorem withStart?_eq_none_iff {name : String} :
    g.withStart? name = none ↔ name ∉ g.nonterminals := by
  rw [withStart?, Option.map_eq_none_iff, List.idxOf?_eq_none_iff]

theorem exists_withStart?_eq_some {name : String} (h : name ∈ g.nonterminals) :
    ∃ id, g.nonterminals[id]? = some name ∧ g.withStart? name = some { g with start := id } := by
  cases hfound : g.nonterminals.idxOf? name with
  | none => exact absurd h (List.idxOf?_eq_none_iff.mp hfound)
  | some id =>
    obtain ⟨hlt, hget, -⟩ := List.idxOf?_eq_some_iff.mp hfound
    refine ⟨id, List.getElem?_eq_some_iff.mpr ⟨hlt, hget⟩, ?_⟩
    rw [withStart?, hfound]
    rfl

/-- One move leaves everything but the start alone, and the start declared. -/
theorem moveStart_eq (g : Grammar) (name : String) :
    ∃ start, g.moveStart name = { g with start } ∧
      (start = g.start ∨ start < g.nonterminals.length) := by
  by_cases hdefined : name ∈ g.nonterminals
  · obtain ⟨id, hid, hmoved⟩ := exists_withStart?_eq_some hdefined
    rw [moveStart, hmoved]
    exact ⟨id, rfl, .inr (List.getElem?_eq_some_iff.mp hid).1⟩
  · rw [moveStart, withStart?_eq_none_iff.mpr hdefined]
    exact ⟨g.start, rfl, .inl rfl⟩

/-- So do any number of moves. -/
theorem foldl_moveStart_eq (names : List String) (g : Grammar) :
    ∃ start, names.foldl moveStart g = { g with start } ∧
      (start = g.start ∨ start < g.nonterminals.length) := by
  induction names generalizing g with
  | nil => exact ⟨g.start, rfl, .inl rfl⟩
  | cons name names ih =>
    obtain ⟨first, hfirst, hdeclared⟩ := g.moveStart_eq name
    obtain ⟨start, hmoved, hlast⟩ := ih (g.moveStart name)
    rw [hfirst] at hmoved hlast
    refine ⟨start, by rw [List.foldl_cons, hfirst, hmoved], ?_⟩
    rcases hlast with rfl | hlt
    · exact hdeclared
    · exact .inr hlt

/-- Moving the start keeps to the grammars there are. -/
theorem Loaded.foldl_moveStart (hg : g.Loaded) (names : List String) :
    (names.foldl moveStart g).Loaded := by
  induction names generalizing g with
  | nil => exact hg
  | cons name names ih =>
    rw [List.foldl_cons]
    apply ih
    cases hmoved : g.withStart? name with
    | none =>
      rw [moveStart, hmoved]
      exact hg
    | some moved =>
      rw [moveStart, hmoved]
      exact hg.withStart hmoved

/-! ## The statement -/

/-- The tables and the rules say what the definitions say. -/
structure States (definitions : List Definition) (g : Grammar) : Prop where
  nonterminals : FirstAppearances (definitions.map (·.name)) g.nonterminals
  terminals : FirstAppearances ((definitions.flatMap (·.alternatives.flatten)).filter fun name =>
    name ≠ epsilon ∧ name ∉ definitions.map (·.name)) g.terminals
  nodup_nonterminals : g.nonterminals.Nodup
  nodup_terminals : g.terminals.Nodup
  disjoint : g.nonterminals.Disjoint g.terminals
  length_rules : g.rules.length = g.nonterminals.length
  declares : ∀ bodies ∈ g.rules, ∀ body ∈ bodies, ∀ symbol ∈ body, g.Declares symbol
  /-- The names of the rules are the alternatives without `epsilon`, each once. -/
  rules : ∀ (id : Nat) (name : String), g.nonterminals[id]? = some name →
    ∃ bodies spelled, g.rules[id]? = some bodies ∧
      bodies.mapM (fun body => body.mapM g.name) = .ok spelled ∧
        FirstAppearances (((definitions.filter (·.name = name)).flatMap (·.alternatives)).map
          fun alternative => alternative.filter (· ≠ epsilon)) spelled

theorem states_ofDefinitions (definitions : List Definition) :
    States definitions (ofDefinitions definitions) := by
  have hrecords := ofDefinitions_records definitions
  have htables := ofDefinitions_unambiguous definitions
  refine ⟨.eraseDups _, ?_, htables.nonterminals_nodup, htables.terminals_nodup, htables.disjoint,
    hrecords.length_rules, Loaded.declares_of_mem_rules (.ofDefinitions definitions), ?_⟩
  · have hterminals := hrecords.terminals
    rw [flatMap_listed, terminalNames] at hterminals
    simp only [Definition.definedNames, List.mem_eraseDups] at hterminals
    exact hterminals
  · intro id name hname
    obtain ⟨bodies, spelled, hbodies, hspelled, hfirsts⟩ := hrecords.rules id name hname
    rw [alternativesRead_listed] at hfirsts
    have hnames := mapM_eq_ok_iff.mpr (hspelled.imp fun _ _ => mapM_name_eq_ok)
    exact ⟨bodies, spelled, hbodies, hnames, hfirsts⟩

/-- **The grammar says what the definitions say**, whatever they are. Afterwards the start
can be moved any number of times, to names that are defined and names that are not: nothing
but the start changes, it stays declared if there is a nonterminal, and a move to a name that
is not defined does nothing. -/
theorem ofDefinitions_states (definitions : List Definition) :
    States definitions (ofDefinitions definitions) ∧
    ∀ names : List String, ∃ start,
      names.foldl moveStart (ofDefinitions definitions) =
        { ofDefinitions definitions with start } ∧
      (definitions ≠ [] → start < (ofDefinitions definitions).nonterminals.length) ∧
      ∀ name, (name ∈ definitions.map (·.name) →
          ∃ id, (ofDefinitions definitions).nonterminals[id]? = some name ∧
            (names.foldl moveStart (ofDefinitions definitions)).withStart? name =
              some { ofDefinitions definitions with start := id }) ∧
        (name ∉ definitions.map (·.name) →
          (names.foldl moveStart (ofDefinitions definitions)).withStart? name = none ∧
            (names ++ [name]).foldl moveStart (ofDefinitions definitions) =
              names.foldl moveStart (ofDefinitions definitions)) := by
  have hstates := states_ofDefinitions definitions
  refine ⟨hstates, fun names => ?_⟩
  obtain ⟨start, hmoved, hstart⟩ := foldl_moveStart_eq names (ofDefinitions definitions)
  refine ⟨start, hmoved, ?_, fun name => ⟨?_, ?_⟩⟩
  · intro hne
    obtain ⟨definition, hmem⟩ := List.exists_mem_of_ne_nil _ hne
    have hdefined := (hstates.nonterminals.mem_iff _).mpr (List.mem_map_of_mem hmem)
    rcases hstart with rfl | hlt
    · exact List.length_pos_of_mem hdefined
    · exact hlt
  · intro hdefined
    rw [hmoved]
    exact exists_withStart?_eq_some ((hstates.nonterminals.mem_iff name).mpr hdefined)
  · intro hundefined
    have hnone : (names.foldl moveStart (ofDefinitions definitions)).withStart? name = none := by
      rw [hmoved]
      exact withStart?_eq_none_iff.mpr fun hmem =>
        hundefined ((hstates.nonterminals.mem_iff name).mp hmem)
    refine ⟨hnone, ?_⟩
    rw [List.foldl_concat, moveStart, hnone]
    rfl

/-- Bodies that are equal once `epsilon` is gone are one body, and `T` is no terminal for
being used before it is defined. -/
example : (ofDefinitions [⟨"S", [["a", "epsilon"], ["T"]]⟩, ⟨"T", [["b"]]⟩,
    ⟨"S", [["epsilon", "a"], ["epsilon"]]⟩]).rules =
      [[[.terminal 0], [.nonterminal 1], []], [[.terminal 1]]] := by decide

end Grammar

end AmbiguitySearch
