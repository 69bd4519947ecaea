import AmbiguitySearch.Proofs.Grammar.Definition
import AmbiguitySearch.Proofs.Grammar.Nullable

/-!
# Definitions of other names

Ids, the numbers of terminals and the flags are all made from the whole of a list of
definitions. But definitions that come after others and define none of the names that
those write (`Definition.written`) only add to the tables: what was there stays where it
was (`Extends`). They may use the names that are there, bring in terminals and vanish.

Terminals and bodies stay because the later definitions turn no terminal into a
nonterminal and give no nonterminal another body. For the flags this is not enough, as
they are found by passes over all the rules. They stay because a flag depends on
declared symbols alone:

> `Extends.isNullable_eq`: a declared symbol vanishes in both grammars or in none.

> `extends_ofDefinitions`: definitions of other names extend a grammar.
-/

namespace AmbiguitySearch

theorem FirstAppearances.isPrefix {α : Type} [DecidableEq α] {items more kept kept' : List α}
    (h : FirstAppearances items kept) (h' : FirstAppearances (items ++ more) kept') :
    kept <+: kept' := by
  rw [h.unique (.eraseDups items), h'.unique (.eraseDups (items ++ more)), List.eraseDups_append]
  exact List.prefix_append _ _

/-- More nonterminals and more terminals leave the names alone. -/
theorem nameIn_of_isPrefix {nonterminals nonterminals' terminals terminals' : List String}
    (hnonterminals : nonterminals <+: nonterminals') (hterminals : terminals <+: terminals')
    {symbol : Symbol} {name : String} (hname : nameIn nonterminals terminals symbol = some name) :
    nameIn nonterminals' terminals' symbol = some name := by
  refine nameIn_mono hterminals ?_
  cases symbol with
  | terminal id => exact hname
  | nonterminal id =>
    obtain ⟨hlt, rfl⟩ := List.getElem?_eq_some_iff.mp hname
    exact List.prefix_iff_getElem?.mp hnonterminals id hlt

/-- Every name that some definitions write, on the left or in an alternative. -/
def Definition.written (definitions : List Definition) : List String :=
  definitions.flatMap fun definition => definition.name :: definition.alternatives.flatten

namespace Grammar

theorem moveStart_of_idxOf? {g : Grammar} {name : String} {id : Nat}
    (h : g.nonterminals.idxOf? name = some id) : g.moveStart name = { g with start := id } := by
  rw [moveStart, withStart?, h]
  rfl

/-- Everything that the second grammar has, the first one has in the same place. -/
structure Extends (g' g : Grammar) : Prop where
  nonterminals : g.nonterminals <+: g'.nonterminals
  terminals : g.terminals <+: g'.terminals
  rules : g.rules <+: g'.rules
  start_eq : g'.start = g.start

namespace Extends

variable {g g' : Grammar} {symbol : Symbol} {name : String}

theorem withStart (h : g'.Extends g) (start : Nat) :
    Extends { g' with start } { g with start } :=
  ⟨h.nonterminals, h.terminals, h.rules, rfl⟩

theorem bodies_eq (h : g'.Extends g) (hg : g.Loaded) {id : Nat}
    (hid : g.Declares (.nonterminal id)) : g'.bodies id = g.bodies id := by
  have hlt : id < g.rules.length := by
    rw [hg.length_rules]
    exact hid
  rw [bodies, bodies, List.getD_eq_getElem?_getD, List.getD_eq_getElem?_getD,
    List.prefix_iff_getElem?.mp h.rules id hlt, List.getElem?_eq_getElem hlt]

/-- A nonterminal that vanishes goes on to do so. -/
theorem isNullable_of (h : g'.Extends g) (hg : g.Loaded) {id : Nat}
    (hid : g.isNullable (.nonterminal id) = true) : g'.isNullable (.nonterminal id) = true := by
  have hclosed : ∀ id, ∀ body ∈ g.bodies id, (∀ symbol ∈ body, ∃ inner,
      symbol = .nonterminal inner ∧ g'.isNullable (.nonterminal inner) = true) →
        g'.isNullable (.nonterminal id) = true := by
    intro id body hb hbody
    have hdeclared : g.Declares (.nonterminal id) := hg.lt_of_mem_bodies hb
    refine (g'.isNullable_nonterminal_iff id).mpr ⟨body, h.bodies_eq hg hdeclared ▸ hb, ?_⟩
    rw [List.all_eq_true]
    intro symbol hmem
    obtain ⟨inner, rfl, hinner⟩ := hbody symbol hmem
    exact hinner
  exact isNullable_of_closed hclosed hid

/-- Only by the bodies that it had before does a nonterminal vanish. -/
theorem isNullable_of_extended (h : g'.Extends g) (hg : g.Loaded) {id : Nat}
    (hid : g'.isNullable (.nonterminal id) = true) (hdeclared : g.Declares (.nonterminal id)) :
    g.isNullable (.nonterminal id) = true := by
  have hclosed : ∀ id, ∀ body ∈ g'.bodies id, (∀ symbol ∈ body, ∃ inner,
      symbol = .nonterminal inner ∧
        (g.Declares (.nonterminal inner) → g.isNullable (.nonterminal inner) = true)) →
          g.Declares (.nonterminal id) → g.isNullable (.nonterminal id) = true := by
    intro id body hb hbody hdeclared
    rw [h.bodies_eq hg hdeclared] at hb
    refine (g.isNullable_nonterminal_iff id).mpr ⟨body, hb, ?_⟩
    rw [List.all_eq_true]
    intro symbol hmem
    obtain ⟨inner, rfl, hinner⟩ := hbody symbol hmem
    exact hinner (hg.declares_of_mem_bodies hb _ hmem)
  exact isNullable_of_closed hclosed hid hdeclared

/-- **A flag depends on declared symbols alone.** -/
theorem isNullable_eq (h : g'.Extends g) (hg : g.Loaded) (hsymbol : g.Declares symbol) :
    g'.isNullable symbol = g.isNullable symbol := by
  cases symbol with
  | terminal id => rfl
  | nonterminal id =>
    rw [Bool.eq_iff_iff]
    exact ⟨fun hid => h.isNullable_of_extended hg hid hsymbol, h.isNullable_of hg⟩

/-- The table of flags begins with the flags there were. -/
theorem nullable_isPrefix (h : g'.Extends g) (hg : g.Loaded) :
    g.nullable.toList <+: g'.nullable.toList := by
  refine List.prefix_iff_getElem?.mpr ?_
  intro id hid
  have hlt : id < g.rules.length := by
    rw [← g.size_nullable, ← Array.length_toList]
    exact hid
  have hlt' : id < g'.nullable.size := by
    rw [g'.size_nullable]
    exact Nat.lt_of_lt_of_le hlt h.rules.length_le
  have hdeclared : g.Declares (.nonterminal id) := lt_of_lt_of_eq hlt hg.length_rules
  have hflag := h.isNullable_eq hg hdeclared
  rw [isNullable, isNullable, Array.getD_eq_getD_getElem?, Array.getD_eq_getD_getElem?,
    Array.getElem?_eq_getElem hlt', Array.getElem?_eq_getElem hid] at hflag
  rw [Array.getElem?_toList, Array.getElem?_eq_getElem hlt', Array.getElem_toList]
  exact congrArg some hflag

/-- Every name goes on to stand for its symbol. -/
theorem symbol?_eq_some (h : g'.Extends g) (hg' : g'.Loaded)
    (hsymbol : g.symbol? name = some symbol) : g'.symbol? name = some symbol := by
  unfold symbol? lookUp at hsymbol ⊢
  cases hid : g.nonterminals.idxOf? name with
  | some id =>
    have hid' : g'.nonterminals.idxOf? name = some id := h.nonterminals.findIdx?_eq_some hid
    rw [hid] at hsymbol
    rw [hid']
    exact hsymbol
  | none =>
    rw [hid] at hsymbol
    obtain ⟨id, hterminal, rfl⟩ := Option.map_eq_some_iff.mp hsymbol
    have hterminal' : g'.terminals.idxOf? name = some id := h.terminals.findIdx?_eq_some hterminal
    obtain ⟨hlt, hget, -⟩ := List.idxOf?_eq_some_iff.mp hterminal'
    have hnone : g'.nonterminals.idxOf? name = none :=
      List.idxOf?_eq_none_iff.mpr fun hmem =>
        hg'.unambiguous.disjoint hmem (hget ▸ List.getElem_mem hlt)
    rw [hnone, hterminal']
    rfl

/-- A name that was defined means the same start in both. -/
theorem moveStart (h : g'.Extends g) (hname : name ∈ g.nonterminals) :
    (g'.moveStart name).Extends (g.moveStart name) := by
  cases hid : g.nonterminals.idxOf? name with
  | none => exact absurd hname (List.idxOf?_eq_none_iff.mp hid)
  | some id =>
    have hid' : g'.nonterminals.idxOf? name = some id := h.nonterminals.findIdx?_eq_some hid
    rw [moveStart_of_idxOf? hid, moveStart_of_idxOf? hid']
    exact h.withStart id

theorem foldl_moveStart {names : List String} (h : g'.Extends g)
    (hnames : ∀ name ∈ names, name ∈ g.nonterminals) :
    (names.foldl Grammar.moveStart g').Extends (names.foldl Grammar.moveStart g) := by
  induction names generalizing g g' with
  | nil => exact h
  | cons name names ih =>
    obtain ⟨hname, hlater⟩ := List.forall_mem_cons.mp hnames
    obtain ⟨start, hmoved, -⟩ := g.moveStart_eq name
    refine ih (h.moveStart hname) ?_
    rw [hmoved]
    exact hlater

end Extends

/-! ## Definitions that come after others -/

section Apart

variable {definitions more : List Definition} {name : String}

theorem mem_written_of_mem_definedNames (h : name ∈ Definition.definedNames definitions) :
    name ∈ Definition.written definitions := by
  obtain ⟨definition, hmem, rfl⟩ := List.mem_map.mp (List.mem_eraseDups.mp h)
  exact List.mem_flatMap.mpr ⟨definition, hmem, List.mem_cons_self ..⟩

theorem mem_written_of_mem_listed (h : name ∈ (listed definitions).flatMap Prod.snd) :
    name ∈ Definition.written definitions := by
  rw [flatMap_listed] at h
  obtain ⟨definition, hmem, hname⟩ := List.mem_flatMap.mp h
  exact List.mem_flatMap.mpr ⟨definition, hmem, List.mem_cons_of_mem _ hname⟩

theorem listed_append (definitions more : List Definition) :
    listed (definitions ++ more) = listed definitions ++ listed more :=
  List.flatMap_append

theorem definedNames_isPrefix (definitions more : List Definition) :
    Definition.definedNames definitions <+: Definition.definedNames (definitions ++ more) := by
  unfold Definition.definedNames
  rw [List.map_append, List.eraseDups_append]
  exact List.prefix_append _ _

variable (hapart : ∀ definition ∈ more, definition.name ∉ Definition.written definitions)

include hapart

/-- No name that was written comes to be defined. -/
theorem mem_definedNames_append_iff (hname : name ∈ Definition.written definitions) :
    name ∈ Definition.definedNames (definitions ++ more) ↔
      name ∈ Definition.definedNames definitions := by
  have hundefined : name ∉ more.map (·.name) := by
    intro hmem
    obtain ⟨definition, hmore, rfl⟩ := List.mem_map.mp hmem
    exact hapart definition hmore hname
  unfold Definition.definedNames
  rw [List.mem_eraseDups, List.mem_eraseDups, List.map_append, List.mem_append,
    or_iff_left hundefined]

/-- The terminals met last are those of the later definitions. -/
theorem terminals_isPrefix :
    (ofDefinitions definitions).terminals <+: (ofDefinitions (definitions ++ more)).terminals := by
  have hterminals := (ofDefinitions_records (definitions ++ more)).terminals
  have hsame : terminalNames (Definition.definedNames (definitions ++ more))
      ((listed definitions).flatMap Prod.snd) =
        terminalNames (Definition.definedNames definitions)
          ((listed definitions).flatMap Prod.snd) := by
    refine List.filter_congr fun name hname => ?_
    simp only [mem_definedNames_append_iff hapart (mem_written_of_mem_listed hname)]
  rw [listed_append, List.flatMap_append, terminalNames_append, hsame] at hterminals
  exact (ofDefinitions_records definitions).terminals.isPrefix hterminals

/-- A name that was defined has no other alternatives than before. -/
theorem alternativesRead_append (hname : name ∈ Definition.definedNames definitions) :
    alternativesRead (listed (definitions ++ more)) name =
      alternativesRead (listed definitions) name := by
  have hnone : (listed more).filter (·.1 = name) = [] := by
    refine List.filter_eq_nil_iff.mpr fun entry hentry => ?_
    obtain ⟨definition, hmem, hentry⟩ := List.mem_flatMap.mp hentry
    obtain ⟨alternative, -, rfl⟩ := List.mem_map.mp hentry
    simp only [decide_eq_true_eq]
    rintro rfl
    exact hapart definition hmem (mem_written_of_mem_definedNames hname)
  rw [alternativesRead, listed_append, List.filter_append, hnone, List.append_nil]
  rfl

/-- The same alternatives are the same bodies, since every symbol keeps its name. -/
theorem rules_isPrefix :
    (ofDefinitions definitions).rules <+: (ofDefinitions (definitions ++ more)).rules := by
  have hrecords := ofDefinitions_records definitions
  have hnonterminals := definedNames_isPrefix definitions more
  refine List.prefix_iff_getElem?.mpr ?_
  intro id hid
  have hlt : id < (Definition.definedNames definitions).length := hrecords.length_rules ▸ hid
  have hname := List.getElem?_eq_getElem hlt
  have hname' := List.prefix_iff_getElem?.mp hnonterminals id hlt
  obtain ⟨bodies, spelled, hbodies, hspelled, hfirsts⟩ := hrecords.rules id _ hname
  obtain ⟨bodies', spelled', hbodies', hspelled', hfirsts'⟩ :=
    (ofDefinitions_records (definitions ++ more)).rules id _ hname'
  rw [alternativesRead_append hapart (List.getElem_mem hlt)] at hfirsts'
  obtain rfl := hfirsts.unique hfirsts'
  have hkept := hspelled.imp fun _ _ hbody => hbody.imp fun _ _ =>
    nameIn_of_isPrefix hnonterminals (terminals_isPrefix hapart)
  have hsame : bodies' = bodies := by
    refine List.left_unique_forall₂' ?_ hspelled' hkept
    intro body body' names hbody hbody'
    exact hbody.form_eq (ofDefinitions_unambiguous _) hbody'
  rw [hbodies', hsame, ← hbodies]
  exact List.getElem?_eq_getElem hid

/-- **Definitions of other names extend a grammar.** -/
theorem extends_ofDefinitions :
    (ofDefinitions (definitions ++ more)).Extends (ofDefinitions definitions) where
  nonterminals := definedNames_isPrefix definitions more
  terminals := terminals_isPrefix hapart
  rules := rules_isPrefix hapart
  start_eq := rfl

end Apart

end Grammar

end AmbiguitySearch
