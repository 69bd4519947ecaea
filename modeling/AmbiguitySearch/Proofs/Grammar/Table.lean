import AmbiguitySearch.Grammar.Spelling
import Mathlib.Data.List.Forall2
import Mathlib.Data.List.Induction
import Mathlib.Data.List.Nodup

/-!
# The table says what the definitions say

A table is collected alternative by alternative, with terminals numbered as they are
met. What has been read so far can be told from it at any time (`Collected.Records`):
the terminals are the names that were read and are not defined, and the bodies of a
nonterminal are its alternatives as far as they were read, both in the order of their
first appearance (`FirstAppearances`).

One alternative keeps this up (`Collected.Records.addAlternative`). The ids handed out
before it stay valid, since terminals are only ever added at the end, and its body is one
of those there are exactly if it is spelled like one, since different ids have different
names (`nameIn_injective`).
-/

namespace AmbiguitySearch

/-- The distinct items of a list, in the order in which they first appear. -/
structure FirstAppearances {α : Type} [DecidableEq α] (items kept : List α) : Prop where
  mem_iff : ∀ item, item ∈ kept ↔ item ∈ items
  ordered : kept.Pairwise fun earlier later => items.idxOf earlier < items.idxOf later

namespace FirstAppearances

variable {α : Type} [DecidableEq α] {items kept kept' : List α}

theorem nil : FirstAppearances ([] : List α) [] where
  mem_iff _ := Iff.rfl
  ordered := .nil

theorem nodup (h : FirstAppearances items kept) : kept.Nodup := by
  refine List.Pairwise.imp (fun hlt heq => ?_) h.ordered
  rw [heq] at hlt
  exact Nat.lt_irrefl _ hlt

/-- There is only one such list. -/
theorem unique (h : FirstAppearances items kept) (h' : FirstAppearances items kept') :
    kept = kept' := by
  have hmem : ∀ item, item ∈ kept ↔ item ∈ kept' := fun item =>
    (h.mem_iff item).trans (h'.mem_iff item).symm
  have hperm := (List.perm_ext_iff_of_nodup h.nodup h'.nodup).mpr hmem
  refine hperm.eq_of_pairwise ?_ h.ordered h'.ordered
  intro item item' _ _ hlt hgt
  exact absurd hlt (Nat.lt_asymm hgt)

/-- One more item is a first appearance unless it is there. -/
theorem concat (h : FirstAppearances items kept) (item : α) :
    FirstAppearances (items ++ [item]) (if item ∈ kept then kept else kept ++ [item]) := by
  have hidx : ∀ {old : α}, old ∈ kept → (items ++ [item]).idxOf old = items.idxOf old :=
    fun hold => List.idxOf_append_of_mem ((h.mem_iff _).mp hold)
  have hordered : kept.Pairwise fun earlier later =>
      (items ++ [item]).idxOf earlier < (items ++ [item]).idxOf later := by
    refine h.ordered.imp_of_mem fun hearlier hlater hlt => ?_
    rw [hidx hearlier, hidx hlater]
    exact hlt
  split
  next hmem =>
    refine ⟨fun other => ?_, hordered⟩
    rw [List.mem_append, List.mem_singleton, ← h.mem_iff]
    exact ⟨.inl, fun hor => hor.elim id fun heq => heq ▸ hmem⟩
  next hnew =>
    refine ⟨fun other => ?_, ?_⟩
    · rw [List.mem_append, List.mem_append, h.mem_iff]
    · refine List.pairwise_append.mpr ⟨hordered, List.pairwise_singleton _ _, ?_⟩
      intro old hold other hother
      obtain rfl := List.mem_singleton.mp hother
      have hlt := List.idxOf_lt_length_of_mem ((h.mem_iff old).mp hold)
      rw [hidx hold, List.idxOf_append_of_notMem fun hitem => hnew ((h.mem_iff _).mpr hitem)]
      omega

theorem eraseDups_concat (items : List α) (item : α) : (items ++ [item]).eraseDups =
    if item ∈ items.eraseDups then items.eraseDups else items.eraseDups ++ [item] := by
  rw [List.eraseDups_append]
  by_cases hmem : item ∈ items
  · simp [List.removeAll, hmem]
  · simp [List.removeAll, hmem, List.eraseDups_cons]

theorem eraseDups (items : List α) : FirstAppearances items items.eraseDups := by
  induction items using List.reverseRecOn with
  | nil => exact nil
  | append_singleton items item ih =>
    rw [eraseDups_concat]
    exact ih.concat item

/-- Items without repetitions all appear for the first time. -/
theorem of_nodup (h : items.Nodup) : FirstAppearances items items where
  mem_iff _ := Iff.rfl
  ordered := by
    refine List.pairwise_iff_getElem.mpr fun id id' hid hid' hlt => ?_
    rw [h.idxOf_getElem, h.idxOf_getElem]
    exact hlt

/-- Items that come in groups appear in the order of their groups. -/
theorem flatMap {β : Type} {names : List α} (hnodup : names.Nodup)
    {group : α → List β} (hgroup : ∀ name ∈ names, group name ≠ []) :
    FirstAppearances (names.flatMap fun name => (group name).map fun _ => name) names := by
  induction names with
  | nil => exact .nil
  | cons first names ih =>
    obtain ⟨hnew, hnodup⟩ := List.nodup_cons.mp hnodup
    obtain ⟨hfirst, hgroup⟩ := List.forall_mem_cons.mp hgroup
    have hrest := ih hnodup hgroup
    have hfront : ∀ item ∈ (group first).map fun _ => first, item = first := by
      intro item hitem
      obtain ⟨-, -, rfl⟩ := List.mem_map.mp hitem
      rfl
    have hmem : first ∈ (group first).map fun _ => first := by
      obtain ⟨element, helement⟩ := List.exists_mem_of_ne_nil _ hfirst
      exact List.mem_map_of_mem (f := fun _ => first) helement
    rw [List.flatMap_cons]
    generalize (group first).map (fun _ => first) = front at hfront hmem
    generalize (names.flatMap fun name => (group name).map fun _ => name) = later at hrest
    have hlater : ∀ other ∈ names,
        (front ++ later).idxOf other = front.length + later.idxOf other := by
      intro other hother
      have habsent : other ∉ front := by
        intro hin
        rw [← hfront other hin] at hnew
        exact hnew hother
      exact List.idxOf_append_of_notMem habsent
    refine ⟨fun item => ?_, List.pairwise_cons.mpr ⟨?_, hrest.ordered.imp_of_mem ?_⟩⟩
    · rw [List.mem_cons, List.mem_append, hrest.mem_iff]
      constructor
      · rintro (rfl | hitem)
        · exact Or.inl hmem
        · exact Or.inr hitem
      · rintro (hitem | hitem)
        · exact Or.inl (hfront item hitem)
        · exact Or.inr hitem
    · intro other hother
      have hlt : front.idxOf first < front.length := List.idxOf_lt_length_of_mem hmem
      have hidx : (front ++ later).idxOf first = front.idxOf first :=
        List.idxOf_append_of_mem hmem
      rw [hidx, hlater other hother]
      omega
    · intro earlier other hearlier hother hlt
      rw [hlater earlier hearlier, hlater other hother]
      omega

end FirstAppearances

/-! ## Symbols and their names -/

/-- The name of a symbol in a pair of tables. -/
def nameIn (nonterminals terminals : List String) : Symbol → Option String
  | .terminal id => terminals[id]?
  | .nonterminal id => nonterminals[id]?

/-- The names of the symbols of a form. -/
def Spelled (nonterminals terminals : List String) : Form → List String → Prop :=
  List.Forall₂ fun symbol name => nameIn nonterminals terminals symbol = some name

variable {nonterminals terminals more : List String}

theorem Grammar.name_eq_ok_iff {g : Grammar} {symbol : Symbol} {name : String} :
    g.name symbol = .ok name ↔ nameIn g.nonterminals g.terminals symbol = some name := by
  cases symbol with
  | terminal id => exact entry_eq_ok_iff
  | nonterminal id => exact entry_eq_ok_iff

/-- More terminals leave the names alone. -/
theorem nameIn_mono (h : terminals <+: more) {symbol : Symbol} {name : String}
    (hname : nameIn nonterminals terminals symbol = some name) :
    nameIn nonterminals more symbol = some name := by
  cases symbol with
  | nonterminal id => exact hname
  | terminal id =>
    obtain ⟨new, rfl⟩ := h
    obtain ⟨hlt, -⟩ := List.getElem?_eq_some_iff.mp hname
    show (terminals ++ new)[id]? = some name
    rw [List.getElem?_append_left hlt]
    exact hname

theorem Spelled.mono (h : terminals <+: more) {form : Form} {names : List String}
    (hspelled : Spelled nonterminals terminals form names) :
    Spelled nonterminals more form names :=
  hspelled.imp fun _ _ => nameIn_mono h

theorem eq_of_getElem?_eq {names : List String} (hnodup : names.Nodup) {id id' : Nat}
    {name : String} (h : names[id]? = some name) (h' : names[id']? = some name) : id = id' := by
  obtain ⟨hlt, -⟩ := List.getElem?_eq_some_iff.mp h
  exact (List.getElem?_inj hlt hnodup).mp (h.trans h'.symm)

/-- Two tables that name no two things alike. -/
structure Unambiguous (nonterminals terminals : List String) : Prop where
  nonterminals_nodup : nonterminals.Nodup
  terminals_nodup : terminals.Nodup
  disjoint : nonterminals.Disjoint terminals

/-- Different symbols have different names. -/
theorem nameIn_injective (h : Unambiguous nonterminals terminals) {symbol symbol' : Symbol}
    {name : String} (hname : nameIn nonterminals terminals symbol = some name)
    (hname' : nameIn nonterminals terminals symbol' = some name) : symbol = symbol' := by
  cases symbol with
  | terminal id =>
    cases symbol' with
    | terminal id' => rw [eq_of_getElem?_eq h.terminals_nodup hname hname']
    | nonterminal id' =>
      exact (h.disjoint (List.mem_of_getElem? hname') (List.mem_of_getElem? hname)).elim
  | nonterminal id =>
    cases symbol' with
    | terminal id' =>
      exact (h.disjoint (List.mem_of_getElem? hname) (List.mem_of_getElem? hname')).elim
    | nonterminal id' => rw [eq_of_getElem?_eq h.nonterminals_nodup hname hname']

theorem Spelled.form_eq (h : Unambiguous nonterminals terminals) {form form' : Form}
    {names : List String} (hspelled : Spelled nonterminals terminals form names)
    (hspelled' : Spelled nonterminals terminals form' names) : form = form' := by
  refine List.left_unique_forall₂' ?_ hspelled hspelled'
  intro symbol symbol' name hname hname'
  exact nameIn_injective h hname hname'

theorem Spelled.names_eq {form : Form} {names names' : List String}
    (hspelled : Spelled nonterminals terminals form names)
    (hspelled' : Spelled nonterminals terminals form names') : names = names' := by
  refine List.right_unique_forall₂' ?_ hspelled hspelled'
  intro symbol name name' hname hname'
  exact Option.some.inj (hname.symm.trans hname')

theorem exists_of_mem_of_forall₂ {α β : Type} {related : α → β → Prop} {items : List α}
    {others : List β} {item : α} (h : List.Forall₂ related items others) (hmem : item ∈ items) :
    ∃ other ∈ others, related item other := by
  induction h with
  | nil => cases hmem
  | @cons _ first _ _ hfirst _ ih =>
    rcases List.mem_cons.mp hmem with rfl | hmem
    · exact ⟨first, List.mem_cons_self .., hfirst⟩
    · obtain ⟨other, hother, hrelated⟩ := ih hmem
      exact ⟨other, List.mem_cons_of_mem _ hother, hrelated⟩

section Bodies

variable {bodies : List Form} {spelled : List (List String)} {body : Form} {names : List String}

theorem Spelled.exists_of_mem (hbodies : List.Forall₂ (Spelled nonterminals terminals) bodies spelled)
    (hmem : body ∈ bodies) : ∃ names ∈ spelled, Spelled nonterminals terminals body names :=
  exists_of_mem_of_forall₂ hbodies hmem

theorem Spelled.exists_of_mem_names
    (hbodies : List.Forall₂ (Spelled nonterminals terminals) bodies spelled)
    (hmem : names ∈ spelled) : ∃ body ∈ bodies, Spelled nonterminals terminals body names :=
  exists_of_mem_of_forall₂ hbodies.flip hmem

/-- A form is one of some forms exactly if its names are among theirs. -/
theorem Spelled.mem_iff (h : Unambiguous nonterminals terminals)
    (hbodies : List.Forall₂ (Spelled nonterminals terminals) bodies spelled)
    (hbody : Spelled nonterminals terminals body names) : body ∈ bodies ↔ names ∈ spelled := by
  constructor
  · intro hmem
    obtain ⟨names', hmem', hspelled⟩ := Spelled.exists_of_mem hbodies hmem
    rw [hbody.names_eq hspelled]
    exact hmem'
  · intro hmem
    obtain ⟨body', hmem', hspelled⟩ := Spelled.exists_of_mem_names hbodies hmem
    rw [hbody.form_eq h hspelled]
    exact hmem'

/-- Forms with different names are different. -/
theorem Spelled.nodup (h : Unambiguous nonterminals terminals)
    (hbodies : List.Forall₂ (Spelled nonterminals terminals) bodies spelled)
    (hnodup : spelled.Nodup) : bodies.Nodup := by
  induction hbodies with
  | nil => exact List.nodup_nil
  | cons hfirst hrest ih =>
    obtain ⟨hnew, hnodup⟩ := List.nodup_cons.mp hnodup
    refine List.nodup_cons.mpr ⟨fun hmem => ?_, ih hnodup⟩
    exact hnew ((Spelled.mem_iff h hrest hfirst).mp hmem)

end Bodies

/-! ## One alternative -/

/-- The names that stand for symbols. -/
def symbolNames (alternative : List String) : List String := alternative.filter (· ≠ epsilon)

/-- The names that stand for terminals, given those that are defined. -/
def terminalNames (nonterminals names : List String) : List String :=
  names.filter fun name => name ≠ epsilon ∧ name ∉ nonterminals

theorem symbolNames_epsilon (names : List String) :
    symbolNames (epsilon :: names) = symbolNames names := by
  simp [symbolNames]

theorem symbolNames_cons {name : String} (h : name ≠ epsilon) (names : List String) :
    symbolNames (name :: names) = name :: symbolNames names := by
  simp [symbolNames, h]

theorem terminalNames_append (names names' : List String) :
    terminalNames nonterminals (names ++ names') =
      terminalNames nonterminals names ++ terminalNames nonterminals names' :=
  List.filter_append ..

theorem terminalNames_epsilon (names : List String) :
    terminalNames nonterminals (epsilon :: names) = terminalNames nonterminals names := by
  simp [terminalNames]

theorem terminalNames_of_mem {name : String} (h : name ∈ nonterminals) :
    terminalNames nonterminals [name] = [] := by
  simp [terminalNames, h]

theorem terminalNames_of_notMem {name : String} (hname : name ≠ epsilon)
    (h : name ∉ nonterminals) : terminalNames nonterminals [name] = [name] := by
  simp [terminalNames, hname, h]

/-- What is known of the terminals once some names are read: they are the first
appearances of `items`, and those known before have kept their ids. -/
structure Grown (items terminals met : List String) : Prop where
  firsts : FirstAppearances items met
  kept : terminals <+: met

/-- A name is interned at its first appearance and found at any later one. -/
theorem intern_spec {items : List String} (h : FirstAppearances items terminals) (name : String) :
    Grown (items ++ [name]) terminals (intern terminals name).2 ∧
      (intern terminals name).2[(intern terminals name).1]? = some name := by
  have hconcat := h.concat name
  cases hfound : terminals.idxOf? name with
  | some id =>
    obtain ⟨hlt, hget, -⟩ := List.idxOf?_eq_some_iff.mp hfound
    rw [if_pos (hget ▸ List.getElem_mem hlt)] at hconcat
    simp only [intern, hfound]
    exact ⟨⟨hconcat, List.prefix_rfl⟩, List.getElem?_eq_some_iff.mpr ⟨hlt, hget⟩⟩
  | none =>
    rw [if_neg (List.idxOf?_eq_none_iff.mp hfound)] at hconcat
    simp only [intern, hfound]
    exact ⟨⟨hconcat, List.prefix_append ..⟩, List.getElem?_concat_length⟩

theorem resolveName_spec (nonterminals : List String) {items : List String}
    (h : FirstAppearances items terminals) {name : String} (hname : name ≠ epsilon) :
    Grown (items ++ terminalNames nonterminals [name]) terminals
        (resolveName nonterminals terminals name).2 ∧
      nameIn nonterminals (resolveName nonterminals terminals name).2
        (resolveName nonterminals terminals name).1 = some name := by
  cases hfound : nonterminals.idxOf? name with
  | some id =>
    obtain ⟨hlt, hget, -⟩ := List.idxOf?_eq_some_iff.mp hfound
    rw [terminalNames_of_mem (hget ▸ List.getElem_mem hlt), List.append_nil]
    simp only [resolveName, hfound]
    exact ⟨⟨h, List.prefix_rfl⟩, List.getElem?_eq_some_iff.mpr ⟨hlt, hget⟩⟩
  | none =>
    rw [terminalNames_of_notMem hname (List.idxOf?_eq_none_iff.mp hfound)]
    simp only [resolveName, hfound]
    exact intern_spec h name

/-- The body of an alternative is spelled like it. -/
theorem resolve_spec (nonterminals : List String) :
    ∀ (alternative : List String) {items terminals : List String},
    FirstAppearances items terminals →
      Grown (items ++ terminalNames nonterminals alternative) terminals
          (resolve nonterminals terminals alternative).2 ∧
        Spelled nonterminals (resolve nonterminals terminals alternative).2
          (resolve nonterminals terminals alternative).1 (symbolNames alternative)
  | [], items, terminals, h => by
    rw [terminalNames, List.filter_nil, List.append_nil]
    exact ⟨⟨h, List.prefix_rfl⟩, .nil⟩
  | name :: names, items, terminals, h => by
    rw [resolve]
    split
    next hname =>
      subst hname
      rw [terminalNames_epsilon, symbolNames_epsilon]
      exact resolve_spec nonterminals names h
    next hname =>
      obtain ⟨hfirst, hsymbol⟩ := resolveName_spec nonterminals h hname
      obtain ⟨hrest, hbody⟩ := resolve_spec nonterminals names hfirst.firsts
      rw [List.append_assoc, ← terminalNames_append] at hrest
      rw [symbolNames_cons hname]
      exact ⟨⟨hrest.firsts, hfirst.kept.trans hrest.kept⟩,
        .cons (nameIn_mono hrest.kept hsymbol) hbody⟩

/-- Inserting a body into bodies is inserting its names into theirs. -/
theorem insertBody_spec (h : Unambiguous nonterminals terminals) {bodies : List Form}
    {items spelled : List (List String)} {body : Form} {names : List String}
    (hbodies : List.Forall₂ (Spelled nonterminals terminals) bodies spelled)
    (hfirsts : FirstAppearances items spelled)
    (hbody : Spelled nonterminals terminals body names) :
    ∃ spelled', List.Forall₂ (Spelled nonterminals terminals) (insertBody bodies body) spelled' ∧
      FirstAppearances (items ++ [names]) spelled' := by
  refine ⟨_, ?_, hfirsts.concat names⟩
  have hmem := Spelled.mem_iff h hbodies hbody
  unfold insertBody
  by_cases hthere : names ∈ spelled
  · rw [if_pos hthere, if_pos (hmem.mpr hthere)]
    exact hbodies
  · rw [if_neg hthere, if_neg fun hin => hthere (hmem.mp hin)]
    exact List.rel_append hbodies (.cons hbody .nil)

/-! ## All alternatives -/

/-- The alternatives read for a name, in order, each as the names of its symbols. -/
def alternativesRead (read : List (String × List String)) (name : String) : List (List String) :=
  (read.filter (·.1 = name)).map fun entry => symbolNames entry.2

theorem alternativesRead_concat (read : List (String × List String)) (name : String)
    (entry : String × List String) :
    alternativesRead (read ++ [entry]) name =
      alternativesRead read name ++ if entry.1 = name then [symbolNames entry.2] else [] := by
  unfold alternativesRead
  rw [List.filter_append, List.map_append]
  split
  next heq => simp [heq]
  next hne => simp [hne]

namespace Collected

/-- What was collected is what was read: names, each with one of its alternatives. -/
structure Records (nonterminals : List String) (read : List (String × List String))
    (collected : Collected) : Prop where
  terminals : FirstAppearances (terminalNames nonterminals (read.flatMap Prod.snd))
    collected.terminals
  length_rules : collected.rules.length = nonterminals.length
  rules : ∀ (id : Nat) (name : String), nonterminals[id]? = some name →
    ∃ bodies spelled, collected.rules[id]? = some bodies ∧
      List.Forall₂ (Spelled nonterminals collected.terminals) bodies spelled ∧
        FirstAppearances (alternativesRead read name) spelled

variable {read : List (String × List String)} {collected : Collected}

theorem Records.none (nonterminals : List String) :
    Records nonterminals [] ⟨[], List.replicate nonterminals.length []⟩ where
  terminals := .nil
  length_rules := List.length_replicate
  rules id name hname := by
    obtain ⟨hlt, -⟩ := List.getElem?_eq_some_iff.mp hname
    exact ⟨[], [], List.getElem?_replicate_of_lt hlt, .nil, .nil⟩

theorem unambiguous (hnodup : nonterminals.Nodup) {names : List String}
    (h : FirstAppearances (terminalNames nonterminals names) terminals) :
    Unambiguous nonterminals terminals where
  nonterminals_nodup := hnodup
  terminals_nodup := h.nodup
  disjoint name hdefined hterminal := by
    have hmem := (h.mem_iff name).mp hterminal
    rw [terminalNames, List.mem_filter] at hmem
    exact (of_decide_eq_true hmem.2).2 hdefined

/-- **One alternative** of a name that is defined. -/
theorem Records.addAlternative (h : Records nonterminals read collected)
    (hnodup : nonterminals.Nodup) {name : String} (hdefined : name ∈ nonterminals)
    (alternative : List String) :
    Records nonterminals (read ++ [(name, alternative)])
      (collected.addAlternative nonterminals (nonterminals.idxOf name) alternative) := by
  obtain ⟨hgrown, hbody⟩ := resolve_spec nonterminals alternative h.terminals
  rw [← terminalNames_append] at hgrown
  have htables := unambiguous hnodup hgrown.firsts
  refine ⟨?_, ?_, ?_⟩
  · rw [List.flatMap_append, List.flatMap_singleton]
    exact hgrown.firsts
  · exact (List.length_modify ..).trans h.length_rules
  · intro id other hother
    obtain ⟨bodies, spelled, hbodies, hspelled, hfirsts⟩ := h.rules id other hother
    -- the bodies there are keep their names
    have hkept := hspelled.imp fun _ _ hbody => hbody.mono hgrown.kept
    have hmodified : (collected.addAlternative nonterminals (nonterminals.idxOf name)
        alternative).rules[id]? = some (if nonterminals.idxOf name = id then
          insertBody bodies (resolve nonterminals collected.terminals alternative).1
          else bodies) := by
      rw [Collected.addAlternative, List.getElem?_modify, hbodies]
      rfl
    rw [hmodified, alternativesRead_concat]
    have hget := List.getElem?_idxOf hdefined
    by_cases hid : nonterminals.idxOf name = id
    · rw [hid] at hget
      obtain rfl := Option.some.inj (hother.symm.trans hget)
      rw [if_pos hid, if_pos rfl]
      obtain ⟨spelled', hspelled', hfirsts'⟩ := insertBody_spec htables hkept hfirsts hbody
      exact ⟨_, spelled', rfl, hspelled', hfirsts'⟩
    · have hne : ¬ name = other := by
        rintro rfl
        exact hid (eq_of_getElem?_eq hnodup hget hother)
      rw [if_neg hid, if_neg hne, List.append_nil]
      exact ⟨bodies, spelled, rfl, hkept, hfirsts⟩

/-- **All alternatives**, one after the other. -/
theorem Records.foldl (hnodup : nonterminals.Nodup) :
    ∀ (entries : List (String × List String)) {read : List (String × List String)}
      {collected : Collected}, Records nonterminals read collected →
        (∀ entry ∈ entries, entry.1 ∈ nonterminals) →
          Records nonterminals (read ++ entries) (entries.foldl (fun collected entry =>
            collected.addAlternative nonterminals (nonterminals.idxOf entry.1) entry.2) collected)
  | [], read, collected, h, _ => by
    rw [List.append_nil]
    exact h
  | (name, alternative) :: entries, read, collected, h, hdefined => by
    obtain ⟨hname, hlater⟩ := List.forall_mem_cons.mp hdefined
    rw [List.append_cons]
    exact Records.foldl hnodup entries (h.addAlternative hnodup hname alternative) hlater

end Collected

namespace Grammar

/-- The alternatives that some definitions list, each with the name that it is one of. -/
def listed (definitions : List Definition) : List (String × List String) :=
  definitions.flatMap fun definition => definition.alternatives.map (definition.name, ·)

/-- Whatever the definitions are, the table records what they list. -/
theorem ofDefinitions_records (definitions : List Definition) :
    Collected.Records (Definition.definedNames definitions) (listed definitions)
      ⟨(ofDefinitions definitions).terminals, (ofDefinitions definitions).rules⟩ := by
  have hnodup : (Definition.definedNames definitions).Nodup :=
    (FirstAppearances.eraseDups _).nodup
  have hdefined : ∀ entry ∈ listed definitions,
      entry.1 ∈ Definition.definedNames definitions := by
    intro entry hentry
    obtain ⟨definition, hmem, hentry⟩ := List.mem_flatMap.mp hentry
    obtain ⟨alternative, -, rfl⟩ := List.mem_map.mp hentry
    exact List.mem_eraseDups.mpr (List.mem_map_of_mem hmem)
  have hrecords := Collected.Records.foldl hnodup _ (.none _) hdefined
  rw [listed, List.foldl_flatMap] at hrecords
  simp only [List.foldl_map] at hrecords
  exact hrecords

/-- No name stands for two symbols. -/
theorem ofDefinitions_unambiguous (definitions : List Definition) :
    Unambiguous (Definition.definedNames definitions) (ofDefinitions definitions).terminals :=
  Collected.unambiguous (FirstAppearances.eraseDups _).nodup
    (ofDefinitions_records definitions).terminals

/-- A definition brings in a nonterminal. -/
theorem nonterminals_ofDefinitions_ne_nil {definitions : List Definition}
    (hsome : definitions ≠ []) : (ofDefinitions definitions).nonterminals ≠ [] := by
  obtain ⟨definition, hmem⟩ := List.exists_mem_of_ne_nil _ hsome
  exact List.ne_nil_of_mem (List.mem_eraseDups.mpr (List.mem_map_of_mem hmem))

/-- The rules are the bodies of the names defined. -/
theorem exists_of_mem_rules_ofDefinitions {definitions : List Definition} {bodies : List Form}
    (h : bodies ∈ (ofDefinitions definitions).rules) : ∃ name spelled,
      List.Forall₂ (Spelled (Definition.definedNames definitions)
        (ofDefinitions definitions).terminals) bodies spelled ∧
          FirstAppearances (alternativesRead (listed definitions) name) spelled := by
  have hrecords := ofDefinitions_records definitions
  obtain ⟨id, hlt, hget⟩ := List.mem_iff_getElem.mp h
  have hid : id < (Definition.definedNames definitions).length := hrecords.length_rules ▸ hlt
  obtain ⟨bodies', spelled, hbodies, hspelled, hfirsts⟩ :=
    hrecords.rules id _ (List.getElem?_eq_getElem hid)
  have hsame : bodies = bodies' :=
    Option.some.inj ((List.getElem?_eq_some_iff.mpr ⟨hlt, hget⟩).symm.trans hbodies)
  exact ⟨_, spelled, hsame ▸ hspelled, hfirsts⟩

end Grammar

end AmbiguitySearch
