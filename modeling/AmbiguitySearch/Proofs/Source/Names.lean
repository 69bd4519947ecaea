import AmbiguitySearch.Proofs.Source.RoundTrip

/-!
# The names of a grammar that was read

What comes out of the reader was cut at blanks and bars and found to be no sign. So the
names of a grammar that was read are words, none of them is the word for the empty body, a
name that has rules starts no comment, and no two symbols share a name (`Grammar.Legible`).
That is all it takes to recognise a symbol wherever its name stands between blanks. The
start is of no concern here: one that is asked for is looked for last, among names that are
settled by then (`exists_read_none`).

> `grammar_of_read`: the names of a grammar that was read are such names.
-/

namespace AmbiguitySearch

/-- The names of a grammar are read as they are written, wherever it writes them. -/
structure Grammar.Legible (g : Grammar) : Prop where
  tables : Unambiguous g.nonterminals g.terminals
  /-- A name that has rules can be written on the left of one. -/
  left : ∀ name ∈ g.nonterminals, Source.LegibleRule (name, [])
  terminal : ∀ name ∈ g.terminals, Source.Legible name ∧ name ≠ epsilon

namespace Grammar.Legible

variable {g : Grammar}

theorem of_nameIn (hg : g.Legible) {symbol : Symbol} {name : String}
    (h : nameIn g.nonterminals g.terminals symbol = some name) :
    Source.Legible name ∧ name ≠ epsilon := by
  cases symbol with
  | terminal id => exact hg.terminal name (List.mem_of_getElem? h)
  | nonterminal id =>
    have hleft := hg.left name (List.mem_of_getElem? h)
    exact ⟨hleft.left, hleft.ne_epsilon⟩

theorem of_spelledBy (hg : g.Legible) {form : Form} {names : List String}
    (h : g.SpelledBy form names) : ∀ name ∈ names, Source.Legible name ∧ name ≠ epsilon := by
  induction h with
  | nil => exact nofun
  | cons hfirst _ ih => exact List.forall_mem_cons.mpr ⟨hg.of_nameIn hfirst, ih⟩

theorem legibleRule (hg : g.Legible) {id : Nat} {left : String} {body : Form}
    {names : List String} (hleft : g.nonterminals[id]? = some left)
    (hbody : g.SpelledBy body names) : Source.LegibleRule (left, names) := by
  have hname := hg.left left (List.mem_of_getElem? hleft)
  exact ⟨hname.left, hname.no_comment, hname.ne_epsilon, fun name hmem =>
    (hg.of_spelledBy hbody name hmem).1⟩

/-- Legible rules make a grammar of legible names. -/
theorem ofDefinitions {definitions : List Definition}
    (hne : ∀ definition ∈ definitions, definition.alternatives ≠ [])
    (h : ∀ rule ∈ namedRules definitions, Source.LegibleRule rule) :
    (Grammar.ofDefinitions definitions).Legible where
  tables := ofDefinitions_unambiguous definitions
  left name hmem := by
    obtain ⟨rule, hrule, rfl⟩ := List.mem_map.mp ((mem_leftSides_iff hne "" name).mpr hmem)
    obtain ⟨hleft, hcomment, hepsilon, -⟩ := h rule hrule
    exact ⟨hleft, hcomment, hepsilon, nofun⟩
  terminal name hmem := by
    obtain ⟨rule, hrule, hname⟩ := List.mem_flatMap.mp (mem_terminals_iff.mp hmem).1
    refine ⟨(h rule hrule).body name hname, ?_⟩
    rintro rfl
    exact epsilon_notMem_of_mem_namedRules hrule hname

/-- Moving the start leaves the names alone. -/
theorem withStart (hg : g.Legible) {name : String} {moved : Grammar}
    (h : g.withStart? name = some moved) : moved.Legible := by
  obtain ⟨hterminals, hnonterminals, -⟩ := withStart?_eq_some h
  obtain ⟨htables, hleft, hterminal⟩ := hg
  exact ⟨hnonterminals ▸ hterminals ▸ htables, hnonterminals ▸ hleft, hterminals ▸ hterminal⟩

end Grammar.Legible

namespace Source

variable {path : String} {bytes : List UInt8} {start? : Option String} {g : Grammar}

/-- A source that is accepted is accepted without asking for a start, and then the start
asked for is found. -/
theorem exists_read_none (h : read path bytes start? = .ok g) :
    ∃ unmoved, read path bytes none = .ok unmoved ∧
      (g = unmoved ∨ ∃ start, unmoved.withStart? start = some g) := by
  cases start? with
  | none => exact ⟨g, h, .inl rfl⟩
  | some start =>
    unfold read assemble at h ⊢
    dsimp only at h ⊢
    split at h
    next =>
      split at h
      next =>
        split at h
        next moved hmoved =>
          cases h
          exact ⟨_, rfl, .inr ⟨start, hmoved⟩⟩
        next => cases h
      next => cases h
    next => cases h

/-- **A grammar that was read** is one of those there are, defines something, and has
legible names. -/
theorem grammar_of_read (h : read path bytes start? = .ok g) :
    g.Loaded ∧ g.nonterminals ≠ [] ∧ g.Legible := by
  obtain ⟨unmoved, hread, hmoved⟩ := exists_read_none h
  obtain ⟨definitions, rfl, hsome, hne, hrules⟩ := legible_of_read hread
  have hlegible := Grammar.Legible.ofDefinitions hne hrules
  have hdefined := Grammar.nonterminals_ofDefinitions_ne_nil hsome
  rcases hmoved with rfl | ⟨start, hstart⟩
  · exact ⟨.ofDefinitions definitions, hdefined, hlegible⟩
  · refine ⟨.withStart (.ofDefinitions definitions) hstart, ?_, hlegible.withStart hstart⟩
    rw [(Grammar.withStart?_eq_some hstart).2.1]
    exact hdefined

end Source

end AmbiguitySearch
