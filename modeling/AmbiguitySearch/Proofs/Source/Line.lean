import AmbiguitySearch.Proofs.Source.Tokens

/-!
# Definitions and their lines

The tokens of a line make a definition if they are a name, an arrow and alternatives, which
are names with bars between them (`Alternatives`). The parser finds the alternatives by
cutting what stands behind the arrow at its bars, and then has to tell empty pieces and
pieces with an arrow in them from alternatives. The printer puts the bars back.

> `ofTokens_printed`: the parser accepts these lines and no others, printing what it made of
> one gives the line again, and a definition is read from any text in which its line is laid
> out with blanks.
-/

namespace AmbiguitySearch.Definition

/-- Alternatives with a bar between any two of them, each of one name or more. -/
inductive Alternatives : List Token → List (List String) → Prop where
  | last {names : List String} (named : names ≠ []) :
    Alternatives (names.map .symbol) [names]
  | more {names : List String} {tokens : List Token} {alternatives : List (List String)}
      (named : names ≠ []) (later : Alternatives tokens alternatives) :
    Alternatives (names.map .symbol ++ .bar :: tokens) (names :: alternatives)

variable {tokens body : List Token} {alternatives : List (List String)} {names : List String}
  {definition : Definition}

/-! ## Alternatives -/

theorem Alternatives.ne_nil (h : Alternatives body alternatives) : alternatives ≠ [] := by
  cases h with
  | last => exact List.cons_ne_nil _ _
  | more => exact List.cons_ne_nil _ _

/-- **One alternative** is made of names, and of one at least. -/
theorem alternativeOfTokens_eq_ok_iff :
    alternativeOfTokens tokens = .ok names ↔ names ≠ [] ∧ tokens = names.map .symbol := by
  cases tokens with
  | nil =>
    constructor
    · intro h
      cases h
    · intro h
      exact absurd (List.map_eq_nil_iff.mp h.2.symm) h.1
  | cons first tokens =>
    rw [alternativeOfTokens, mapM_eq_ok_iff]
    · constructor
      · intro h
        have hsymbols : List.Forall₂ (fun token name => token = Token.symbol name)
            (first :: tokens) names := by
          refine h.imp fun token name hname => ?_
          cases token with
          | symbol other =>
            cases hname
            rfl
          | arrow => cases hname
          | bar => cases hname
        rw [← List.forall₂_map_right_iff (R := Eq), List.forall₂_eq_eq_eq] at hsymbols
        refine ⟨fun hnil => ?_, hsymbols⟩
        rw [hnil] at hsymbols
        cases hsymbols
      · intro h
        rw [h.2, List.forall₂_map_left_iff]
        exact List.forall₂_same.mpr fun name _ => rfl
    · exact List.cons_ne_nil first tokens

theorem no_bar_of_symbols (names : List String) :
    ∀ token ∈ names.map Token.symbol, (token == Token.bar) = false := by
  intro token hmem
  obtain ⟨name, -, rfl⟩ := List.mem_map.mp hmem
  rfl

/-- The tokens of alternatives, with bars between them. -/
def printedAlternatives (alternatives : List (List String)) : List Token :=
  [Token.bar].intercalate (alternatives.map (·.map .symbol))

theorem printedAlternatives_cons (names : List String) (hsome : alternatives ≠ []) :
    printedAlternatives (names :: alternatives) =
      names.map .symbol ++ .bar :: printedAlternatives alternatives := by
  obtain ⟨next, later, rfl⟩ := List.exists_cons_of_ne_nil hsome
  unfold printedAlternatives
  rw [List.map_cons, List.map_cons, List.intercalate_cons_cons, List.append_assoc]
  rfl

/-- Printing puts the bars back. -/
theorem Alternatives.printed_eq (h : Alternatives body alternatives) :
    printedAlternatives alternatives = body := by
  induction h with
  | last => exact List.intercalate_singleton
  | more _ later ih =>
    have hsome := later.ne_nil
    rw [printedAlternatives_cons _ hsome, ih]

/-- Alternatives in print are alternatives. -/
theorem alternatives_printed (hsome : alternatives ≠ [])
    (hnamed : ∀ alternative ∈ alternatives, alternative ≠ []) :
    Alternatives (printedAlternatives alternatives) alternatives := by
  induction alternatives with
  | nil => exact absurd rfl hsome
  | cons first later ih =>
    obtain ⟨hfirst, hlater⟩ := List.forall_mem_cons.mp hnamed
    by_cases hlast : later = []
    · rw [hlast]
      unfold printedAlternatives
      rw [List.map_singleton, List.intercalate_singleton]
      exact .last hfirst
    · rw [printedAlternatives_cons first hlast]
      exact .more hfirst (ih hlast hlater)

/-- **Alternatives are found at the bars.** -/
theorem mapM_splitOnP_eq_ok_iff :
    (body.splitOnP (· == .bar)).mapM alternativeOfTokens = .ok alternatives ↔
      Alternatives body alternatives := by
  rw [mapM_eq_ok_iff]
  simp only [alternativeOfTokens_eq_ok_iff]
  constructor
  · intro h
    have hpieces : body.splitOnP (· == .bar) = alternatives.map (·.map .symbol) := by
      have hsame := h.imp fun _ _ => And.right
      rw [← List.forall₂_map_right_iff (R := Eq), List.forall₂_eq_eq_eq] at hsame
      exact hsame
    have hsome : alternatives ≠ [] := by
      intro hnil
      rw [hnil] at hpieces
      exact List.splitOnP_ne_nil _ _ hpieces
    have hnamed : ∀ alternative ∈ alternatives, alternative ≠ [] := by
      intro alternative hmem
      obtain ⟨piece, -, hnamed, -⟩ := exists_of_mem_of_forall₂ h.flip hmem
      exact hnamed
    have hbody : printedAlternatives alternatives = body := by
      rw [printedAlternatives, ← hpieces]
      exact List.intercalate_splitOn Token.bar
    rw [← hbody]
    exact alternatives_printed hsome hnamed
  · intro h
    induction h with
    | last hnamed =>
      rw [List.splitOnP_eq_singleton (no_bar_of_symbols _)]
      exact .cons ⟨hnamed, rfl⟩ .nil
    | more hnamed _ ih =>
      rw [List.splitOnP_append_cons_of_forall_mem (no_bar_of_symbols _) .bar rfl]
      exact .cons ⟨hnamed, rfl⟩ ih

/-! ## Lines -/

/-- **A line** makes a definition if it is a name, an arrow and alternatives. -/
theorem ofTokens_eq_ok_iff : ofTokens tokens = .ok definition ↔
    ∃ body, tokens = .symbol definition.name :: .arrow :: body ∧
      Alternatives body definition.alternatives := by
  obtain ⟨name, alternatives⟩ := definition
  constructor
  · intro h
    unfold ofTokens at h
    split at h
    next => cases h
    next other body =>
      obtain ⟨found, hfound, hdefinition⟩ := bind_eq_ok h
      cases hdefinition
      exact ⟨body, rfl, mapM_splitOnP_eq_ok_iff.mp hfound⟩
    next => cases h
    next => cases h
  · intro h
    obtain ⟨body, rfl, hbody⟩ := h
    have hparsed : ofTokens (.symbol name :: .arrow :: body) = do
        let alternatives ← (body.splitOnP (· == .bar)).mapM alternativeOfTokens
        return { name, alternatives } := rfl
    rw [hparsed, mapM_splitOnP_eq_ok_iff.mpr hbody]
    rfl

/-- Printing what was made of a line gives the line again. -/
theorem toTokens_of_ofTokens (h : ofTokens tokens = .ok definition) :
    definition.toTokens = tokens := by
  obtain ⟨body, rfl, hbody⟩ := ofTokens_eq_ok_iff.mp h
  rw [← hbody.printed_eq]
  rfl

/-- A definition with alternatives, each of one name or more. -/
structure Complete (definition : Definition) : Prop where
  some_alternative : definition.alternatives ≠ []
  some_name : ∀ alternative ∈ definition.alternatives, alternative ≠ []

/-- A definition in print is parsed again. -/
theorem ofTokens_toTokens (h : definition.Complete) :
    ofTokens definition.toTokens = .ok definition :=
  ofTokens_eq_ok_iff.mpr ⟨_, rfl, alternatives_printed h.some_alternative h.some_name⟩

/-- A definition of legible names is printed in tokens that are legible. -/
theorem legible_of_mem_toTokens
    (h : ∀ name ∈ definition.name :: definition.alternatives.flatten, Source.Legible name) :
    ∀ token ∈ definition.toTokens, token.Legible := by
  obtain ⟨hname, hnames⟩ := List.forall_mem_cons.mp h
  refine List.forall_mem_cons.mpr ⟨hname, List.forall_mem_cons.mpr ⟨trivial, ?_⟩⟩
  intro token htoken
  rcases Text.mem_intercalate htoken with hbar | ⟨piece, hpiece, hmem⟩
  · rw [List.mem_singleton.mp hbar]
    trivial
  · obtain ⟨alternative, halternative, rfl⟩ := List.mem_map.mp hpiece
    obtain ⟨name, hin, rfl⟩ := List.mem_map.mp hmem
    exact hnames name (List.mem_flatten_of_mem halternative hin)

/-! ## The statement -/

/-- **Parsing a line is the inverse of printing it.** Some tokens make a definition exactly if
they are its name, an arrow, and its alternatives with bars between them, each of one name or
more, and printing the definition gives these tokens. In a text with blanks of any kind
between the tokens of a definition, whose names are legible, that definition is found. -/
theorem ofTokens_printed :
    (∀ tokens definition, ofTokens tokens = .ok definition ↔
      ∃ body, tokens = .symbol definition.name :: .arrow :: body ∧
        Alternatives body definition.alternatives) ∧
    (∀ tokens definition, ofTokens tokens = .ok definition → definition.toTokens = tokens) ∧
    ∀ (definition : Definition) (layout : Token.Layout), definition.Complete →
      (∀ name ∈ definition.name :: definition.alternatives.flatten, Source.Legible name) →
        layout.tokens = definition.toTokens →
          ofTokens (Token.scan layout.text) = .ok definition := by
  refine ⟨fun tokens definition => ofTokens_eq_ok_iff, fun tokens definition =>
    toTokens_of_ofTokens, ?_⟩
  intro definition layout hcomplete hlegible htokens
  have hscan : Token.scan layout.text = layout.tokens := by
    refine layout.scan_text ?_
    rw [htokens]
    exact legible_of_mem_toTokens hlegible
  rw [hscan, htokens]
  exact ofTokens_toTokens hcomplete

/-- A line of two alternatives, with blanks of several kinds. -/
def spacedLine : Token.Layout where
  front := ['\t']
  pieces := [(.symbol "S", [' ', ' ']), (.arrow, ['\u00a0']), (.symbol ";a", [' ']),
    (.symbol "S", ['\u3000', ' ']), (.bar, ['\t']), (.symbol "epsilon", [])]
  blank_front := List.all_eq_true.mp (by decide)
  blank_behind := Token.Layout.blank_behind_of_all (by decide)
  apart := by decide

/-- A semicolon within a line is part of a name. -/
theorem ofTokens_printed_spacedLine :
    ofTokens (Token.scan "\tS  ->\u00a0;a S\u3000 |\tepsilon".toList) =
      .ok ⟨"S", [[";a", "S"], ["epsilon"]]⟩ := by
  have hcomplete : Complete ⟨"S", [[";a", "S"], ["epsilon"]]⟩ := ⟨by decide, by decide⟩
  have hS : Source.Legible "S" := ⟨by decide, Source.visible_of_all (by decide), by decide⟩
  have ha : Source.Legible ";a" := ⟨by decide, Source.visible_of_all (by decide), by decide⟩
  have hlegible : ∀ name ∈ ["S", ";a", "S", "epsilon"], Source.Legible name :=
    List.forall_mem_cons.mpr ⟨hS, List.forall_mem_cons.mpr ⟨ha, List.forall_mem_cons.mpr ⟨hS,
      List.forall_mem_singleton.mpr Source.legible_epsilon⟩⟩⟩
  have htext : spacedLine.text = "\tS  ->\u00a0;a S\u3000 |\tepsilon".toList := by decide +kernel
  rw [← htext]
  exact ofTokens_printed.2.2 _ spacedLine hcomplete hlegible rfl

end AmbiguitySearch.Definition
