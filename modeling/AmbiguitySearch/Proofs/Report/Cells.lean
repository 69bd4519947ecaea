import AmbiguitySearch.Proofs.Source.Names
import AmbiguitySearch.Report.Table

/-!
# What a cell says

A cell of a report holds a form or a rule, filled up with spaces. Its words are the names
that it was spelled with, whatever these look like, since names hold no blanks
(`wordsOf_padded`, `wordsOf_ruleText`), and only the empty form is written as `epsilon`. So
the words of a cell say which form or which rule is meant.

> `Grammar.Legible.form_eq`, `Grammar.Legible.rule_eq`: cells with the same words show the
> same form, or the same nonterminal and body.
-/

namespace AmbiguitySearch

open Grammar Source

/-! ## Filling up -/

theorem Report.toList_padded (width : Nat) (cell : String) :
    (padded width cell).toList = cell.toList ++ List.replicate (width - cell.length) ' ' := by
  rw [padded, repeated, String.toList_append, String.toList_ofList]

/-- Filling up adds no word. -/
theorem Report.wordsOf_padded (width : Nat) (cell : String) :
    wordsOf (padded width cell).toList = wordsOf cell.toList := by
  rw [wordsOf_eq, wordsOf_eq, toList_padded, Text.words_append_blanks (by decide)]

namespace Grammar

variable {g : Grammar} {form form' : Form} {text text' : String}

/-! ## What is spelled -/

/-- The text of a form is made of its names. -/
theorem exists_names_of_spellForm (h : g.spellForm form = .ok text) :
    ∃ names, g.SpelledBy form names ∧ text = " ".intercalate (writtenBody names) := by
  cases form with
  | nil =>
    cases h
    exact ⟨[], .nil, rfl⟩
  | cons symbol rest =>
    obtain ⟨names, hnames, h⟩ := bind_eq_ok h
    cases h
    have hspelled := (mapM_eq_ok_iff.mp hnames).imp fun _ _ => name_eq_ok_iff.mp
    refine ⟨names, hspelled, ?_⟩
    cases hspelled
    rfl

/-- The text of a rule is its line. -/
theorem exists_names_of_spellRule {id : Nat} (h : g.spellRule id form = .ok text) :
    ∃ left names, g.nonterminals[id]? = some left ∧ g.SpelledBy form names ∧
      text = ruleText (left, names) := by
  obtain ⟨left, hleft, h⟩ := bind_eq_ok h
  obtain ⟨body, hbody, h⟩ := bind_eq_ok h
  obtain ⟨names, hnames, rfl⟩ := exists_names_of_spellForm hbody
  cases h
  exact ⟨left, names, entry_eq_ok_iff.mp hleft, hnames, rfl⟩

theorem writtenBody_injective {names names' : List String} (h : epsilon ∉ names)
    (h' : epsilon ∉ names') (heq : writtenBody names = writtenBody names') : names = names' := by
  rw [← symbolNames_writtenBody h, ← symbolNames_writtenBody h', heq]

/-! ## What is on one line -/

/-- No name breaks a line. -/
def OneLine (g : Grammar) : Prop := ∀ name ∈ g.nonterminals ++ g.terminals, '\n' ∉ name.toList

instance (g : Grammar) : Decidable g.OneLine :=
  inferInstanceAs (Decidable (∀ name ∈ g.nonterminals ++ g.terminals, '\n' ∉ name.toList))

namespace OneLine

variable (hg : g.OneLine)
include hg

theorem of_spelledBy {names : List String} (h : g.SpelledBy form names) :
    ∀ name ∈ names, '\n' ∉ name.toList := by
  induction h with
  | nil => exact nofun
  | @cons symbol name _ _ hname _ ih =>
    refine List.forall_mem_cons.mpr ⟨hg name ?_, ih⟩
    cases symbol with
    | terminal id => exact List.mem_append_right _ (List.mem_of_getElem? hname)
    | nonterminal id => exact List.mem_append_left _ (List.mem_of_getElem? hname)

/-- A form is written on one line. -/
theorem newline_notMem_form (h : g.spellForm form = .ok text) : '\n' ∉ text.toList := by
  obtain ⟨names, hnames, rfl⟩ := exists_names_of_spellForm h
  rw [String.toList_intercalate]
  exact newline_notMem_writtenBody (hg.of_spelledBy hnames)

/-- So is a rule. -/
theorem newline_notMem_rule {id : Nat} (h : g.spellRule id form = .ok text) :
    '\n' ∉ text.toList := by
  obtain ⟨left, names, hleft, hnames, rfl⟩ := exists_names_of_spellRule h
  exact newline_notMem_ruleText (hg left (List.mem_append_left _ (List.mem_of_getElem? hleft)))
    (hg.of_spelledBy hnames)

end OneLine

/-! ## What is read back -/

namespace Legible

variable (hg : g.Legible)
include hg

/-- Different forms are written by different words. -/
theorem form_eq_of_writtenBody {names names' : List String} (h : g.SpelledBy form names)
    (h' : g.SpelledBy form' names') (heq : writtenBody names = writtenBody names') :
    form = form' := by
  have hepsilon : ∀ {form : Form} {names : List String}, g.SpelledBy form names →
      epsilon ∉ names := fun hspelled hmem => (hg.of_spelledBy hspelled _ hmem).2 rfl
  rw [writtenBody_injective (hepsilon h) (hepsilon h') heq] at h
  exact h.form_eq hg.tables h'

theorem wordsOf_form {names : List String} (h : g.SpelledBy form names) :
    wordsOf (" ".intercalate (writtenBody names)).toList = writtenBody names := by
  have hlegible : ∀ name ∈ names, Source.Legible name := fun name hmem =>
    (hg.of_spelledBy h name hmem).1
  rw [wordsOf_eq, String.toList_intercalate]
  show (Text.words ([' '].intercalate _)).map String.ofList = _
  rw [words_writtenBody hlegible, List.map_map]
  simp [Function.comp_def]

/-- **The words of a form** say which form it is. -/
theorem form_eq (h : g.spellForm form = .ok text) (h' : g.spellForm form' = .ok text')
    (hwords : wordsOf text.toList = wordsOf text'.toList) : form = form' := by
  obtain ⟨names, hnames, rfl⟩ := exists_names_of_spellForm h
  obtain ⟨names', hnames', rfl⟩ := exists_names_of_spellForm h'
  rw [hg.wordsOf_form hnames, hg.wordsOf_form hnames'] at hwords
  exact hg.form_eq_of_writtenBody hnames hnames' hwords

/-- **The words of a rule** say which rule it is. -/
theorem rule_eq {id id' : Nat} (h : g.spellRule id form = .ok text)
    (h' : g.spellRule id' form' = .ok text')
    (hwords : wordsOf text.toList = wordsOf text'.toList) : id = id' ∧ form = form' := by
  obtain ⟨left, names, hleft, hnames, rfl⟩ := exists_names_of_spellRule h
  obtain ⟨left', names', hleft', hnames', rfl⟩ := exists_names_of_spellRule h'
  rw [wordsOf_ruleText (hg.legibleRule hleft hnames),
    wordsOf_ruleText (hg.legibleRule hleft' hnames'), List.cons.injEq, List.cons.injEq] at hwords
  obtain ⟨rfl, -, hbody⟩ := hwords
  exact ⟨eq_of_getElem?_eq hg.tables.nonterminals_nodup hleft hleft',
    hg.form_eq_of_writtenBody hnames hnames' hbody⟩

/-- A name that is read as a word breaks no line. -/
theorem oneLine : g.OneLine := by
  intro name hmem
  rcases List.mem_append.mp hmem with hmem | hmem
  · exact (hg.left name hmem).left.newline_notMem
  · exact (hg.terminal name hmem).1.newline_notMem

end Legible

end Grammar

end AmbiguitySearch
