import AmbiguitySearch.Proofs.Grammar.Declared
import AmbiguitySearch.Proofs.Grammar.Definition
import AmbiguitySearch.Report.Verdict
import AmbiguitySearch.Report.Word

/-!
# Reports on what the tables have

A report asks for the name of every symbol that it mentions. For the symbols of a
derivation there always is one, as a derivation stays within the tables of its grammar
(`Loaded.declares_of_derives`). So if a report on derivations is not written, that is
because of a table too wide, and not for want of a name.

> `Outcome.report_inRange`, `Verdict.report_inRange`: no report on declared words and on
> derivations of them looks up a name that is not there.
-/

namespace AmbiguitySearch

namespace Grammar

variable {g : Grammar} {form : Form}

/-! ## Spelling -/

theorem exists_name {symbol : Symbol} (h : g.Declares symbol) :
    ∃ name, g.name symbol = .ok name := by
  cases symbol with
  | terminal id => exact ⟨_, entry_eq_ok h⟩
  | nonterminal id => exact ⟨_, entry_eq_ok h⟩

theorem exists_spellForm (h : ∀ symbol ∈ form, g.Declares symbol) :
    ∃ text, g.spellForm form = .ok text := by
  obtain ⟨names, hnames⟩ := exists_mapM_eq_ok fun symbol hmem => exists_name (h symbol hmem)
  exact ⟨_, spellForm_eq_ok_of_mapM hnames⟩

theorem exists_spellRule {nonterminal : Nat} (hleft : g.Declares (.nonterminal nonterminal))
    (hbody : ∀ symbol ∈ form, g.Declares symbol) :
    ∃ text, g.spellRule nonterminal form = .ok text := by
  obtain ⟨left, hname⟩ := exists_name hleft
  obtain ⟨right, hform⟩ := exists_spellForm hbody
  refine ⟨s!"{left} -> {right}", ?_⟩
  rw [spellRule, show entry g.nonterminals nonterminal = .ok left from hname, hform]
  rfl

end Grammar

/-! ## Tables -/

/-- Whatever became of it, no look-up was out of range. -/
def Report.InRange {α : Type} (written : Except RenderError α) : Prop :=
  ∀ miss, written ≠ .error (.outOfRange miss)

namespace Report

theorem inRange_ok {α : Type} (text : α) : InRange (.ok text) := nofun

theorem InRange.bind {α β : Type} {written : Except RenderError α}
    {next : α → Except RenderError β} (h : InRange written) (hnext : ∀ text, InRange (next text)) :
    InRange (written >>= next) := by
  cases written with
  | ok text => exact hnext text
  | error problem =>
    intro miss heq
    cases heq
    exact h miss rfl

theorem inRange_ofSpelling {α : Type} {spelled : Except OutOfRange α}
    (h : ∃ text, spelled = .ok text) : InRange (RenderError.ofSpelling spelled) := by
  obtain ⟨text, rfl⟩ := h
  exact inRange_ok text

theorem table_inRange (rows : List (String × String)) : InRange (table rows) := by
  intro miss
  unfold table
  dsimp only
  split
  next => nofun
  next => nofun

end Report

namespace Trace

/-- Every symbol that a trace holds is declared. -/
structure Declared (g : Grammar) (trace : Trace) : Prop where
  start : ∀ symbol ∈ trace.start, g.Declares symbol
  left : ∀ step ∈ trace.steps, g.Declares (.nonterminal step.nonterminal)
  body : ∀ step ∈ trace.steps, ∀ symbol ∈ step.body, g.Declares symbol
  form : ∀ step ∈ trace.steps, ∀ symbol ∈ step.form, g.Declares symbol

variable {g : Grammar} {trace : Trace}

theorem Declared.result (h : trace.Declared g) : ∀ symbol ∈ trace.result, g.Declares symbol := by
  unfold Trace.result
  split
  next => exact h.start
  next step hlast => exact h.form step (List.mem_of_getLast? hlast)

theorem Declared.exists_rows (h : trace.Declared g) : ∃ rows, trace.rows g = .ok rows := by
  have hstages : ∃ rows, trace.stages.mapM (fun stage => do
      return (← g.spellForm stage.1, ← g.spellRule stage.2.nonterminal stage.2.body)) =
        .ok rows := by
    apply exists_mapM_eq_ok
    intro stage hstage
    obtain ⟨hform, hstep⟩ := List.of_mem_zip hstage
    have hdeclared : ∀ symbol ∈ stage.1, g.Declares symbol := by
      rcases List.mem_cons.mp hform with heq | hmem
      · rw [heq]
        exact h.start
      · obtain ⟨step, hmem, heq⟩ := List.mem_map.mp hmem
        rw [← heq]
        exact h.form step hmem
    obtain ⟨text, htext⟩ := Grammar.exists_spellForm hdeclared
    obtain ⟨rule, hrule⟩ := Grammar.exists_spellRule (h.left _ hstep) (h.body _ hstep)
    refine ⟨(text, rule), ?_⟩
    rw [htext, hrule]
    rfl
  obtain ⟨rows, hrows⟩ := hstages
  obtain ⟨last, hlast⟩ := Grammar.exists_spellForm h.result
  refine ⟨rows ++ [(last, Report.lastRule)], ?_⟩
  rw [Trace.rows, hrows, hlast]
  rfl

theorem Declared.table_inRange (h : trace.Declared g) : Report.InRange (trace.table g) :=
  (Report.inRange_ofSpelling h.exists_rows).bind Report.table_inRange

end Trace

/-! ## Derivations -/

namespace Grammar.Loaded

variable {g : Grammar} {word : Form}

/-- **A derivation has names for everything.** -/
theorem declared_of_derives (hg : g.Loaded) {form target : Form} {steps : List Step}
    (h : g.Derives form steps target) (hform : ∀ symbol ∈ form, g.Declares symbol) :
    Trace.Declared g ⟨form, steps⟩ := by
  induction h with
  | refl => exact ⟨hform, nofun, nofun, nofun⟩
  | @step form target first rest hexp _ ih =>
    have hnext := hg.declares_of_expands hexp hform
    obtain ⟨-, hleft, hbody, hforms⟩ := ih hnext
    obtain @⟨before, after, body, nonterminal, -, hmem⟩ := hexp
    exact ⟨hform, List.forall_mem_cons.mpr ⟨hg.lt_of_mem_bodies hmem, hleft⟩,
      List.forall_mem_cons.mpr ⟨hg.declares_of_mem_bodies hmem, hbody⟩,
      List.forall_mem_cons.mpr ⟨hnext, hforms⟩⟩

theorem declared_of_admits (hg : g.Loaded) (hne : g.nonterminals ≠ []) {trace : Trace}
    (h : g.Admits trace word) : trace.Declared g := by
  obtain ⟨start, steps⟩ := trace
  obtain ⟨rfl, hder⟩ := h
  refine hg.declared_of_derives hder ?_
  intro symbol hmem
  rw [List.mem_singleton.mp hmem]
  exact hg.declares_startSymbol hne

end Grammar.Loaded

/-! ## Reports -/

section Reports

variable {g : Grammar} {word : Form}

/-- Every symbol of every derivation found is declared. -/
def Outcome.Declared (g : Grammar) : Outcome → Prop
  | .found derivations => ∀ trace ∈ derivations.witnesses, trace.Declared g
  | .aborted _ => True

/-- Every symbol that a verdict names is declared. -/
def Verdict.Declared (g : Grammar) : Verdict → Prop
  | .emptyVocabulary => True
  | .ambiguous word first second =>
    (∀ symbol ∈ word, g.Declares symbol) ∧ first.Declared g ∧ second.Declared g
  | .notAmbiguous _ _ => True
  | .inconclusive word _ => ∀ symbol ∈ word, g.Declares symbol

/-- **A report on a word** has all the names that it asks for. -/
theorem Outcome.report_inRange {outcome : Outcome} (hword : ∀ symbol ∈ word, g.Declares symbol)
    (h : outcome.Declared g) : Report.InRange (outcome.report g word) := by
  unfold Outcome.report
  refine (Report.inRange_ofSpelling (Grammar.exists_spellForm hword)).bind ?_
  intro spelled
  split
  next => exact Report.inRange_ok _
  next found =>
    dsimp only
    split
    next only hwitness =>
      have hmem : only ∈ found.witnesses := by
        rw [hwitness]
        exact List.mem_singleton_self only
      exact (h only hmem).table_inRange.bind fun _ => Report.inRange_ok _
    next => exact Report.inRange_ok _

/-- **A report on a grammar** has all the names that it asks for. -/
theorem Verdict.report_inRange {verdict : Verdict} (h : verdict.Declared g) :
    Report.InRange (verdict.report g) := by
  cases verdict with
  | emptyVocabulary => exact Report.inRange_ok _
  | notAmbiguous => exact Report.inRange_ok _
  | inconclusive word limit =>
    refine (Report.inRange_ofSpelling (Grammar.exists_spellForm h)).bind fun _ => ?_
    exact Report.inRange_ok _
  | ambiguous word first second =>
    obtain ⟨hword, hfirst, hsecond⟩ := h
    refine (Report.inRange_ofSpelling (Grammar.exists_spellForm hword)).bind fun _ => ?_
    refine hfirst.table_inRange.bind fun _ => ?_
    exact hsecond.table_inRange.bind fun _ => Report.inRange_ok _

end Reports

end AmbiguitySearch
