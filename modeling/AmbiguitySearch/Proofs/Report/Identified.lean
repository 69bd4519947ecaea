import AmbiguitySearch.Proofs.Report.Spelled
import AmbiguitySearch.Proofs.Report.Table
import AmbiguitySearch.Proofs.Survey.Truth

/-!
# What a verdict's report says

The report on a verdict can be taken apart again. Its first character says which kind of
verdict it is. The sentences are the same for all verdicts of a kind, so what they are put
around can be cut out: a number ends at the first character that is no digit, a word at the
end of its line, as no name goes on to another, and a table where its closing line is
(`Trace.table_append_inj`). It does not matter that a name may look like a bar, an arrow, a
number or a piece of a sentence.

> `Verdict.report_injective`: over a grammar of legible names, different verdicts have
> different reports.

> `report_identifies`: so it is with every grammar that was read, and the two derivations
> that a survey stops at have different tables.
-/

namespace AmbiguitySearch

namespace Report

variable {rest rest' : String}

/-- Numbers have different digits. -/
theorem repr_injective {number number' : Nat} (h : number.repr = number'.repr) :
    number = number' := by
  have hdigits := congrArg (fun digits => Nat.ofDigitChars 10 digits.toList 0) h
  simpa [Nat.toList_repr, Nat.ofDigitChars_toDigits] using hdigits

/-- A number ends where something else than a digit stands. -/
theorem repr_append_inj {piece : String} {number number' : Nat}
    (hpiece : piece.toList.head?.any (!·.isDigit) = true)
    (h : number.repr ++ (piece ++ rest) = number'.repr ++ (piece ++ rest')) :
    number = number' ∧ rest = rest' := by
  have hdigits : ∀ number : Nat, ∀ c ∈ number.repr.toList, c.isDigit = true := by
    intro number c hmem
    rw [Nat.toList_repr] at hmem
    exact Nat.isDigit_of_mem_toDigits (by decide) (by decide) hmem
  obtain ⟨hnumber, hrest⟩ := append_inj_of_sort hpiece (hdigits number) (hdigits number') h
  exact ⟨repr_injective hnumber, hrest⟩

/-- A form ends where its line does. -/
theorem form_append_inj {g : Grammar} (hg : g.Legible) {form form' : Form} {text text' : String}
    (h : g.spellForm form = .ok text) (h' : g.spellForm form' = .ok text')
    (heq : text ++ ("\n" ++ rest) = text' ++ ("\n" ++ rest')) : form = form' ∧ rest = rest' := by
  have hline : ∀ {form : Form} {text : String}, g.spellForm form = .ok text →
      ∀ c ∈ text.toList, (c != '\n') = true := by
    rintro form text hform c hmem
    rw [bne_iff_ne]
    rintro rfl
    exact hg.oneLine.newline_notMem_form hform hmem
  obtain ⟨rfl, hrest⟩ := append_inj_of_sort (by decide) (hline h) (hline h') heq
  exact ⟨hg.form_eq h h' rfl, hrest⟩

end Report

namespace Verdict

variable {g : Grammar} {text : String} {word : Form}

/-! ## The report of each kind of verdict -/

theorem report_ambiguous {first second : Trace}
    (h : (Verdict.ambiguous word first second).report g = .ok text) :
    ∃ spelled firstTable secondTable, g.spellForm word = .ok spelled ∧
      first.table g = .ok firstTable ∧ second.table g = .ok secondTable ∧
      text = "Found two leftmost derivations of the word: " ++ (spelled ++ ("\n" ++
        ("The first leftmost derivation is:\n" ++ (firstTable ++
          ("The second leftmost derivation is:\n" ++ (secondTable ++
            "This grammar is ambiguous.\n")))))) := by
  obtain ⟨spelled, hspelled, h⟩ := bind_eq_ok h
  obtain ⟨firstTable, hfirst, h⟩ := bind_eq_ok h
  obtain ⟨secondTable, hsecond, h⟩ := bind_eq_ok h
  cases h
  refine ⟨spelled, firstTable, secondTable, RenderError.ofSpelling_eq_ok hspelled, hfirst,
    hsecond, ?_⟩
  simp only [← String.append_assoc]
  rfl

theorem report_notAmbiguous {maxLength wordsTested : Nat}
    (h : (Verdict.notAmbiguous maxLength wordsTested).report g = .ok text) :
    text = "No ambiguity found in " ++ (wordsTested.repr ++ (" words up to length " ++
      (maxLength.repr ++ (". " ++
        "Longer words were not tested, so this is not a proof.\n")))) := by
  cases h
  simp only [← String.append_assoc]
  rfl

theorem report_inconclusive {depthLimit : Nat}
    (h : (Verdict.inconclusive word depthLimit).report g = .ok text) :
    ∃ spelled, g.spellForm word = .ok spelled ∧
      text = "Inconclusive: the " ++ ("search aborted after " ++ (depthLimit.repr ++
        (" derivation steps" ++ (" while testing the word: " ++ (spelled ++ ("\n" ++
          "The recursion depth limit was reached; no ambiguity claim is made.\n")))))) := by
  obtain ⟨spelled, hspelled, h⟩ := bind_eq_ok h
  cases h
  refine ⟨spelled, RenderError.ofSpelling_eq_ok hspelled, ?_⟩
  show "Inconclusive: the " ++ ("search aborted after " ++ depthLimit.repr ++ " derivation steps") ++
    " while testing the word: " ++ spelled ++ "\n" ++
      "The recursion depth limit was reached; no ambiguity claim is made.\n" = _
  simp only [String.append_assoc]

/-- The character that the reports on verdicts of a kind begin with. -/
def initial : Verdict → Char
  | .emptyVocabulary => 'T'
  | .ambiguous _ _ _ => 'F'
  | .notAmbiguous _ _ => 'N'
  | .inconclusive _ _ => 'I'

theorem head?_report {verdict : Verdict} (h : verdict.report g = .ok text) :
    text.toList.head? = some verdict.initial := by
  cases verdict with
  | emptyVocabulary =>
    cases h
    rfl
  | ambiguous word first second =>
    obtain ⟨_, _, _, -, -, -, rfl⟩ := report_ambiguous h
    rw [String.toList_append]
    rfl
  | notAmbiguous maxLength wordsTested =>
    rw [report_notAmbiguous h, String.toList_append]
    rfl
  | inconclusive word depthLimit =>
    obtain ⟨_, -, rfl⟩ := report_inconclusive h
    rw [String.toList_append]
    rfl

/-! ## Reports taken apart -/

section Apart

variable (hg : g.Legible)
include hg

theorem ambiguous_eq {word' : Form} {first second first' second' : Trace}
    (h : (Verdict.ambiguous word first second).report g = .ok text)
    (h' : (Verdict.ambiguous word' first' second').report g = .ok text) :
    word = word' ∧ first = first' ∧ second = second' := by
  obtain ⟨spelled, firstTable, secondTable, hspelled, hfirst, hsecond, rfl⟩ := report_ambiguous h
  obtain ⟨spelled', firstTable', secondTable', hspelled', hfirst', hsecond', heq⟩ :=
    report_ambiguous h'
  rw [String.append_right_inj] at heq
  obtain ⟨hword, heq⟩ := Report.form_append_inj hg hspelled hspelled' heq
  rw [String.append_right_inj] at heq
  obtain ⟨hfirst, heq⟩ := Trace.table_append_inj hg hfirst hfirst' heq
  rw [String.append_right_inj] at heq
  obtain ⟨hsecond, -⟩ := Trace.table_append_inj hg hsecond hsecond' heq
  exact ⟨hword, hfirst, hsecond⟩

theorem inconclusive_eq {word' : Form} {depthLimit depthLimit' : Nat}
    (h : (Verdict.inconclusive word depthLimit).report g = .ok text)
    (h' : (Verdict.inconclusive word' depthLimit').report g = .ok text) :
    word = word' ∧ depthLimit = depthLimit' := by
  obtain ⟨spelled, hspelled, rfl⟩ := report_inconclusive h
  obtain ⟨spelled', hspelled', heq⟩ := report_inconclusive h'
  rw [String.append_right_inj, String.append_right_inj] at heq
  obtain ⟨hlimit, heq⟩ := Report.repr_append_inj (by decide) heq
  rw [String.append_right_inj] at heq
  exact ⟨(Report.form_append_inj hg hspelled hspelled' heq).1, hlimit⟩

omit hg in
theorem notAmbiguous_eq {maxLength maxLength' wordsTested wordsTested' : Nat}
    (h : (Verdict.notAmbiguous maxLength wordsTested).report g = .ok text)
    (h' : (Verdict.notAmbiguous maxLength' wordsTested').report g = .ok text) :
    maxLength = maxLength' ∧ wordsTested = wordsTested' := by
  have heq := (report_notAmbiguous h).symm.trans (report_notAmbiguous h')
  rw [String.append_right_inj] at heq
  obtain ⟨htested, heq⟩ := Report.repr_append_inj (by decide) heq
  exact ⟨(Report.repr_append_inj (by decide) heq).1, htested⟩

/-- **Different verdicts have different reports.** -/
theorem report_injective {verdict verdict' : Verdict} (h : verdict.report g = .ok text)
    (h' : verdict'.report g = .ok text) : verdict = verdict' := by
  have hinitial : verdict.initial = verdict'.initial :=
    Option.some.inj ((head?_report h).symm.trans (head?_report h'))
  cases verdict with
  | emptyVocabulary =>
    cases verdict' with
    | emptyVocabulary => rfl
    | _ => simp [initial] at hinitial
  | ambiguous word first second =>
    cases verdict' with
    | ambiguous word' first' second' =>
      obtain ⟨rfl, rfl, rfl⟩ := ambiguous_eq hg h h'
      rfl
    | _ => simp [initial] at hinitial
  | notAmbiguous maxLength wordsTested =>
    cases verdict' with
    | notAmbiguous maxLength' wordsTested' =>
      obtain ⟨rfl, rfl⟩ := notAmbiguous_eq h h'
      rfl
    | _ => simp [initial] at hinitial
  | inconclusive word depthLimit =>
    cases verdict' with
    | inconclusive word' depthLimit' =>
      obtain ⟨rfl, rfl⟩ := inconclusive_eq hg h h'
      rfl
    | _ => simp [initial] at hinitial

end Apart

end Verdict

/-! ## The statement -/

/-- What can be written is written, unless a column would be too wide. -/
theorem Report.InRange.cases {α : Type} {written : Except RenderError α} (h : InRange written) :
    (∃ text, written = .ok text) ∨ written = .error .columnTooWide := by
  cases written with
  | ok text => exact .inl ⟨text, rfl⟩
  | error problem =>
    cases problem with
    | columnTooWide => exact .inr rfl
    | outOfRange miss => exact absurd rfl (h miss)

theorem Trace.Declared.table_cases {g : Grammar} {trace : Trace} (h : trace.Declared g) :
    (∃ text, trace.table g = .ok text) ∧ ¬ trace.TooWide g ∨
      trace.table g = .error .columnTooWide ∧ trace.TooWide g := by
  obtain ⟨shown, hshown⟩ := h.exists_rows
  rw [← Trace.table_eq_columnTooWide_iff hshown]
  rcases h.table_inRange.cases with ⟨text, htext⟩ | hwide
  · refine .inl ⟨⟨text, htext⟩, ?_⟩
    rw [htext]
    exact nofun
  · exact .inr ⟨hwide, hwide⟩

/-- The traces that a verdict's report shows. -/
def Verdict.traces : Verdict → List Trace
  | .ambiguous _ first second => [first, second]
  | _ => []

/-- A report is not written exactly if one of its traces is too wide. -/
theorem Verdict.report_eq_columnTooWide_iff {g : Grammar} {verdict : Verdict}
    (h : verdict.Declared g) : verdict.report g = .error .columnTooWide ↔
      ∃ trace ∈ verdict.traces, trace.TooWide g := by
  cases verdict with
  | emptyVocabulary => exact iff_of_false nofun nofun
  | notAmbiguous maxLength wordsTested => exact iff_of_false nofun nofun
  | inconclusive word depthLimit =>
    obtain ⟨spelled, hspelled⟩ := Grammar.exists_spellForm h
    rw [report, hspelled]
    exact iff_of_false nofun nofun
  | ambiguous word first second =>
    obtain ⟨hword, hfirst, hsecond⟩ := h
    obtain ⟨spelled, hspelled⟩ := Grammar.exists_spellForm hword
    have htraces : (∃ trace ∈ (Verdict.ambiguous word first second).traces, trace.TooWide g) ↔
        first.TooWide g ∨ second.TooWide g := by simp [traces]
    rw [htraces, report, hspelled]
    rcases hfirst.table_cases with ⟨⟨firstTable, htable⟩, hfits⟩ | ⟨htable, hwide⟩
    · rw [htable]
      rcases hsecond.table_cases with ⟨⟨secondTable, htable'⟩, hfits'⟩ | ⟨htable', hwide'⟩
      · rw [htable']
        exact iff_of_false nofun (not_or.mpr ⟨hfits, hfits'⟩)
      · rw [htable']
        exact iff_of_true rfl (.inr hwide')
    · rw [htable]
      exact iff_of_true rfl (.inl hwide)

/-- A survey stops at two derivations of one word by different rules. -/
theorem Survey.admits_of_verdict {σ : Type} {survey : Survey σ} (hg : survey.grammar.Loaded)
    {source : σ} {word : Form} {first second : Trace}
    (h : survey.verdict source = .ambiguous word first second) :
    survey.grammar.Admits first word ∧ survey.grammar.Admits second word ∧
      first.rules ≠ second.rules := by
  rw [verdict_eq, made] at h
  split at h
  next => cases h
  next =>
    rcases pass_cases survey.words source 0 with ⟨-, hverdict⟩ |
      ⟨passed, word', left, start, rest, outcome, hsplit, hpassed, hrun, hruling⟩
    · rw [hverdict] at h
      cases h
    · rw [h] at hruling
      exact (holds_of_settled hg hsplit hpassed hrun hruling).2.1

/-- **A report identifies its verdict.** Over a grammar that was read, a verdict on declared
symbols is reported, whether or not its traces are derivations, unless one of them has a form
or a rule that is longer than a column can be wide. Reports that read the same are on the same
verdict: its kind, its numbers, its word and both of its traces with every nonterminal, body and
form. So the two derivations that a survey stops at, which differ in a rule, are shown by
different tables. -/
theorem report_identifies {path : String} {bytes : List UInt8} {start? : Option String}
    {g : Grammar} (h : Source.read path bytes start? = .ok g) :
    (∀ verdict : Verdict, verdict.Declared g →
      ((∃ text, verdict.report g = .ok text) ∨ verdict.report g = .error .columnTooWide) ∧
        (verdict.report g = .error .columnTooWide ↔
          ∃ trace ∈ verdict.traces, trace.TooWide g)) ∧
    (∀ (verdict verdict' : Verdict) (text : String), verdict.report g = .ok text →
      verdict'.report g = .ok text → verdict = verdict') ∧
    ∀ (σ : Type) (survey : Survey σ) (source : σ) (word : Form) (first second : Trace),
      survey.grammar = g → survey.verdict source = .ambiguous word first second →
        first.Declared g ∧ second.Declared g ∧
          ∀ text, first.table g = .ok text → second.table g ≠ .ok text := by
  obtain ⟨hloaded, hne, hg⟩ := Source.grammar_of_read h
  refine ⟨fun verdict hdeclared => ⟨(Verdict.report_inRange hdeclared).cases,
    Verdict.report_eq_columnTooWide_iff hdeclared⟩,
    fun verdict verdict' text => Verdict.report_injective hg, ?_⟩
  rintro σ survey source word first second rfl hverdict
  obtain ⟨hfirst, hsecond, hrules⟩ := Survey.admits_of_verdict hloaded hverdict
  refine ⟨hloaded.declared_of_admits hne hfirst, hloaded.declared_of_admits hne hsecond, ?_⟩
  intro text htable htable'
  have htext : text ++ "" = text ++ "" := rfl
  obtain ⟨hsame, -⟩ := Trace.table_append_inj hg htable htable' htext
  exact hrules (congrArg Trace.rules hsame)

/-- A grammar whose names look like pieces of a table. -/
def barNames : Grammar := .ofDefinitions [⟨"Done", [["|_|_|"], ["Done"]]⟩]

/-- The derivation of `|_|_|` at once and the one that turns in the loop first. -/
def directTrace : Trace := ⟨[.nonterminal 0], [⟨0, [.terminal 0], [.terminal 0]⟩]⟩

def loopedTrace : Trace :=
  ⟨[.nonterminal 0], [⟨0, [.nonterminal 0], [.nonterminal 0]⟩, ⟨0, [.terminal 0], [.terminal 0]⟩]⟩

/-- A survey stops at these two derivations, and the report on them is not the one on the same
derivations the other way round. -/
theorem report_identifies_barNames :
    Survey.verdict ⟨barNames, .asListed, 2, 1⟩ () =
        .ambiguous [.terminal 0] directTrace loopedTrace ∧
      (∀ text, directTrace.table barNames = .ok text → loopedTrace.table barNames ≠ .ok text) ∧
        ∃ text,
          (Verdict.ambiguous [.terminal 0] directTrace loopedTrace).report barNames = .ok text ∧
            (Verdict.ambiguous [.terminal 0] loopedTrace directTrace).report barNames ≠ .ok text := by
  have hread : Source.read "g" (Text.encode "Done -> |_|_| | Done\n".toList) none =
      .ok barNames := by decide +kernel
  have hverdict : Survey.verdict ⟨barNames, .asListed, 2, 1⟩ () =
      .ambiguous [.terminal 0] directTrace loopedTrace := by decide +kernel
  obtain ⟨hwritten, hinjective, htables⟩ := report_identifies hread
  obtain ⟨hfirst, hsecond, hdiffer⟩ := htables Unit _ () _ _ _ rfl hverdict
  refine ⟨hverdict, hdiffer, ?_⟩
  have hletter : 0 < barNames.terminals.length := by decide
  have hdeclared : (Verdict.ambiguous [.terminal 0] directTrace loopedTrace).Declared barNames :=
    ⟨List.forall_mem_singleton.mpr hletter, hfirst, hsecond⟩
  rcases (hwritten _ hdeclared).1 with ⟨text, htext⟩ | hwide
  · refine ⟨text, htext, fun hturned => ?_⟩
    have hsame := hinjective _ _ text htext hturned
    exact absurd hsame (by decide)
  · exact absurd hwide (by decide +kernel)

/-- The row of a cell with bars of its own is as long as any other. -/
example : directTrace.table barNames = .ok
    (" ________________________________ \n" ++
    "| Derived String | Applied Rule  |\n" ++
    "|________________|_______________|\n" ++
    "| Done           | Done -> |_|_| |\n" ++
    "| |_|_|          | Done          |\n" ++
    "|________________|_______________|\n") := by decide +kernel

end AmbiguitySearch
