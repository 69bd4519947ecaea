import AmbiguitySearch.Proofs.Search.Abort

/-!
# The reasons to drop a form

`Grammar.status` runs through its tests in an order and stops at the first that applies. The
order does not matter: `Hopeless` lists the tests side by side, each said of the form and the
word alone, and a form other than the word is a dead end exactly if one of them applies.

Of the two things the tests look at, the terminals in front and the number of letters, neither
is ever taken back by a leftmost step. So what is wrong with a form stays wrong with all forms
that it leads to, even if another test is the one to find it.

> `status_eq_deadEnd_iff`: a dead end is a form with a reason to be dropped.

> `deadEnd_final`: no derivation leads from one to the word, and every step from one leads to
> another.
-/

namespace AmbiguitySearch

namespace Form

/-- The terminals that stand before the first nonterminal. -/
def leading (form : Form) : Form := form.takeWhile Symbol.isTerminal

theorem leading_append_nonterminal {before : Form} (hw : before.IsWord) (id : Nat) (after : Form) :
    leading (before ++ .nonterminal id :: after) = before := by
  rw [leading, List.takeWhile_append_of_pos hw, List.takeWhile_cons_of_neg Bool.false_ne_true,
    List.append_nil]

/-- Up to the first nonterminal there are terminals. -/
theorem leading_eq_take {form : Form} {position id : Nat}
    (h : form.firstNonterminal? = some (position, id)) :
    form.leading = form.take position ∧ form.leading.length = position := by
  obtain ⟨before, after, hw, rfl, rfl⟩ := firstNonterminal?_eq_some_iff.mp h
  rw [leading_append_nonterminal hw, List.take_left]
  exact ⟨rfl, rfl⟩

end Form

namespace Grammar

variable {g : Grammar} {word form : Form}

/-- The reasons to drop a form while a word is sought. -/
inductive Hopeless (g : Grammar) (word form : Form) : Prop
  /-- The word is empty, and some symbol cannot vanish. -/
  | stays {symbol : Symbol} (empty : word = []) (mem : symbol ∈ form)
      (cannot : g.isNullable symbol = false)
  /-- No nonterminal is left. -/
  | final (isWord : form.IsWord)
  /-- There are more terminals in front than the word has letters. -/
  | ahead (long : word.length < form.leading.length)
  /-- The terminals in front do not begin the word. -/
  | astray (differs : ¬ form.leading <+: word)
  /-- There are more symbols that cannot vanish than the word has letters. -/
  | heavy (many : word.length < g.letters form)

/-- A live form gives no reason to drop it. -/
theorem not_hopeless_of_live {position nonterminal : Nat}
    (hlive : g.status word form = .live position nonterminal) : ¬ g.Hopeless word form := by
  obtain ⟨-, hfirst, hposition, htake, hletters⟩ := status_eq_live_iff.mp hlive
  obtain ⟨hleading, hlength⟩ := Form.leading_eq_take hfirst
  intro h
  cases h with
  | stays empty mem cannot =>
    rw [empty] at hletters
    have hvanishes := letters_eq_zero_iff.mp (Nat.le_zero.mp hletters)
    rw [List.all_eq_true.mp hvanishes _ mem] at cannot
    cases cannot
  | final isWord =>
    rw [Form.firstNonterminal?_eq_none_iff.mpr isWord] at hfirst
    cases hfirst
  | ahead long =>
    rw [hlength] at long
    exact Nat.not_lt.mpr hposition long
  | astray differs =>
    rw [hleading, htake] at differs
    exact differs (List.take_prefix position word)
  | heavy many => exact Nat.not_lt.mpr hletters many

/-- A form that gives no reason to drop it is live, unless it is the word. -/
theorem live_of_not_hopeless (hne : form ≠ word) (h : ¬ g.Hopeless word form) :
    ∃ position nonterminal, g.status word form = .live position nonterminal := by
  cases hfirst : form.firstNonterminal? with
  | none => exact absurd (.final (Form.firstNonterminal?_eq_none_iff.mp hfirst)) h
  | some found =>
    obtain ⟨position, nonterminal⟩ := found
    obtain ⟨hleading, hlength⟩ := Form.leading_eq_take hfirst
    have hahead : ¬ word.length < form.leading.length := fun long => h (.ahead long)
    have hbegins : form.leading <+: word := by
      by_contra hdiffers
      exact h (.astray hdiffers)
    have hletters : ¬ word.length < g.letters form := fun many => h (.heavy many)
    refine ⟨position, nonterminal, status_eq_live_iff.mpr ⟨hne, hfirst, ?_, ?_,
      Nat.le_of_not_lt hletters⟩⟩
    · rw [← hlength]
      exact Nat.le_of_not_lt hahead
    · rw [← hleading, List.prefix_iff_eq_take.mp hbegins, hlength]

/-- **A dead end is a form with a reason to be dropped.** -/
theorem status_eq_deadEnd_iff (hne : form ≠ word) :
    g.status word form = .deadEnd ↔ g.Hopeless word form := by
  cases hs : g.status word form with
  | derived => exact absurd (status_eq_derived_iff.mp hs) hne
  | live position nonterminal =>
    exact ⟨nofun, fun h => absurd h (not_hopeless_of_live hs)⟩
  | deadEnd =>
    refine ⟨fun _ => ?_, fun _ => rfl⟩
    by_contra h
    obtain ⟨position, nonterminal, hlive⟩ := live_of_not_hopeless hne h
    rw [hlive] at hs
    cases hs

/-- A dead end leads to dead ends only. The test that finds it need not be the same. -/
theorem Hopeless.expands {step : Step} (hw : word.IsWord) (hne : form ≠ word)
    (h : g.Hopeless word form) (hexp : g.Expands form step) :
    step.form ≠ word ∧ g.Hopeless word step.form := by
  have hdead := (status_eq_deadEnd_iff hne).mpr h
  have hnext : step.form ≠ word := by
    intro heq
    have hder : g.Derives form [step] word := .step hexp (heq ▸ .refl step.form)
    exact not_derives_of_deadEnd hw hdead hder
  refine ⟨hnext, ?_⟩
  by_contra hnot
  obtain ⟨position, nonterminal, hlive⟩ := live_of_not_hopeless hnext hnot
  obtain ⟨place, hback⟩ := hexp.live_of_live hw hlive
  rw [hback] at hdead
  cases hdead

/-- **Dead ends are dead and stay dead**, whether or not a derivation gets to them. -/
theorem deadEnd_final (g : Grammar) {word : Form} (hw : word.IsWord) :
    (∀ form, form ≠ word → (g.status word form = .deadEnd ↔ g.Hopeless word form)) ∧
      (∀ form, form ≠ word → g.Hopeless word form →
        (∀ steps, ¬ g.Derives form steps word) ∧
          ∀ step, g.Expands form step → step.form ≠ word ∧ g.Hopeless word step.form) ∧
      ∀ form step, g.Expands form step → g.letters form ≤ g.letters step.form := by
  refine ⟨fun form hne => status_eq_deadEnd_iff hne, fun form hne h => ⟨fun steps => ?_, ?_⟩,
    fun form step hexp => hexp.letters_le⟩
  · exact not_derives_of_deadEnd hw ((status_eq_deadEnd_iff hne).mpr h)
  · intro step hexp
    exact h.expands hw hne hexp

/-- Two nonterminals that cannot vanish do not make one letter, and the steps from them are of
no help. -/
theorem deadEnd_final_concatenation :
    (∀ steps, ¬ concatenation.Derives [.nonterminal 0, .nonterminal 0] steps [.terminal 0]) ∧
      concatenation.Hopeless [.terminal 0] [.nonterminal 0, .nonterminal 0, .nonterminal 0] ∧
      concatenation.Hopeless [.terminal 0] [.terminal 0, .nonterminal 0] := by
  have hw : Form.IsWord [.terminal 0] := Form.isWord_cons rfl Form.isWord_nil
  have hne : ([.nonterminal 0, .nonterminal 0] : Form) ≠ [.terminal 0] := by decide
  obtain ⟨hstatus, hdead, -⟩ := deadEnd_final concatenation hw
  obtain ⟨hnone, hsteps⟩ := hdead _ hne ((hstatus _ hne).mp (by decide))
  have hdoubled : concatenation.Expands [.nonterminal 0, .nonterminal 0]
      ⟨0, [.nonterminal 0, .nonterminal 0], [.nonterminal 0, .nonterminal 0, .nonterminal 0]⟩ :=
    expands_iff.mpr ⟨0, rfl, by decide, rfl⟩
  have hspelled : concatenation.Expands [.nonterminal 0, .nonterminal 0]
      ⟨0, [.terminal 0], [.terminal 0, .nonterminal 0]⟩ :=
    expands_iff.mpr ⟨0, rfl, by decide, rfl⟩
  exact ⟨hnone, (hsteps _ hdoubled).2, (hsteps _ hspelled).2⟩

end Grammar

end AmbiguitySearch
