import AmbiguitySearch.Proofs.Derivation
import AmbiguitySearch.Proofs.Grammar.Nullable
import AmbiguitySearch.Search.Status

/-!
# A dead end is dead

The search drops a form when `status` calls it a dead end. Nothing is lost by
that: two things only grow along a leftmost derivation, the terminals in front
of the first nonterminal and the number of symbols that cannot vanish
(`Expands.letters_le`), and each reason for a dead end is that one of them is
already more than the word allows.

> `not_derives_of_deadEnd`: no leftmost derivation leads from a dead end to the
> word.
-/

namespace AmbiguitySearch.Grammar

variable {g : Grammar} {form word : Form}

/-! ## Letters -/

theorem letters_append (g : Grammar) (left right : Form) :
    g.letters (left ++ right) = g.letters left + g.letters right :=
  List.countP_append

theorem letters_cons (g : Grammar) (symbol : Symbol) (rest : Form) :
    g.letters (symbol :: rest) = g.letters [symbol] + g.letters rest :=
  g.letters_append [symbol] rest

theorem letters_eq_zero_iff : g.letters form = 0 ↔ form.all g.isNullable = true := by
  rw [letters, List.countP_eq_zero, List.all_eq_true]
  simp only [Bool.not_eq_true', Bool.not_eq_false]

theorem letters_eq_length (hw : form.IsWord) : g.letters form = form.length := by
  rw [letters, List.countP_eq_length]
  intro symbol hs
  have ht := hw symbol hs
  cases symbol with
  | terminal => rfl
  | nonterminal => cases ht

/-- A body has a letter if its nonterminal has: otherwise the nonterminal would
vanish with it. -/
theorem letters_nonterminal_le {nonterminal : Nat} {body : Form}
    (hb : body ∈ g.bodies nonterminal) : g.letters [.nonterminal nonterminal] ≤ g.letters body := by
  by_cases hzero : g.letters body = 0
  · have hn : g.isNullable (.nonterminal nonterminal) = true :=
      (g.isNullable_nonterminal_iff nonterminal).mpr ⟨body, hb, letters_eq_zero_iff.mp hzero⟩
    simp [letters, hn]
  · have hone : g.letters [.nonterminal nonterminal] ≤ 1 := List.countP_le_length
    omega

/-- A leftmost step never lowers the number of letters. -/
theorem Expands.letters_le {step : Step} (h : g.Expands form step) :
    g.letters form ≤ g.letters step.form := by
  obtain ⟨-, hb⟩ := h
  have hle := letters_nonterminal_le hb
  rw [letters_append, letters_append, letters_append, letters_cons]
  omega

theorem Derives.letters_le {target : Form} {steps : List Step} (h : g.Derives form steps target) :
    g.letters form ≤ g.letters target := by
  induction h with
  | refl => exact Nat.le_refl _
  | step hexp _ ih => exact Nat.le_trans hexp.letters_le ih

/-! ## What the status says -/

theorem status_eq_derived_iff : g.status word form = .derived ↔ form = word := by
  unfold status
  constructor
  · intro h
    by_cases heq : form = word
    · exact heq
    · -- no other branch says so
      rw [if_neg heq] at h
      grind
  · intro h
    rw [if_pos h]

/-- Why a form is live. -/
theorem status_eq_live_iff {position nonterminal : Nat} :
    g.status word form = .live position nonterminal ↔
      form ≠ word ∧ form.firstNonterminal? = some (position, nonterminal) ∧
        position ≤ word.length ∧ form.take position = word.take position ∧
          g.letters form ≤ word.length := by
  unfold status
  constructor
  · intro h
    split at h
    next => cases h
    rename_i hne
    split at h
    next => cases h
    split at h
    next => cases h
    rename_i hfirst
    split at h
    next => cases h
    rename_i hpos
    split at h
    next => cases h
    rename_i htake
    split at h
    next => cases h
    rename_i hlet
    cases h
    exact ⟨hne, hfirst, Nat.le_of_not_lt hpos, Decidable.not_not.mp htake,
      Nat.le_of_not_lt hlet⟩
  · rintro ⟨hne, hfirst, hpos, htake, hlet⟩
    -- a form without letters vanishes, so that the empty word needs no test of its own
    have hvanish : (word.isEmpty && !form.all g.isNullable) = false := by
      cases word with
      | cons => rfl
      | nil =>
        have hzero : g.letters form = 0 := Nat.le_zero.mp hlet
        simp [letters_eq_zero_iff.mp hzero]
    rw [if_neg hne, hvanish, if_neg Bool.false_ne_true, hfirst]
    simp only
    rw [if_neg (Nat.not_lt.mpr hpos), if_neg (not_not_intro htake), if_neg (Nat.not_lt.mpr hlet)]

/-- From a form that leads to the word, the search goes on. -/
theorem live_of_derives {position nonterminal : Nat} {steps : List Step} (hw : word.IsWord)
    (h : g.Derives form steps word) (hne : form ≠ word)
    (hfirst : form.firstNonterminal? = some (position, nonterminal)) :
    g.status word form = .live position nonterminal := by
  obtain ⟨before, after, hbefore, rfl, rfl⟩ := Form.firstNonterminal?_eq_some_iff.mp hfirst
  have hpre : before <+: word := h.prefix_settled hbefore
  have hlet := h.letters_le
  rw [letters_eq_length hw] at hlet
  refine status_eq_live_iff.mpr ⟨hne, hfirst, hpre.length_le, ?_, hlet⟩
  rw [List.take_left, ← List.prefix_iff_eq_take.mp hpre]

/-- **Dead ends are dead**: no leftmost derivation, however long, leads from one
to the word. -/
theorem not_derives_of_deadEnd {steps : List Step} (hw : word.IsWord)
    (hdead : g.status word form = .deadEnd) : ¬ g.Derives form steps word := by
  intro h
  by_cases heq : form = word
  · rw [status_eq_derived_iff.mpr heq] at hdead
    cases hdead
  · cases hfirst : form.firstNonterminal? with
    | none =>
      exact heq (h.of_isWord (Form.firstNonterminal?_eq_none_iff.mp hfirst)).2
    | some found =>
      rw [live_of_derives hw h heq hfirst] at hdead
      cases hdead

end AmbiguitySearch.Grammar
