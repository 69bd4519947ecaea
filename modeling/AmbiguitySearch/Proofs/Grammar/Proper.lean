import AmbiguitySearch.Proofs.Grammar.Declared
import AmbiguitySearch.Proofs.Search.DeadEnd
import Mathlib.Data.Finset.Card
import Mathlib.Data.Finset.Range
import Mathlib.Logic.Relation

/-!
# Proper grammars

A grammar is proper if no body is empty and no nonterminal can be replaced by
itself through bodies that are a single nonterminal. Then a derivation cannot go on
without getting anywhere: a step makes the form longer, or puts a terminal in the
place of a nonterminal, or moves down a chain of renamings, which has an end.

`progress` adds these up, the first two as the `weight` of the form. A step that
gains weight may start a new chain of renamings, so a unit of weight has to count
for as many steps as there are nonterminals.

> `Expands.progress_lt`: every step makes progress.

> `Derives.length_lt`: a derivation that has not come to a word yet is shorter than
> the `stepBound` for the length of its form.
-/

namespace AmbiguitySearch.Grammar

variable {g : Grammar}

/-- The second nonterminal is all of a body of the first. -/
def Renames (g : Grammar) (nonterminal renamed : Nat) : Prop :=
  [.nonterminal renamed] ∈ g.bodies nonterminal

/-- No body is empty, and no renamings lead back to where they started. -/
structure Proper (g : Grammar) : Prop where
  nil_notMem : ∀ nonterminal, [] ∉ g.bodies nonterminal
  acyclic : ∀ nonterminal, ¬ Relation.TransGen g.Renames nonterminal nonterminal

/-- What a nonterminal is renamed to is declared. -/
theorem Loaded.lt_of_renames (hg : g.Loaded) {nonterminal renamed : Nat}
    (h : g.Renames nonterminal renamed) : renamed < g.nonterminals.length :=
  hg.declares_of_mem_bodies h _ (List.mem_singleton_self _)

/-- Renamings that go down a rank do not lead back. -/
theorem Loaded.proper_of_rank (hg : g.Loaded) (rank : Nat → Nat)
    (hnil : ∀ bodies ∈ g.rules, [] ∉ bodies)
    (hrank : ∀ nonterminal < g.nonterminals.length, ∀ renamed < g.nonterminals.length,
      [.nonterminal renamed] ∈ g.bodies nonterminal → rank renamed < rank nonterminal) :
    g.Proper where
  nil_notMem nonterminal hb := by
    obtain ⟨bodies, hbodies, hmem⟩ := exists_rules_of_mem_bodies hb
    exact hnil bodies (List.mem_of_getElem? hbodies) hmem
  acyclic nonterminal hcycle := by
    have hstep : ∀ {first second}, g.Renames first second → rank second < rank first :=
      fun hrename => hrank _ (hg.lt_of_mem_bodies hrename) _ (hg.lt_of_renames hrename) hrename
    have hdown : ∀ last, Relation.TransGen g.Renames nonterminal last →
        rank last < rank nonterminal := by
      intro last hchain
      induction hchain with
      | single hrename => exact hstep hrename
      | tail _ hrename ih => exact Nat.lt_trans (hstep hrename) ih
    exact Nat.lt_irrefl _ (hdown nonterminal hcycle)

/-- With no empty body nothing vanishes. -/
theorem Proper.isNullable_eq_false (h : g.Proper) (symbol : Symbol) :
    g.isNullable symbol = false := by
  cases symbol with
  | terminal => rfl
  | nonterminal id =>
    -- the first to vanish would need an empty body
    have hclosed : ∀ id : Nat, ∀ body ∈ g.bodies id,
        (∀ symbol ∈ body, ∃ inner, symbol = .nonterminal inner ∧ False) → False := by
      intro id body hb hall
      cases body with
      | nil => exact h.nil_notMem id hb
      | cons symbol rest =>
        obtain ⟨_, -, hfalse⟩ := hall symbol (List.mem_cons_self ..)
        exact hfalse
    rw [Bool.eq_false_iff]
    exact isNullable_of_closed hclosed

theorem Proper.letters_eq_length (h : g.Proper) (form : Form) : g.letters form = form.length := by
  rw [letters, List.countP_eq_length]
  intro symbol _
  rw [h.isNullable_eq_false]
  rfl

/-! ## Chains of renamings -/

open Classical in
/-- How many nonterminals a nonterminal can be renamed to. -/
noncomputable def renamings (g : Grammar) (nonterminal : Nat) : Nat :=
  ((Finset.range g.nonterminals.length).filter
    (Relation.TransGen g.Renames nonterminal)).card

/-- A renaming leaves fewer to go to. -/
theorem Proper.renamings_lt (h : g.Proper) {nonterminal renamed : Nat}
    (hrename : g.Renames nonterminal renamed) (hlt : renamed < g.nonterminals.length) :
    g.renamings renamed < g.renamings nonterminal := by
  classical
  unfold renamings
  apply Finset.card_lt_card
  rw [Finset.ssubset_iff_of_subset]
  · refine ⟨renamed, ?_, ?_⟩
    · rw [Finset.mem_filter, Finset.mem_range]
      exact ⟨hlt, .single hrename⟩
    · intro hmem
      exact h.acyclic renamed (Finset.mem_filter.mp hmem).2
  · intro further hmem
    rw [Finset.mem_filter] at hmem ⊢
    exact ⟨hmem.1, .head hrename hmem.2⟩

/-- There is always one that it cannot be renamed to: itself. -/
theorem Proper.renamings_lt_length (h : g.Proper) {nonterminal : Nat}
    (hlt : nonterminal < g.nonterminals.length) :
    g.renamings nonterminal < g.nonterminals.length := by
  classical
  unfold renamings
  refine Nat.lt_of_lt_of_eq (Finset.card_lt_card ?_) (Finset.card_range _)
  rw [Finset.filter_ssubset]
  exact ⟨nonterminal, Finset.mem_range.mpr hlt, h.acyclic nonterminal⟩

/-! ## Progress -/

/-- The length of a form, with its terminals counted twice. -/
def weight (form : Form) : Nat := form.length + form.countP Symbol.isTerminal

theorem weight_append (left right : Form) : weight (left ++ right) = weight left + weight right := by
  unfold weight
  rw [List.length_append, List.countP_append]
  omega

theorem weight_cons (symbol : Symbol) (rest : Form) :
    weight (symbol :: rest) = weight [symbol] + weight rest :=
  weight_append [symbol] rest

theorem weight_nonterminal (id : Nat) : weight [.nonterminal id] = 1 := rfl

/-- A body that is neither empty nor a renaming has more weight than the nonterminal
it replaces. -/
theorem two_le_weight {body : Form} (hnil : body ≠ [])
    (hrename : ∀ id, body ≠ [.nonterminal id]) : 2 ≤ weight body := by
  match body, hnil, hrename with
  | [.terminal id], _, _ => exact Nat.le_refl 2
  | [.nonterminal id], _, hrename => exact absurd rfl (hrename id)
  | first :: second :: rest, _, _ =>
    unfold weight
    rw [List.length_cons, List.length_cons]
    omega

/-- A form with a nonterminal in it weighs less than twice its length. -/
theorem weight_lt_of_nonterminal (before after : Form) (nonterminal : Nat) :
    weight (before ++ .nonterminal nonterminal :: after) <
      2 * (before ++ .nonterminal nonterminal :: after).length := by
  have hbefore : before.countP Symbol.isTerminal ≤ before.length := List.countP_le_length
  have hafter : after.countP Symbol.isTerminal ≤ after.length := List.countP_le_length
  rw [weight_append, weight_cons, weight_nonterminal, List.length_append, List.length_cons]
  unfold weight
  omega

/-- How far down a chain of renamings the first nonterminal is at least. -/
noncomputable def descended (g : Grammar) (form : Form) : Nat :=
  match form.firstNonterminal? with
  | none => 0
  | some (_, nonterminal) => g.nonterminals.length - 1 - g.renamings nonterminal

theorem descended_cut {before : Form} (after : Form) (nonterminal : Nat) (hw : before.IsWord) :
    g.descended (before ++ .nonterminal nonterminal :: after) =
      g.nonterminals.length - 1 - g.renamings nonterminal := by
  have hfirst : Form.firstNonterminal? (before ++ .nonterminal nonterminal :: after) =
      some (before.length, nonterminal) :=
    Form.firstNonterminal?_eq_some_iff.mpr ⟨before, after, hw, rfl, rfl⟩
  rw [descended, hfirst]

/-- What a derivation has done to come to a form. -/
noncomputable def progress (g : Grammar) (form : Form) : Nat :=
  g.nonterminals.length * weight form + g.descended form

/-- **Every step makes progress.** -/
theorem Expands.progress_lt {form : Form} {step : Step} (hproper : g.Proper) (hg : g.Loaded)
    (h : g.Expands form step) : g.progress form < g.progress step.form := by
  obtain @⟨before, after, body, nonterminal, hsettled, hb⟩ := h
  have hdeclared : nonterminal < g.nonterminals.length := hg.lt_of_mem_bodies hb
  have hbound := hproper.renamings_lt_length hdeclared
  unfold progress
  rw [descended_cut after nonterminal hsettled]
  by_cases hrename : ∃ renamed, body = [.nonterminal renamed]
  · -- the weight stays, the chain goes on
    obtain ⟨renamed, rfl⟩ := hrename
    have hless := hproper.renamings_lt hb (hg.lt_of_renames hb)
    show _ < g.nonterminals.length * weight (before ++ .nonterminal renamed :: after) +
      g.descended (before ++ .nonterminal renamed :: after)
    rw [descended_cut after renamed hsettled, weight_append, weight_append, weight_cons,
      weight_cons (.nonterminal renamed), weight_nonterminal, weight_nonterminal]
    omega
  · -- the weight gained pays for any chain
    have hnil : body ≠ [] := by
      rintro rfl
      exact hproper.nil_notMem nonterminal hb
    have hgain : 2 ≤ weight body := two_le_weight hnil fun id heq => hrename ⟨id, heq⟩
    have hweight : weight (before ++ .nonterminal nonterminal :: after) + 1 ≤
        weight (before ++ (body ++ after)) := by
      rw [weight_append, weight_cons, weight_nonterminal, weight_append, weight_append]
      omega
    have hscaled := Nat.mul_le_mul_left g.nonterminals.length hweight
    rw [Nat.mul_add, Nat.mul_one] at hscaled
    show _ < g.nonterminals.length * weight (before ++ (body ++ after)) + _
    omega

theorem Derives.progress_le {form target : Form} {steps : List Step} (hproper : g.Proper)
    (hg : g.Loaded) (h : g.Derives form steps target) :
    g.progress form + steps.length ≤ g.progress target := by
  induction h with
  | refl => exact Nat.le_refl _
  | step hexp _ ih =>
    have hstep := hexp.progress_lt hproper hg
    rw [List.length_cons]
    omega

/-- As many steps as there are nonterminals for the first symbol, and twice as many
for any other. -/
def stepBound (g : Grammar) (length : Nat) : Nat := g.nonterminals.length * (2 * length - 1)

theorem stepBound_mono (g : Grammar) {length length' : Nat} (h : length ≤ length') :
    g.stepBound length ≤ g.stepBound length' := by
  refine Nat.mul_le_mul_left g.nonterminals.length ?_
  omega

/-- **A derivation on its way is short.** As long as there is a nonterminal left, it
has not made all the steps that the length of the form allows for. -/
theorem Derives.length_lt {before after : Form} {nonterminal : Nat} {steps : List Step}
    (hproper : g.Proper) (hg : g.Loaded) (hne : g.nonterminals ≠ []) (hw : before.IsWord)
    (h : g.Derives [g.startSymbol] steps (before ++ .nonterminal nonterminal :: after)) :
    steps.length < g.stepBound (before ++ .nonterminal nonterminal :: after).length := by
  have hpos : 0 < g.nonterminals.length := List.length_pos_iff.mpr hne
  have hprogress := h.progress_le hproper hg
  have hweight := weight_lt_of_nonterminal before after nonterminal
  unfold progress at hprogress
  rw [descended_cut after nonterminal hw] at hprogress
  have hstart : g.nonterminals.length * weight [g.startSymbol] = g.nonterminals.length := by
    rw [startSymbol, weight_nonterminal, Nat.mul_one]
  have hscaled := Nat.mul_le_mul_left g.nonterminals.length (Nat.le_sub_one_of_lt hweight)
  unfold stepBound
  omega

end AmbiguitySearch.Grammar
