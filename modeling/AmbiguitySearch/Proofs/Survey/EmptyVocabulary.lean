import AmbiguitySearch.Proofs.Grammar.Declared
import AmbiguitySearch.Proofs.Grammar.Vanishing
import AmbiguitySearch.Proofs.Survey.Truth

/-!
# Grammars that derive no word

A survey searches no word of a grammar that has neither a terminal nor an empty body. The
test looks at the tables alone, and it is right: in such a grammar every body holds a
nonterminal, so a form that holds one never gets rid of its last (`Wordless.barren`). It
makes no difference what the form starts from, or which of its nonterminals are replaced.

In any other grammar there is a first word, the empty one, and the survey tests it. It is
the only one if the alphabet is empty, because the enumeration then ends after it.

> `emptyVocabulary_justified`: the survey makes no test exactly where no form with a
> nonterminal derives a word by that count, and else begins with the empty word.
-/

namespace AmbiguitySearch

namespace Grammar

variable {g : Grammar}

/-- No form that holds a nonterminal derives a word, by any rules in any order. -/
def Barren (g : Grammar) : Prop :=
  ∀ (form word : Form) (id : Nat), .nonterminal id ∈ form → word.IsWord →
    ¬ Relation.ReflTransGen g.Rewrites form word

/-- With neither a terminal nor an empty body, every body holds a nonterminal. -/
theorem Wordless.exists_nonterminal_mem (h : g.Wordless) (hg : g.Loaded) {nonterminal : Nat}
    {body : Form} (hb : body ∈ g.bodies nonterminal) : ∃ id, .nonterminal id ∈ body := by
  obtain ⟨hterminals, hbodies⟩ := h
  have hdeclared := hg.declares_of_mem_bodies hb
  match body with
  | [] =>
    obtain ⟨bodies, hrules, hmem⟩ := exists_rules_of_mem_bodies hb
    exact absurd hmem (hbodies bodies (List.mem_of_getElem? hrules))
  | .nonterminal id :: rest => exact ⟨id, List.mem_cons_self ..⟩
  | .terminal id :: rest =>
    have hlt : id < g.terminals.length := hdeclared _ (List.mem_cons_self ..)
    rw [hterminals] at hlt
    exact absurd hlt (Nat.not_lt_zero id)

/-- A step leaves a nonterminal in the form, if only that of the body put in. -/
theorem Wordless.exists_nonterminal_of_rewrites (h : g.Wordless) (hg : g.Loaded)
    {form form' : Form} (hstep : g.Rewrites form form') : ∃ id, .nonterminal id ∈ form' := by
  obtain @⟨before, after, body, nonterminal, hb⟩ := hstep
  obtain ⟨id, hid⟩ := h.exists_nonterminal_mem hg hb
  exact ⟨id, List.mem_append_right before (List.mem_append_left after hid)⟩

/-- Nor does a derivation get rid of all nonterminals. -/
theorem Wordless.exists_nonterminal_of_reflTransGen (h : g.Wordless) (hg : g.Loaded)
    {form form' : Form} (hform : ∃ id, .nonterminal id ∈ form)
    (hder : Relation.ReflTransGen g.Rewrites form form') : ∃ id, .nonterminal id ∈ form' := by
  induction hder with
  | refl => exact hform
  | tail _ hstep _ => exact h.exists_nonterminal_of_rewrites hg hstep

/-- **Without terminals and empty bodies nothing is derived.** -/
theorem Wordless.barren (h : g.Wordless) (hg : g.Loaded) : g.Barren := by
  intro form word id hid hword hder
  obtain ⟨left, hleft⟩ := h.exists_nonterminal_of_reflTransGen hg ⟨id, hid⟩ hder
  have hterminal := hword _ hleft
  cases hterminal

end Grammar

namespace Survey

variable {σ : Type} {survey : Survey σ}

/-- Every observer is shown these tests, in order, and is told the verdict after them. -/
def Shows (survey : Survey σ) (source : σ) (tests : List (Form × Outcome))
    (verdict : Verdict) : Prop :=
  ∀ {β ε : Type} (observe : β → Form → Outcome → Except ε β) (seen : β),
    survey.observed observe source seen = relay observe seen (tests, verdict)

theorem shows_of_made {source : σ} {tests : List (Form × Outcome)} {verdict : Verdict}
    (h : survey.made source = (tests, verdict)) : survey.Shows source tests verdict := by
  intro β ε observe seen
  rw [observed_eq, h]

/-- The first word is the empty one, and the others are those to come after it. -/
theorem exists_words_eq (survey : Survey σ) : ∃ later, survey.words = [] :: later ∧
    (survey.grammar.alphabet = [] → later = []) := by
  have hnext : (Vocabulary.ofGrammar survey.grammar).next? =
      some ([], ⟨survey.grammar.alphabet, some []⟩) := rfl
  have hfits : ([] : Form).length ≤ survey.maxLength := Nat.zero_le survey.maxLength
  have hwords := Vocabulary.upTo_of_some survey.maxLength hnext
  rw [if_pos hfits] at hwords
  refine ⟨_, hwords, ?_⟩
  intro hnone
  -- the enumeration of no letters is known as a whole
  have hall : survey.words = [[]] := by
    rw [words, Vocabulary.ofGrammar, hnone, Vocabulary.upTo_ofAlphabet_nil]
  exact (List.cons.inj (hwords.symm.trans hall)).2

/-- A pass over words that begin with this one tests it, with what its search comes to. -/
theorem exists_pass_cons (survey : Survey σ) (word : Form) (later : List Form) (source : σ)
    (tested : Nat) : ∃ tests verdict, survey.pass (word :: later) source tested =
      ((word, ((survey.search word).run source).1) :: tests, verdict) ∧
        (later = [] → tests = []) := by
  rcases hrun : (survey.search word).run source with ⟨outcome, rest⟩
  cases hruling : ruling? word outcome with
  | some verdict => exact ⟨[], verdict, pass_settled tested hrun hruling, fun _ => rfl⟩
  | none =>
    refine ⟨_, _, pass_onward tested hrun hruling, ?_⟩
    intro hnone
    rw [hnone]
    rfl

/-- **The short cut is justified.** If the grammar has neither a terminal nor an
empty body, no form with a nonterminal derives a word, and the survey says so without a
test, whatever it was to test. Else it tests the empty word first and never says so, and
if there are no letters it tests no other word. -/
theorem emptyVocabulary_justified (survey : Survey σ) (hg : survey.grammar.Loaded) (source : σ) :
    (survey.grammar.vocabularyEmpty = true →
      survey.grammar.Barren ∧ survey.Shows source [] .emptyVocabulary) ∧
    (survey.grammar.vocabularyEmpty = false → ∃ tests verdict,
      survey.Shows source (([], ((survey.search []).run source).1) :: tests) verdict ∧
        verdict ≠ .emptyVocabulary ∧ (survey.grammar.alphabet = [] → tests = [])) := by
  constructor
  · intro hempty
    refine ⟨((Grammar.vocabularyEmpty_iff _).mp hempty).barren hg, shows_of_made ?_⟩
    rw [made, if_pos hempty]
  · intro hwords
    obtain ⟨later, hlater, hnone⟩ := survey.exists_words_eq
    obtain ⟨tests, verdict, hpass, hshort⟩ := survey.exists_pass_cons [] later source 0
    have hmade : survey.made source =
        (([], ((survey.search []).run source).1) :: tests, verdict) := by
      rw [made, if_neg (Bool.eq_false_iff.mp hwords), hlater, hpass]
    refine ⟨tests, verdict, shows_of_made hmade, ?_, fun h => hshort (hnone h)⟩
    intro hverdict
    have hclaimed := (survey.verdict_holds hg source).2.mp (by rw [verdict_eq, hmade, hverdict])
    rw [← Grammar.vocabularyEmpty_iff, hwords] at hclaimed
    exact Bool.false_ne_true hclaimed

/-- The grammar `S -> S A`, `A -> A | S`, without terminals. -/
def endless : Grammar :=
  .ofDefinitions [⟨"S", [["S", "A"]]⟩, ⟨"A", [["A"], ["S"]]⟩]

/-- The grammar `S -> S S | epsilon`, whose only word is the empty one. -/
def emptyPairs : Grammar :=
  .ofDefinitions [⟨"S", [["S", "S"], ["epsilon"]]⟩]

/-- From `A` of the endless grammar no word comes, and up to words of seven letters the
only one to be tested for the pairs is the empty one. -/
theorem emptyVocabulary_justified_endless :
    (¬ Relation.ReflTransGen endless.Rewrites [.nonterminal 1] [] ∧
      Shows ⟨endless, .asListed, 5, 7⟩ () [] .emptyVocabulary) ∧
      ∃ outcome verdict, verdict ≠ .emptyVocabulary ∧
        Shows ⟨emptyPairs, .asListed, 5, 7⟩ () [([], outcome)] verdict := by
  obtain ⟨hbarren, hshows⟩ :=
    (emptyVocabulary_justified ⟨endless, .asListed, 5, 7⟩ (.ofDefinitions _) ()).1 rfl
  obtain ⟨tests, verdict, hshows', hverdict, halone⟩ :=
    (emptyVocabulary_justified ⟨emptyPairs, .asListed, 5, 7⟩ (.ofDefinitions _) ()).2 rfl
  rw [halone rfl] at hshows'
  exact ⟨⟨hbarren _ _ 1 (List.mem_singleton_self _) Form.isWord_nil, hshows⟩, _, verdict,
    hverdict, hshows'⟩

end Survey

end AmbiguitySearch
