import AmbiguitySearch.Proofs.Grammar.Proper
import AmbiguitySearch.Proofs.Search.Abort
import AmbiguitySearch.Proofs.Survey.Truth

/-!
# Surveys that come to a decision

A survey is inconclusive only if it gets to a word whose search aborts. If no word
overruns the depth limit there is no such word, and of the verdicts that remain one
says that a word is ambiguous and one that none is (`decided_of_not_overruns`).

For a proper grammar it can be told how large a depth limit has to be for that. A
form that may still lead to a word is no longer than the word, as nothing vanishes,
and after the `stepBound` for that length a derivation has got past such forms.

> `Proper.not_overruns`: no word overruns the bound for its length.

> `decides_of_proper`: with that limit searches count and surveys decide, left
> recursion or not.
-/

namespace AmbiguitySearch

/-- The grammar `S -> S S | T`, `T -> a`. -/
def juxtaposition : Grammar :=
  .ofDefinitions [⟨"S", [["S", "S"], ["T"]]⟩, ⟨"T", [["a"]]⟩]

namespace Grammar

variable {g : Grammar} {word : Form}

/-- A word that has a derivation is over the terminals of the grammar. -/
theorem Loaded.spells_of_nonempty (hg : g.Loaded) (hne : g.nonterminals ≠ [])
    (hw : word.IsWord) (h : (g.derivationsOf word).Nonempty) : g.Spells word := by
  obtain ⟨_, steps, hder, -⟩ := h
  have hstart : ∀ symbol ∈ [g.startSymbol], g.Declares symbol := by
    intro symbol hmem
    rw [List.mem_singleton.mp hmem]
    exact hg.declares_startSymbol hne
  intro symbol hmem
  have hdeclared := hg.declares_of_derives hder hstart symbol hmem
  cases symbol with
  | terminal id => exact List.mem_map.mpr ⟨id, List.mem_range.mpr hdeclared, rfl⟩
  | nonterminal id => cases hw _ hmem

/-- **No word overruns the bound for its length.** -/
theorem Proper.not_overruns (hproper : g.Proper) (hg : g.Loaded) (hne : g.nonterminals ≠ [])
    {depth : Nat} (hdepth : word = [] ∨ g.stepBound word.length ≤ depth) :
    ¬ g.Overruns word depth := by
  rintro ⟨steps, before, after, nonterminal, hder, rfl, ⟨hbefore, -⟩, hletters⟩
  rw [hproper.letters_eq_length] at hletters
  have hshort := hder.length_lt hproper hg hne hbefore
  rcases hdepth with rfl | hdepth
  · -- a form with a nonterminal in it has a letter too many
    rw [List.length_append, List.length_cons, List.length_nil] at hletters
    omega
  · have hbound := g.stepBound_mono hletters
    omega

end Grammar

/-- A count that is exact up to two comes to two if and only if there are two. -/
theorem Search.count_eq_two_iff {derivations : Set (List (Nat × Form))} {count : Nat}
    (h : (count : ℕ∞) = min 2 derivations.encard) : count = 2 ↔ derivations.Nontrivial := by
  rw [← Set.one_lt_encard_iff_nontrivial]
  constructor
  · rintro rfl
    have hone : (1 : ℕ∞) < 2 := by exact_mod_cast Nat.one_lt_two
    exact lt_of_lt_of_le hone (min_eq_left_iff.mp h.symm)
  · intro hmany
    have htwo : (2 : ℕ∞) ≤ derivations.encard := by
      rw [← one_add_one_eq_two]
      exact Order.add_one_le_of_lt hmany
    rw [min_eq_left htwo] at h
    exact_mod_cast h

namespace Survey

variable {σ : Type} {survey : Survey σ}

theorem verdict_eq_pass (h : survey.grammar.terminals ≠ []) (source : σ) :
    survey.verdict source = (survey.pass survey.words source 0).2 := by
  have hempty : ¬ survey.grammar.vocabularyEmpty = true := by
    rw [Grammar.vocabularyEmpty_iff]
    intro hwordless
    exact h hwordless.1
  rw [verdict_eq, made, if_neg hempty]

/-- **A survey without overruns decides.** Either no word has two derivations, and
the verdict says so, or it names a word that has. -/
theorem decided_of_not_overruns (survey : Survey σ) (hg : survey.grammar.Loaded)
    (hterminals : survey.grammar.terminals ≠ [])
    (hwithin : ∀ word ∈ survey.words, ¬ survey.grammar.Overruns word survey.depthLimit)
    (source : σ) :
    ((∀ word ∈ survey.words, (survey.grammar.derivationsOf word).Subsingleton) ∧
      ∃ tested, survey.verdict source = .notAmbiguous survey.maxLength tested) ∨
    ∃ word ∈ survey.words, (survey.grammar.derivationsOf word).Nontrivial ∧
      ∃ first second, survey.verdict source = .ambiguous word first second := by
  rw [verdict_eq_pass hterminals]
  rcases pass_cases survey.words source 0 with ⟨hall, hverdict⟩ |
    ⟨passed, word, left, start, rest, outcome, hsplit, -, hrun, hruling⟩
  · refine .inl ⟨?_, _, hverdict⟩
    intro word hmem
    exact (hall word hmem).subsingleton hg (mem_words.mp hmem).1.isWord
  · have hmem : word ∈ survey.words := by
      rw [hsplit]
      exact List.mem_append_cons_self
    obtain ⟨found, rfl, hcount⟩ := Search.run_of_not_overruns hg
      (mem_words.mp hmem).1.isWord (hwithin word hmem) hrun
    rcases outcome_of_ruling?_eq_some hruling with ⟨limit, habort, -⟩ |
      ⟨count, first, second, explored, hfound, hverdict⟩
    · cases habort
    · refine .inr ⟨word, hmem, ?_, first, second, hverdict⟩
      -- two witnesses are two derivations
      have hlen := (Search.run_found hrun).count_eq
      cases hfound
      exact (Search.count_eq_two_iff hcount).mp hlen

/-- **Proper grammars are decided.** If the depth limit is no less than the bound for
the length of a word, the search for it counts its derivations. If it is no less than
the bound for the longest length, a survey finds an ambiguous word if there is any up
to that length, and is never inconclusive. -/
theorem decides_of_proper {g : Grammar} (hg : g.Loaded) (hne : g.nonterminals ≠ [])
    (hproper : g.Proper) (order : RuleOrder σ) (source : σ) :
    (∀ (word : Form) (depthLimit : Nat), word.IsWord →
      word = [] ∨ g.stepBound word.length ≤ depthLimit →
      ∃ found rest, Search.count ⟨g, order, depthLimit, word⟩ source = .ok (.found found, rest) ∧
        (found.count : ℕ∞) = min 2 (g.derivationsOf word).encard) ∧
    ∀ maxLength depthLimit : Nat, g.terminals ≠ [] → g.stepBound maxLength ≤ depthLimit →
      (∀ word limit,
        verdict ⟨g, order, depthLimit, maxLength⟩ source ≠ .inconclusive word limit) ∧
      ((∃ word first second,
          verdict ⟨g, order, depthLimit, maxLength⟩ source = .ambiguous word first second) ↔
        ∃ word : Form, word.IsWord ∧ word.length ≤ maxLength ∧
          (g.derivationsOf word).Nontrivial) := by
  refine ⟨?_, ?_⟩
  · intro word depthLimit hw hdepth
    rcases hrun : Search.run ⟨g, order, depthLimit, word⟩ source with ⟨outcome, rest⟩
    obtain ⟨found, rfl, hcount⟩ := Search.run_of_not_overruns hg hw
      (hproper.not_overruns hg hne hdepth) hrun
    exact ⟨found, rest, by rw [Search.count_eq_run hg hne, hrun], hcount⟩
  · intro maxLength depthLimit hterminals hdepth
    have hwithin : ∀ word ∈ words ⟨g, order, depthLimit, maxLength⟩,
        ¬ g.Overruns word depthLimit := by
      intro word hmem
      have hlen : word.length ≤ maxLength := (mem_words.mp hmem).2
      exact hproper.not_overruns hg hne (.inr (Nat.le_trans (g.stepBound_mono hlen) hdepth))
    rcases decided_of_not_overruns ⟨g, order, depthLimit, maxLength⟩ hg hterminals hwithin source
      with ⟨hnone, tested, hverdict⟩ | ⟨word, hmem, hmany, first, second, hverdict⟩
    · rw [hverdict]
      refine ⟨nofun, nofun, ?_⟩
      rintro ⟨word, hw, hlen, hmany⟩
      have hspells := hg.spells_of_nonempty hne hw hmany.nonempty
      exact absurd hmany (Set.not_nontrivial_iff.mpr (hnone word (mem_words.mpr ⟨hspells, hlen⟩)))
    · rw [hverdict]
      obtain ⟨hspells, hlen⟩ := mem_words.mp hmem
      exact ⟨nofun, fun _ => ⟨word, hspells.isWord, hlen, hmany⟩,
        fun _ => ⟨word, first, second, rfl⟩⟩

/-- Left recursive, and with a renaming. Ten steps are enough for three letters, and
these have two derivations. -/
theorem decides_of_proper_juxtaposition :
    (∃ found rest, Search.count ⟨juxtaposition, .shuffled, 10,
        [.terminal 0, .terminal 0, .terminal 0]⟩ (Xoshiro.ofSeed 5) = .ok (.found found, rest) ∧
      found.count = 2) ∧
    ∃ word first second, verdict ⟨juxtaposition, .shuffled, 10, 3⟩ (Xoshiro.ofSeed 5) =
      .ambiguous word first second := by
  have hg : juxtaposition.Loaded := .ofDefinitions _
  have hproper : juxtaposition.Proper := hg.proper_of_rank (1 - ·) (by decide) (by decide)
  have hw : Form.IsWord [.terminal 0, .terminal 0, .terminal 0] := by decide
  have hmany : (juxtaposition.derivationsOf [.terminal 0, .terminal 0, .terminal 0]).Nontrivial := by
    have hwithin : (juxtaposition.derivationsWithin
        [.terminal 0, .terminal 0, .terminal 0] 8).Nontrivial := by
      rw [← Set.one_lt_encard_iff_nontrivial, ← Search.length_routes
        ⟨juxtaposition, .asListed, 8, [.terminal 0, .terminal 0, .terminal 0]⟩ hg hw]
      decide
    exact hwithin.mono fun _ hrules => hrules.1
  obtain ⟨hcounts, hdecides⟩ :=
    decides_of_proper hg (by decide) hproper .shuffled (Xoshiro.ofSeed 5)
  refine ⟨?_, (hdecides 3 10 (by decide) (by decide)).2.mpr ⟨_, hw, Nat.le_refl 3, hmany⟩⟩
  obtain ⟨found, rest, hcount, hexact⟩ := hcounts _ 10 hw (.inr (by decide))
  exact ⟨found, rest, hcount, (Search.count_eq_two_iff hexact).mpr hmany⟩

end Survey

end AmbiguitySearch
