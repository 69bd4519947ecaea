import AmbiguitySearch.Proofs.Survey.Pass

/-!
# The verdict is true

A verdict says something about all words up to a length and all their
derivations, of whatever length (`Holds`). The survey has seen less than that:
a search prunes, stops at two derivations and has a depth limit. Yet what it
says is so.

> `verdict_holds`: every verdict holds, and the grammar is said to derive no word
> exactly if it has neither a terminal nor an empty body.

A word got over has at most one derivation, because the count is exact
(`Passed.subsingleton`). The words tested are all words there are up to the
length, in shortlex order, so that the word a survey stops at is the least that
is not got over (`unambiguousBefore`).
-/

namespace AmbiguitySearch

namespace Grammar

/-- A word over the terminals of the grammar. -/
def Spells (g : Grammar) (word : Form) : Prop :=
  ∀ symbol ∈ word, symbol ∈ g.alphabet

/-- No word over the terminals that comes before this one has two derivations. -/
def UnambiguousBefore (g : Grammar) (word : Form) : Prop :=
  ∀ earlier, g.Spells earlier → List.Shortlex Symbol.Precedes earlier word →
    (g.derivationsOf earlier).Subsingleton

/-- With neither a terminal nor an empty body there is nothing to derive. -/
def Wordless (g : Grammar) : Prop :=
  g.terminals = [] ∧ ∀ bodies ∈ g.rules, [] ∉ bodies

theorem Spells.isWord {g : Grammar} {word : Form} (h : g.Spells word) : word.IsWord := by
  intro symbol hmem
  obtain ⟨id, -, rfl⟩ := List.mem_map.mp (h symbol hmem)
  rfl

theorem vocabularyEmpty_iff (g : Grammar) : g.vocabularyEmpty = true ↔ g.Wordless := by
  simp [vocabularyEmpty, Wordless]

end Grammar

namespace Survey

variable {σ : Type} {survey : Survey σ}

/-- What a verdict claims of the grammar and of the survey made. -/
def Holds (survey : Survey σ) : Verdict → Prop
  | .emptyVocabulary => survey.grammar.Wordless
  | .ambiguous word first second =>
    (survey.grammar.Spells word ∧ word.length ≤ survey.maxLength) ∧
      (survey.grammar.Admits first word ∧ survey.grammar.Admits second word ∧
        first.rules ≠ second.rules) ∧ survey.grammar.UnambiguousBefore word
  | .notAmbiguous maxLength wordsTested =>
    maxLength = survey.maxLength ∧
      (∀ word, survey.grammar.Spells word → word.length ≤ maxLength →
        (survey.grammar.derivationsOf word).Subsingleton) ∧
      wordsTested = ∑ i ∈ Finset.range (maxLength + 1), survey.grammar.terminals.length ^ i
  | .inconclusive word depthLimit =>
    (survey.grammar.Spells word ∧ word.length ≤ survey.maxLength) ∧
      depthLimit = survey.depthLimit ∧ survey.grammar.UnambiguousBefore word

/-! ## The words tested -/

theorem mem_words {word : Form} :
    word ∈ survey.words ↔ survey.grammar.Spells word ∧ word.length ≤ survey.maxLength :=
  Vocabulary.mem_upTo

theorem length_words (survey : Survey σ) : survey.words.length =
    ∑ i ∈ Finset.range (survey.maxLength + 1), survey.grammar.terminals.length ^ i := by
  have halphabet : survey.grammar.alphabet.length = survey.grammar.terminals.length := by
    simp [Grammar.alphabet]
  rw [← halphabet]
  exact Vocabulary.length_upTo _ _

/-- Words tested before a word are those that come before it. -/
theorem mem_of_shortlex {passed left : List Form} {word earlier : Form}
    (hsplit : survey.words = passed ++ word :: left) (hspells : survey.grammar.Spells earlier)
    (hbefore : List.Shortlex Symbol.Precedes earlier word) : earlier ∈ passed := by
  have hword : word ∈ survey.words := by
    rw [hsplit]
    exact List.mem_append_right _ (List.mem_cons_self ..)
  have hlen : earlier.length ≤ word.length := by
    rcases List.shortlex_def.mp hbefore with hlt | ⟨heq, -⟩
    · exact Nat.le_of_lt hlt
    · exact Nat.le_of_eq heq
  have hmem : earlier ∈ survey.words :=
    mem_words.mpr ⟨hspells, Nat.le_trans hlen (mem_words.mp hword).2⟩
  have hsorted := Vocabulary.pairwise_upTo_ofGrammar survey.grammar survey.maxLength
  rw [← words, hsplit, List.pairwise_append, List.pairwise_cons] at hsorted
  obtain ⟨-, ⟨hleft, -⟩, -⟩ := hsorted
  rw [hsplit, List.mem_append, List.mem_cons] at hmem
  rcases hmem with hpassed | rfl | hafter
  · exact hpassed
  · exact absurd hbefore (irrefl earlier)
  · exact absurd hbefore (asymm (hleft earlier hafter))

/-! ## What the searches say -/

/-- A word got over has at most one derivation. -/
theorem Passed.subsingleton {word : Form} (h : survey.Passed word)
    (hg : survey.grammar.Loaded) (hw : word.IsWord) :
    (survey.grammar.derivationsOf word).Subsingleton := by
  obtain ⟨source, rest, outcome, hrun, hruling⟩ := h
  obtain ⟨found, rfl, hfew⟩ := few_of_ruling?_eq_none hrun hruling
  have hcard := (Search.run_found hrun).encard_eq_count hg hw hfew
  rw [← Set.encard_le_one_iff_subsingleton]
  refine le_of_eq_of_le hcard ?_
  exact_mod_cast Nat.le_of_lt_succ hfew

theorem unambiguousBefore {passed left : List Form} {word : Form}
    (hg : survey.grammar.Loaded) (hsplit : survey.words = passed ++ word :: left)
    (hpassed : ∀ earlier ∈ passed, survey.Passed earlier) :
    survey.grammar.UnambiguousBefore word := by
  intro earlier hspells hbefore
  have hmem : earlier ∈ passed := mem_of_shortlex hsplit hspells hbefore
  exact (hpassed earlier hmem).subsingleton hg hspells.isWord

theorem holds_of_settled {passed left : List Form} {word : Form} {source rest : σ}
    {outcome : Outcome} {verdict : Verdict} (hg : survey.grammar.Loaded)
    (hsplit : survey.words = passed ++ word :: left)
    (hpassed : ∀ earlier ∈ passed, survey.Passed earlier)
    (hrun : (survey.search word).run source = (outcome, rest))
    (hruling : ruling? word outcome = some verdict) : survey.Holds verdict := by
  have hword : survey.grammar.Spells word ∧ word.length ≤ survey.maxLength := by
    refine mem_words.mp ?_
    rw [hsplit]
    exact List.mem_append_right _ (List.mem_cons_self ..)
  have hbefore := unambiguousBefore hg hsplit hpassed
  rcases outcome_of_ruling?_eq_some hruling with ⟨limit, rfl, rfl⟩ |
    ⟨count, first, second, explored, rfl, rfl⟩
  · exact ⟨hword, (Search.run_aborted hrun).1, hbefore⟩
  · have haccounts := Search.run_found hrun
    have hfirst := (haccounts.witness_sound (List.mem_cons_self ..)).1
    have hsecond := (haccounts.witness_sound
      (List.mem_cons_of_mem first (List.mem_singleton_self second))).1
    have hdiff := haccounts.nodup_rules hg
    rw [List.map_cons, List.nodup_cons, List.map_singleton, List.mem_singleton] at hdiff
    exact ⟨hword, ⟨hfirst, hsecond, hdiff.1⟩, hbefore⟩

/-- **The verdict is true.** -/
theorem verdict_holds (survey : Survey σ) (hg : survey.grammar.Loaded) (source : σ) :
    survey.Holds (survey.verdict source) ∧
      (survey.verdict source = .emptyVocabulary ↔ survey.grammar.Wordless) := by
  rw [verdict_eq, made, ← Grammar.vocabularyEmpty_iff]
  split
  next hempty => exact ⟨(Grammar.vocabularyEmpty_iff _).mp hempty, fun _ => hempty, fun _ => rfl⟩
  next hempty =>
    rcases pass_cases survey.words source 0 with ⟨hall, hverdict⟩ |
      ⟨passed, word, left, start, rest, outcome, hsplit, hpassed, hrun, hruling⟩
    · rw [hverdict, Nat.zero_add, length_words]
      refine ⟨⟨rfl, ?_, rfl⟩, nofun, fun h => absurd h hempty⟩
      intro word hspells hlen
      exact (hall word (mem_words.mpr ⟨hspells, hlen⟩)).subsingleton hg hspells.isWord
    · refine ⟨holds_of_settled hg hsplit hpassed hrun hruling, ?_, fun h => absurd h hempty⟩
      -- no outcome settles that there is no word
      intro hverdict
      rw [hverdict] at hruling
      rcases outcome_of_ruling?_eq_some hruling with ⟨_, -, h⟩ | ⟨_, _, _, _, -, h⟩ <;> cases h

/-- The survey gets over the empty word and stops at `a`, with the derivations
that turn in the loop not at all and once. -/
theorem verdict_holds_unitLoop :
    (verdict ⟨unitLoop, .asListed, 2, 1⟩ () = .ambiguous [.terminal 0]
      ⟨[.nonterminal 0], [⟨0, [.terminal 0], [.terminal 0]⟩]⟩
      ⟨[.nonterminal 0], [⟨0, [.nonterminal 0], [.nonterminal 0]⟩,
        ⟨0, [.terminal 0], [.terminal 0]⟩]⟩) ∧
      unitLoop.UnambiguousBefore [.terminal 0] := by
  obtain ⟨survey, hsurvey⟩ : ∃ survey : Survey Unit, survey = ⟨unitLoop, .asListed, 2, 1⟩ :=
    ⟨_, rfl⟩
  have hwords : survey.words = [[], [.terminal 0]] := by
    rw [hsurvey, words, Vocabulary.ofGrammar, Vocabulary.upTo_ofAlphabet (by decide)]
    rfl
  have hnil : (survey.search []).run () = (.found ⟨0, [], 1⟩, ()) := by
    rw [hsurvey, Search.run_eq_descent]
    rfl
  have hletter : (survey.search [.terminal 0]).run () = (.found ⟨2,
      [⟨[.nonterminal 0], [⟨0, [.terminal 0], [.terminal 0]⟩]⟩,
        ⟨[.nonterminal 0], [⟨0, [.nonterminal 0], [.nonterminal 0]⟩,
          ⟨0, [.terminal 0], [.terminal 0]⟩]⟩], 4⟩, ()) := by
    rw [hsurvey, Search.run_eq_descent]
    rfl
  have hverdict := survey.verdict_eq ()
  rw [made, if_neg (by rw [hsurvey]; decide), hwords, pass_onward 0 hnil rfl,
    pass_settled 1 hletter rfl] at hverdict
  have hholds := (survey.verdict_holds (hsurvey ▸ .ofDefinitions _) ()).1
  rw [hverdict, hsurvey] at hholds
  exact ⟨hsurvey ▸ hverdict, hholds.2.2⟩

end Survey

end AmbiguitySearch
