import AmbiguitySearch.Proofs.Grammar.Named
import AmbiguitySearch.Proofs.Survey.Truth

/-!
# Verdicts on grammars as they are written

A survey goes through words of numbers and reaches a verdict on them. Where the grammar
denotes one that is written down, the words are the strings of terminals, in an order that
follows the text (`Denotes.exists_word`, `Denotes.unambiguousBefore`), and so the verdict is
one on these strings:

> `reached_made`: each of the four verdicts, with what it means for the strings.
-/

namespace AmbiguitySearch

namespace Grammar.Denotes

variable {g : Grammar} {n : NamedGrammar}

/-! ## Words and their spellings -/

/-- A string of terminals with its names numbered. -/
def numbered (n : NamedGrammar) (names : List String) : Form :=
  names.map fun name => .terminal (n.terminals.idxOf name)

theorem spelledBy_numbered (h : g.Denotes n) {names : List String} (hnames : n.Spells names) :
    g.SpelledBy (numbered n names) names := by
  refine List.forall₂_map_left_iff.mpr (List.forall₂_same.mpr fun name hmem => ?_)
  show g.terminals[n.terminals.idxOf name]? = some name
  rw [h.terminals]
  exact List.getElem?_idxOf (hnames name hmem)

theorem spells_numbered (h : g.Denotes n) {names : List String} (hnames : n.Spells names) :
    g.Spells (numbered n names) := by
  intro symbol hmem
  obtain ⟨name, hname, rfl⟩ := List.mem_map.mp hmem
  have hlt := List.idxOf_lt_length_of_mem (hnames name hname)
  have hlength : n.terminals.length = g.terminals.length := by rw [h.terminals]
  exact List.mem_map.mpr ⟨_, List.mem_range.mpr (Nat.lt_of_lt_of_eq hlt hlength), rfl⟩

/-- Every string of terminals spells a word. -/
theorem exists_word (h : g.Denotes n) {names : List String} (hnames : n.Spells names) :
    ∃ word, g.SpelledBy word names ∧ g.Spells word :=
  ⟨_, h.spelledBy_numbered hnames, h.spells_numbered hnames⟩

/-- Every word is spelled by a string of terminals. -/
theorem exists_names (h : g.Denotes n) : ∀ {word : Form}, g.Spells word →
    ∃ names, g.SpelledBy word names ∧ n.Spells names
  | [], _ => ⟨[], .nil, nofun⟩
  | symbol :: word, hword => by
    obtain ⟨hsymbol, hrest⟩ := List.forall_mem_cons.mp hword
    obtain ⟨id, hid, rfl⟩ := List.mem_map.mp hsymbol
    have hlt : id < g.terminals.length := List.mem_range.mp hid
    obtain ⟨names, hspelled, hnames⟩ := h.exists_names hrest
    have hname : g.terminals[id] ∈ n.terminals := by
      rw [← h.terminals]
      exact List.getElem_mem hlt
    exact ⟨g.terminals[id] :: names, .cons (List.getElem?_eq_getElem hlt) hspelled,
      List.forall_mem_cons.mpr ⟨hname, hnames⟩⟩

/-- What comes before a word comes before its spelling. -/
theorem unambiguousBefore (h : g.Denotes n) {word : Form} {names : List String}
    (hspelled : g.SpelledBy word names) (hnames : n.Spells names)
    (hbefore : g.UnambiguousBefore word) : n.UnambiguousBefore names := by
  intro earlier hearlier hlt
  have hprecedes : ∀ name name', n.Precedes name name' →
      Symbol.Precedes (.terminal (n.terminals.idxOf name)) (.terminal (n.terminals.idxOf name')) :=
    fun _ _ hname => hname
  have hword : word = numbered n names :=
    Spelled.form_eq h.tables hspelled (h.spelledBy_numbered hnames)
  refine h.subsingleton (h.spelledBy_numbered hearlier)
    (hbefore _ (h.spells_numbered hearlier) ?_)
  rw [List.shortlex_def] at hlt
  rw [hword, List.shortlex_def, numbered, numbered, List.length_map, List.length_map]
  exact hlt.imp_right (And.imp_right (Vocabulary.lex_map hprecedes))

theorem wordless (h : g.Denotes n) (hg : g.Wordless) : n.Wordless := by
  obtain ⟨hterminals, hbodies⟩ := hg
  refine ⟨h.terminals ▸ hterminals, ?_⟩
  rintro ⟨name, body⟩ hrule rfl
  have hdefined := (h.leftSides name).mpr (List.mem_map_of_mem hrule)
  obtain ⟨id, hlt, hname⟩ := List.mem_iff_getElem.mp hdefined
  obtain ⟨form, hmem, hform⟩ :=
    h.exists_rule (List.getElem?_eq_some_iff.mpr ⟨hlt, hname⟩) hrule
  cases hform
  obtain ⟨bodies, hget, hin⟩ := exists_rules_of_mem_bodies hmem
  exact hbodies bodies (List.mem_of_getElem? hget) hin

end Grammar.Denotes

namespace Survey

variable {σ : Type} {survey : Survey σ}

/-! ## The verdicts -/

/-- How a survey can end, and what that says of the grammar as it is written. -/
inductive Reached (survey : Survey σ) (n : NamedGrammar) : Verdict → Prop where
  | emptyVocabulary (wordless : n.Wordless) : Reached survey n .emptyVocabulary
  | notAmbiguous (tested : Nat) (unambiguous : ∀ names, n.Spells names →
      names.length ≤ survey.maxLength → (n.derivationsOf names).Subsingleton) :
    Reached survey n (.notAmbiguous survey.maxLength tested)
  | ambiguous {names : List String} (word : Form) (first second : Trace)
      (spells : n.Spells names) (fits : names.length ≤ survey.maxLength)
      (ambiguous : (n.derivationsOf names).Nontrivial) :
    Reached survey n (.ambiguous word first second)
  | inconclusive {word : Form} {names : List String}
      (spelled : survey.grammar.SpelledBy word names) (spells : n.Spells names)
      (fits : names.length ≤ survey.maxLength) (before : n.UnambiguousBefore names) :
    Reached survey n (.inconclusive word survey.depthLimit)

theorem reached_of_settled {n : NamedGrammar} (h : survey.grammar.Denotes n) {word : Form}
    {outcome : Outcome} {verdict : Verdict} (hruling : ruling? word outcome = some verdict)
    (hholds : survey.Holds verdict) : survey.Reached n verdict := by
  rcases outcome_of_ruling?_eq_some hruling with ⟨limit, -, rfl⟩ |
    ⟨count, first, second, explored, -, rfl⟩
  · obtain ⟨⟨hspells, hlength⟩, rfl, hbefore⟩ := hholds
    obtain ⟨names, hspelled, hnames⟩ := h.exists_names hspells
    exact .inconclusive hspelled hnames (hspelled.length_eq ▸ hlength)
      (h.unambiguousBefore hspelled hnames hbefore)
  · obtain ⟨⟨hspells, hlength⟩, ⟨hfirst, hsecond, hne⟩, -⟩ := hholds
    obtain ⟨names, hspelled, hnames⟩ := h.exists_names hspells
    have hmany : (survey.grammar.derivationsOf word).Nontrivial :=
      ⟨_, ⟨first.steps, hfirst.2, rfl⟩, _, ⟨second.steps, hsecond.2, rfl⟩, hne⟩
    exact .ambiguous word first second hnames (hspelled.length_eq ▸ hlength)
      (h.nontrivial hspelled hmany)

/-- **What a survey says of the grammar as it is written.** -/
theorem reached_made {n : NamedGrammar} (h : survey.grammar.Denotes n)
    (hg : survey.grammar.Loaded) (source : σ) : survey.Reached n (survey.made source).2 := by
  unfold made
  split
  next hempty => exact .emptyVocabulary (h.wordless ((Grammar.vocabularyEmpty_iff _).mp hempty))
  next =>
    rcases pass_cases survey.words source 0 with ⟨hall, hverdict⟩ |
      ⟨passed, word, left, start, rest, outcome, hsplit, hpassed, hrun, hruling⟩
    · rw [hverdict]
      refine .notAmbiguous _ fun names hnames hlength => ?_
      obtain ⟨word, hspelled, hspells⟩ := h.exists_word hnames
      have hmem : word ∈ survey.words := mem_words.mpr ⟨hspells, hspelled.length_eq ▸ hlength⟩
      exact h.subsingleton hspelled ((hall word hmem).subsingleton hg hspells.isWord)
    · exact reached_of_settled h hruling (holds_of_settled hg hsplit hpassed hrun hruling)

end Survey

end AmbiguitySearch
