import AmbiguitySearch.Proofs.Grammar.Extension
import AmbiguitySearch.Proofs.Search.Exactness

/-!
# A search keeps to the names it comes from

A search starts from one declared symbol, and every body that it puts in brings in
symbols declared by the same definitions. Of such forms it asks for flags, for letters
and for bodies, and a grammar that extends another answers all of that alike. So a search
does not notice what else is in the file: it makes the same draws, visits the same forms
and finds the same derivations.

> `descend_of_extends`: the recursion does not notice that the grammar is a larger one.

> `count_extended`: definitions of other names disturb nothing.
-/

namespace AmbiguitySearch

namespace Grammar.Extends

variable {g g' : Grammar} {form : Form}

theorem letters_eq (h : g'.Extends g) (hg : g.Loaded)
    (hform : ∀ symbol ∈ form, g.Declares symbol) : g'.letters form = g.letters form := by
  refine List.countP_congr fun symbol hmem => ?_
  rw [h.isNullable_eq hg (hform symbol hmem)]

theorem all_isNullable_eq (h : g'.Extends g) (hg : g.Loaded)
    (hform : ∀ symbol ∈ form, g.Declares symbol) :
    form.all g'.isNullable = form.all g.isNullable := by
  rw [Bool.eq_iff_iff, ← letters_eq_zero_iff, ← letters_eq_zero_iff, h.letters_eq hg hform]

/-- **The form is to the search what it was**, whatever word is sought. -/
theorem status_eq (h : g'.Extends g) (hg : g.Loaded)
    (hform : ∀ symbol ∈ form, g.Declares symbol) (word : Form) :
    g'.status word form = g.status word form := by
  unfold status
  rw [h.letters_eq hg hform, h.all_isNullable_eq hg hform]

end Grammar.Extends

theorem foldlM_congr {α β : Type} {m : Type → Type} [Monad m] {f f' : β → α → m β} :
    ∀ {items : List α} (start : β), (∀ item ∈ items, ∀ before, f before item = f' before item) →
      items.foldlM f start = items.foldlM f' start
  | [], _, _ => rfl
  | item :: items, start, h => by
    obtain ⟨hitem, hitems⟩ := List.forall_mem_cons.mp h
    rw [List.foldlM_cons, List.foldlM_cons, hitem]
    exact bind_congr fun before => foldlM_congr before hitems

namespace Search

variable {σ : Type} {search : Search σ} {g' : Grammar}

/-- The same search in another grammar. -/
def withGrammar (search : Search σ) (grammar : Grammar) : Search σ := { search with grammar }

theorem start_withGrammar (h : g'.Extends search.grammar) :
    (search.withGrammar g').start = search.start := by
  show [Symbol.nonterminal g'.start] = [.nonterminal search.grammar.start]
  rw [h.start_eq]

/-- **A larger grammar, the same result.** Every form on the way has symbols of the
smaller one only. -/
theorem descend_of_extends (h : g'.Extends search.grammar) (hg : search.grammar.Loaded) :
    ∀ (room : Nat) (form : Form) (taken : List Step) (tally : Tally σ),
      (∀ symbol ∈ form, search.grammar.Declares symbol) →
        (search.withGrammar g').descend room form taken tally =
          search.descend room form taken tally
  | room, form, taken, tally, hform => by
    have hstatus : (search.withGrammar g').grammar.status (search.withGrammar g').word form =
        search.grammar.status search.word form := h.status_eq hg hform search.word
    cases hs : search.grammar.status search.word form with
    | derived =>
      rw [descend_derived hs, descend_derived (hstatus.trans hs), start_withGrammar h]
    | deadEnd => rw [descend_deadEnd hs, descend_deadEnd (hstatus.trans hs)]
    | live position nonterminal =>
      cases room with
      | zero => rw [descend_live_zero hs, descend_live_zero (hstatus.trans hs)]
      | succ room =>
        have hfirst := (Grammar.status_eq_live_iff.mp hs).2.1
        have hdeclared : search.grammar.Declares (.nonterminal nonterminal) :=
          hform _ (List.mem_of_getElem? (Form.getElem?_of_firstNonterminal? hfirst))
        have hbodies : (search.withGrammar g').grammar.bodies nonterminal =
            search.grammar.bodies nonterminal := h.bodies_eq hg hdeclared
        rw [descend_live_succ hs, descend_live_succ (hstatus.trans hs), hbodies]
        refine foldlM_congr _ fun body hmem before => ?_
        have hb : body ∈ search.grammar.bodies nonterminal :=
          (search.order.arrange_perm _ _).mem_iff.mp hmem
        have hbelow := descend_of_extends h hg room (form.splice position 1 body)
          (taken ++ [stepAt form position nonterminal body]) before
          (hg.declares_of_expands (Grammar.expands_stepAt hs hb) hform)
        rw [attempt, attempt, hbelow]

/-- So the same comes out, with the rule order in the same state. -/
theorem run_of_extends (search : Search σ) (h : g'.Extends search.grammar)
    (hg : search.grammar.Loaded) (hne : search.grammar.nonterminals ≠ []) (source : σ) :
    (search.withGrammar g').run source = search.run source := by
  have hform : ∀ symbol ∈ search.start, search.grammar.Declares symbol := by
    intro symbol hmem
    rw [List.mem_singleton.mp hmem]
    exact hg.declares_startSymbol hne
  have hdescend := descend_of_extends h hg search.depthLimit search.start []
    ⟨[], 0, source⟩ hform
  rw [run_eq_conclude, run_eq_conclude, start_withGrammar h]
  exact congrArg search.conclude hdescend

/-- **Definitions of other names disturb nothing.** From the same start, symbols, rules and
flags stay what and where they were, and the search for any form comes to the same
outcome, with the same witnesses and as many forms looked at, and leaves the rule order in
the same state. -/
theorem count_extended {definitions more : List Definition} (hsome : definitions ≠ [])
    (hapart : ∀ definition ∈ more, definition.name ∉ Definition.written definitions)
    {starts : List String} (hstarts : ∀ name ∈ starts, name ∈ definitions.map (·.name))
    {g g' : Grammar} (hg : g = starts.foldl Grammar.moveStart (.ofDefinitions definitions))
    (hg' : g' = starts.foldl Grammar.moveStart (.ofDefinitions (definitions ++ more))) :
    (g'.Extends g ∧ g.nullable.toList <+: g'.nullable.toList ∧
      ∀ name symbol, g.symbol? name = some symbol → g'.symbol? name = some symbol) ∧
    ∀ (word : Form) (order : RuleOrder σ) (depthLimit : Nat) (source : σ),
      ∃ outcome rest, count ⟨g, order, depthLimit, word⟩ source = .ok (outcome, rest) ∧
        count ⟨g', order, depthLimit, word⟩ source = .ok (outcome, rest) := by
  have hstarts' : ∀ name ∈ starts, name ∈ (Grammar.ofDefinitions definitions).nonterminals :=
    fun name hmem => List.mem_eraseDups.mpr (hstarts name hmem)
  have hextends : g'.Extends g := by
    rw [hg, hg']
    exact (Grammar.extends_ofDefinitions hapart).foldl_moveStart hstarts'
  have hloaded : g.Loaded := hg ▸ (Grammar.Loaded.ofDefinitions definitions).foldl_moveStart starts
  have hloaded' : g'.Loaded :=
    hg' ▸ (Grammar.Loaded.ofDefinitions (definitions ++ more)).foldl_moveStart starts
  have hne : g.nonterminals ≠ [] := by
    obtain ⟨start, hmoved, -⟩ := (Grammar.ofDefinitions definitions).foldl_moveStart_eq starts
    rw [hg, hmoved]
    exact Grammar.nonterminals_ofDefinitions_ne_nil hsome
  have hne' : g'.nonterminals ≠ [] := fun hnil =>
    hne (List.prefix_nil.mp (hnil ▸ hextends.nonterminals))
  refine ⟨⟨hextends, hextends.nullable_isPrefix hloaded, fun name symbol =>
    hextends.symbol?_eq_some hloaded'⟩, fun word order depthLimit source => ?_⟩
  rcases hrun : run ⟨g, order, depthLimit, word⟩ source with ⟨outcome, rest⟩
  have hrun' : run ⟨g', order, depthLimit, word⟩ source = (outcome, rest) :=
    (run_of_extends ⟨g, order, depthLimit, word⟩ hextends hloaded hne source).trans hrun
  exact ⟨outcome, rest, by rw [count_eq_run hloaded hne, hrun],
    by rw [count_eq_run hloaded' hne', hrun']⟩

/-- Two runs of a letter, each of any length. -/
def runs : List Definition := [⟨"S", [["A", "A"]]⟩, ⟨"A", [["a", "A"], ["epsilon"]]⟩]

/-- Names apart from these that use them and vanish with them. -/
def around : List Definition := [⟨"T", [["S", "T", "b"], ["A"]]⟩, ⟨"U", [["T", "T"]]⟩]

/-- A letter is one run, found after as many forms in the larger grammar. -/
theorem count_extended_runs :
    (∀ definition ∈ around, definition.name ∉ Definition.written runs) ∧
      (Grammar.ofDefinitions (runs ++ around)).terminals = ["a", "b"] ∧
        ∃ trace, count ⟨["A"].foldl Grammar.moveStart (.ofDefinitions (runs ++ around)), .asListed,
          20, [.terminal 0]⟩ () = .ok (.found ⟨1, [trace], 5⟩, ()) := by
  have hapart : ∀ definition ∈ around, definition.name ∉ Definition.written runs := by decide
  have hstarts : ∀ name ∈ ["A"], name ∈ runs.map (·.name) := by decide
  have hne : (["A"].foldl Grammar.moveStart (.ofDefinitions runs)).nonterminals ≠ [] := by decide
  obtain ⟨-, hcounts⟩ := count_extended (List.cons_ne_nil _ _) hapart hstarts rfl rfl
  obtain ⟨outcome, rest, hcount, hcount'⟩ := hcounts [.terminal 0] .asListed 20 ()
  rw [count_eq_run ((Grammar.Loaded.ofDefinitions runs).foldl_moveStart ["A"]) hne,
    run_eq_descent] at hcount
  obtain ⟨rfl, rfl⟩ := Prod.mk.inj (Except.ok.inj hcount)
  exact ⟨hapart, by decide, _, hcount'⟩

end Search

end AmbiguitySearch
