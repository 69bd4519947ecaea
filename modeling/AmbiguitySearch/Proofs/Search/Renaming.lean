import AmbiguitySearch.Proofs.Grammar.Renaming
import AmbiguitySearch.Proofs.Search.Exactness

/-!
# Names, ids and orders do not decide how much is found

Searches for corresponding words in corresponding grammars go through corresponding forms.
No id is the same on the two sides and no nonterminal has its bodies in the same order, but
every question that the search asks of a form has the same answer
(`Corresponds.status_alike`), so that the trees below the two forms differ only in what
their steps are called and in the order of their branches (`Corresponds.subtree_alike`).

Nothing more is needed, since the outcome of a search is an account of its tree, whatever
order the tree was gone through in:

> `count_renamed`: what the outcome for a word says about the outcome for the renamed word
> in any grammar of the renamed definitions.
-/

namespace AmbiguitySearch

/-- The same number of routes through the same number of forms. -/
structure Subtree.Alike (tree tree' : Subtree) : Prop where
  routes : tree.routes.length = tree'.routes.length
  forms : tree.forms = tree'.forms
  cut : tree.cut = tree'.cut

namespace Subtree.Alike

theorem refl (tree : Subtree) : Alike tree tree := ⟨rfl, rfl, rfl⟩

theorem of_same {tree tree' : Subtree} (h : Same tree tree') : Alike tree tree' :=
  ⟨h.routes.length_eq, h.forms, h.cut⟩

theorem trans {a b c : Subtree} (h : Alike a b) (h' : Alike b c) : Alike a c :=
  ⟨h.routes.trans h'.routes, h.forms.trans h'.forms, h.cut.trans h'.cut⟩

theorem beside {a a' b b' : Subtree} (h : Alike a a') (h' : Alike b b') :
    Alike (a.beside b) (a'.beside b') where
  routes := by
    show (a.routes ++ b.routes).length = (a'.routes ++ b'.routes).length
    rw [List.length_append, List.length_append, h.routes, h'.routes]
  forms := congrArg₂ (· + ·) h.forms h'.forms
  cut := congrArg₂ (· || ·) h.cut h'.cut

/-- What a step is called does not matter. -/
theorem after {tree tree' : Subtree} (h : Alike tree tree') (step step' : Step) :
    Alike (tree.after step) (tree'.after step') where
  routes := by
    show (tree.routes.map _).length = (tree'.routes.map _).length
    rw [List.length_map, List.length_map, h.routes]
  forms := h.forms
  cut := h.cut

theorem forest {trees trees' : List Subtree} (h : List.Forall₂ Alike trees trees') :
    Alike (.forest trees) (.forest trees') := by
  induction h with
  | nil => exact refl _
  | cons hfirst _ ih => exact hfirst.beside ih

end Subtree.Alike

/-- Statuses with the same meaning. -/
inductive Status.Alike (same : Symbol → Symbol → Prop) : Status → Status → Prop where
  | derived : Alike same .derived .derived
  | deadEnd : Alike same .deadEnd .deadEnd
  | live {position id id' : Nat} (corresponding : same (.nonterminal id) (.nonterminal id')) :
      Alike same (.live position id) (.live position id')

namespace Grammar.Corresponds

variable {g g' : Grammar} {same : Symbol → Symbol → Prop} {word word' form form' : Form}

/-! ## Corresponding forms -/

/-- Forms correspond symbol by symbol, and only one form corresponds to a form. -/
theorem form_unique (h : Corresponds g g' same) : Relator.BiUnique (List.Forall₂ same) :=
  ⟨fun _ _ _ => List.left_unique_forall₂' h.unique.1,
    fun _ _ _ => List.right_unique_forall₂' h.unique.2⟩

theorem letters_eq (h : Corresponds g g' same) (hform : List.Forall₂ same form form') :
    g.letters form = g'.letters form' := by
  induction hform with
  | nil => rfl
  | cons hfirst _ ih =>
    rw [letters_cons, g'.letters_cons, ih]
    simp [letters, h.isNullable_eq hfirst]

theorem firstNonterminal? (h : Corresponds g g' same) (hform : List.Forall₂ same form form')
    {position id : Nat} (hfirst : form.firstNonterminal? = some (position, id)) :
    ∃ id', form'.firstNonterminal? = some (position, id') ∧
      same (.nonterminal id) (.nonterminal id') := by
  induction hform generalizing position with
  | nil => cases hfirst
  | @cons symbol symbol' rest rest' hsame _ ih =>
    have hkind := h.isTerminal_eq hsame
    cases symbol with
    | nonterminal first =>
      obtain ⟨first', rfl⟩ := h.exists_nonterminal hsame
      cases hfirst
      exact ⟨first', rfl, hsame⟩
    | terminal first =>
      cases symbol' with
      | nonterminal first' => cases hkind
      | terminal first' =>
        simp only [Form.firstNonterminal?] at hfirst ⊢
        split at hfirst
        next => cases hfirst
        next hrest =>
          cases hfirst
          obtain ⟨id', hrest', hid⟩ := ih hrest
          rw [hrest']
          exact ⟨id', rfl, hid⟩

theorem splice {body body' : Form} (hform : List.Forall₂ same form form')
    (hbody : List.Forall₂ same body body') (position : Nat) :
    List.Forall₂ same (form.splice position 1 body) (form'.splice position 1 body') := by
  unfold Form.splice
  have hback := List.rel_append hbody (List.forall₂_drop (position + 1) hform)
  exact List.rel_append (List.forall₂_take position hform) hback

/-! ## Corresponding trees -/

/-- The reasons for going on are the same on both sides. -/
theorem status_live (h : Corresponds g g' same) (hword : List.Forall₂ same word word')
    (hform : List.Forall₂ same form form') {position id : Nat}
    (hlive : g.status word form = .live position id) :
    ∃ id', g'.status word' form' = .live position id' ∧
      same (.nonterminal id) (.nonterminal id') := by
  obtain ⟨hne, hfirst, hposition, htake, hletters⟩ := status_eq_live_iff.mp hlive
  obtain ⟨id', hfirst', hid⟩ := h.firstNonterminal? hform hfirst
  refine ⟨id', status_eq_live_iff.mpr ⟨?_, hfirst', ?_, ?_, ?_⟩, hid⟩
  · intro heq
    rw [heq] at hform
    exact hne (h.form_unique.1 hform hword)
  · rw [← hword.length_eq]
    exact hposition
  · have htake' := List.forall₂_take position hform
    rw [htake] at htake'
    exact h.form_unique.2 htake' (List.forall₂_take position hword)
  · rw [← h.letters_eq hform, ← hword.length_eq]
    exact hletters

theorem status_derived (h : Corresponds g g' same) (hword : List.Forall₂ same word word')
    (hform : List.Forall₂ same form form') (hderived : g.status word form = .derived) :
    g'.status word' form' = .derived := by
  rw [status_eq_derived_iff.mp hderived] at hform
  exact status_eq_derived_iff.mpr (h.form_unique.2 hform hword)

theorem status_alike (h : Corresponds g g' same) (hword : List.Forall₂ same word word')
    (hform : List.Forall₂ same form form') :
    Status.Alike same (g.status word form) (g'.status word' form') := by
  cases hs : g.status word form with
  | derived =>
    rw [h.status_derived hword hform hs]
    exact .derived
  | live position id =>
    obtain ⟨id', hs', hid⟩ := h.status_live hword hform hs
    rw [hs']
    exact .live hid
  | deadEnd =>
    -- any other status on the other side would come back to this one
    cases hs' : g'.status word' form' with
    | derived =>
      rw [h.symm.status_derived hword.flip hform.flip hs'] at hs
      cases hs
    | live position id' =>
      obtain ⟨id, hlive, -⟩ := h.symm.status_live hword.flip hform.flip hs'
      rw [hlive] at hs
      cases hs
    | deadEnd => exact .deadEnd

/-- **The trees below corresponding forms are alike.** -/
theorem subtree_alike (h : Corresponds g g' same) (hword : List.Forall₂ same word word') :
    ∀ (room : Nat) {form form' : Form}, List.Forall₂ same form form' →
      Subtree.Alike (g.subtree word room form) (g'.subtree word' room form')
  | room, form, form', hform => by
    have hstatus := h.status_alike hword hform
    generalize hs : g.status word form = status at hstatus
    generalize hs' : g'.status word' form' = status' at hstatus
    cases hstatus with
    | derived =>
      rw [subtree_derived room hs, subtree_derived room hs']
      exact .refl _
    | deadEnd =>
      rw [subtree_deadEnd room hs, subtree_deadEnd room hs']
      exact .refl _
    | @live position id id' hid =>
      cases room with
      | zero =>
        rw [subtree_live_zero hs, subtree_live_zero hs']
        exact .refl _
      | succ room =>
        rw [subtree_live_succ room hs, subtree_live_succ room hs']
        obtain ⟨bodies', hperm, hbodies⟩ := h.bodies hid
        refine (Subtree.Alike.refl .leaf).beside ?_
        -- branch by branch first, then the branches in another order
        refine Subtree.Alike.trans (.forest ?_)
          (.of_same (Subtree.same_forest_of_perm (hperm.map _)))
        rw [List.forall₂_map_left_iff, List.forall₂_map_right_iff]
        refine hbodies.imp fun body body' hbody => ?_
        exact (h.subtree_alike hword room (splice hform hbody position)).after _ _

end Grammar.Corresponds

namespace Search

variable {σ τ : Type}

/-- Accounts of trees alike count the same. -/
theorem Accounts.count_eq_of_alike {start start' : Form} {tree tree' : Subtree}
    {found found' : Derivations} (h : Accounts start tree found) (h' : Accounts start' tree' found')
    (halike : tree.Alike tree') : found'.count = found.count := by
  rw [h.count_eq_min_length, h'.count_eq_min_length, halike.routes]

theorem Accounts.explored_eq_of_alike {start start' : Form} {tree tree' : Subtree}
    {found found' : Derivations} (h : Accounts start tree found) (h' : Accounts start' tree' found')
    (halike : tree.Alike tree') (hfew : found.count < ambiguityThreshold) :
    found'.explored = found.explored := by
  have hfew' : found'.count < ambiguityThreshold := by
    rw [h.count_eq_of_alike h' halike]
    exact hfew
  rw [(h.exhausted hfew).2, (h'.exhausted hfew').2, halike.forms]

/-- What a finished run says about a run through a tree that is alike. -/
theorem outcome_of_alike {search : Search σ} {search' : Search τ} {source rest : σ}
    {source' rest' : τ} {found : Derivations} {outcome' : Outcome}
    (halike : search.tree.Alike search'.tree) (hlimit : search'.depthLimit = search.depthLimit)
    (hrun : search.run source = (.found found, rest)) (hrun' : search'.run source' = (outcome', rest')) :
    (found.count ≤ 1 → ∃ found', outcome' = .found found' ∧ found'.count = found.count ∧
        found'.explored = found.explored) ∧
      (found.count = 2 → outcome' = .aborted search.depthLimit ∨
        ∃ found', outcome' = .found found' ∧ found'.count = 2) := by
  have haccounts := run_found hrun
  cases outcome' with
  | aborted limit =>
    -- an abort is a tree cut off, which a count below two excludes
    obtain ⟨rfl, hcut⟩ := run_aborted hrun'
    constructor
    · intro hfew
      have hwhole := (haccounts.exhausted (Nat.lt_succ_of_le hfew)).1
      rw [halike.cut, hcut] at hwhole
      cases hwhole
    · intro _
      rw [hlimit]
      exact Or.inl rfl
  | found found' =>
    have haccounts' := run_found hrun'
    have hcount := haccounts.count_eq_of_alike haccounts' halike
    constructor
    · intro hfew
      exact ⟨found', rfl, hcount,
        haccounts.explored_eq_of_alike haccounts' halike (Nat.lt_succ_of_le hfew)⟩
    · intro htwo
      exact Or.inr ⟨found', rfl, hcount.trans htwo⟩

end Search

namespace Grammar

variable {definitions definitions' : List Definition} {rename : String → String}

/-- The start has no part in what symbols and rules correspond. -/
theorem Corresponds.withStart {g g' : Grammar} {same : Symbol → Symbol → Prop}
    (h : Corresponds g g' same) (start start' : Nat) :
    Corresponds { g with start } { g' with start := start' } same :=
  ⟨h.declared, h.total, h.onto, h.unique, h.isTerminal_eq, h.bodies⟩

/-- Any name defined can be the start. -/
theorem loaded_withStart {start : Nat} {name : String}
    (hstart : (ofDefinitions definitions).nonterminals[start]? = some name) :
    Loaded { ofDefinitions definitions with start } := by
  obtain ⟨id, hid, hmoved⟩ := exists_withStart?_eq_some (List.mem_of_getElem? hstart)
  obtain rfl := eq_of_getElem?_eq (ofDefinitions_unambiguous definitions).nonterminals_nodup
    hstart hid
  exact (Loaded.ofDefinitions definitions).withStart hmoved

/-- Names that are used spell a form under their new names. -/
theorem Restates.exists_renamed (h : Restates rename definitions definitions') {word : Form}
    {names : List String} (hword : (ofDefinitions definitions).SpelledBy word names) :
    ∃ word', (ofDefinitions definitions').SpelledBy word' (names.map rename) := by
  induction hword with
  | nil => exact ⟨[], .nil⟩
  | @cons symbol name _ _ hname _ ih =>
    obtain ⟨rest', hrest'⟩ := ih
    have hused := h.mem_namesUsed_iff.mpr ⟨name, exists_nameIn_iff.mp ⟨symbol, hname⟩, rfl⟩
    obtain ⟨symbol', hname'⟩ := exists_nameIn_iff.mpr hused
    exact ⟨symbol' :: rest', .cons hname' hrest'⟩

theorem spelledBy_counterparts {g g' : Grammar} {form form' : Form} {names : List String}
    (hform : g.SpelledBy form names) (hform' : g'.SpelledBy form' (names.map rename)) :
    List.Forall₂ (Counterparts rename g g') form form' :=
  forall₂_of_map (fun _ name _ hname hname' => ⟨name, hname, hname'⟩) hform hform'

end Grammar

namespace Search

open Grammar

variable {definitions definitions' : List Definition} {rename : String → String}

/-- **Names, ids and orders decide nothing.** Under renaming, the same nonterminals vanish
and the same grammars have no words. From starts that correspond, fewer than two
derivations of a word are as many of the renamed word, found after as many forms; two are
two or an abort. -/
theorem count_renamed (h : Restates rename definitions definitions') :
    ((ofDefinitions definitions).vocabularyEmpty = (ofDefinitions definitions').vocabularyEmpty) ∧
    (∀ id id' name, (ofDefinitions definitions).nonterminals[id]? = some name →
      (ofDefinitions definitions').nonterminals[id']? = some (rename name) →
        (ofDefinitions definitions).isNullable (.nonterminal id) =
          (ofDefinitions definitions').isNullable (.nonterminal id')) ∧
    ∀ start start' name, (ofDefinitions definitions).nonterminals[start]? = some name →
      (ofDefinitions definitions').nonterminals[start']? = some (rename name) →
    ∀ word names, (ofDefinitions definitions).SpelledBy word names →
      (∃ word', (ofDefinitions definitions').SpelledBy word' (names.map rename)) ∧
      ∀ word', (ofDefinitions definitions').SpelledBy word' (names.map rename) →
      ∀ (depthLimit : Nat) (order : RuleOrder σ) (source : σ) (order' : RuleOrder τ) (source' : τ),
        ∃ outcome rest outcome' rest',
          count ⟨{ ofDefinitions definitions with start }, order, depthLimit, word⟩ source =
              .ok (outcome, rest) ∧
            count ⟨{ ofDefinitions definitions' with start := start' }, order', depthLimit, word'⟩
                source' = .ok (outcome', rest') ∧
              ∀ found, outcome = .found found →
                (found.count ≤ 1 → ∃ found', outcome' = .found found' ∧
                  found'.count = found.count ∧ found'.explored = found.explored) ∧
                (found.count = 2 → outcome' = .aborted depthLimit ∨
                  ∃ found', outcome' = .found found' ∧ found'.count = 2) := by
  have hsame := h.corresponds
  refine ⟨hsame.vocabularyEmpty_eq (.ofDefinitions _) (.ofDefinitions _), ?_, ?_⟩
  · intro id id' name hid hid'
    exact hsame.isNullable_eq ⟨name, hid, hid'⟩
  · intro start start' name hstart hstart' word names hword
    refine ⟨h.exists_renamed hword, ?_⟩
    intro word' hword' depthLimit order source order' source'
    have hne := List.ne_nil_of_mem (List.mem_of_getElem? hstart)
    have hne' := List.ne_nil_of_mem (List.mem_of_getElem? hstart')
    rw [count_eq_run (loaded_withStart hstart) hne, count_eq_run (loaded_withStart hstart') hne']
    refine ⟨_, _, _, _, rfl, rfl, ?_⟩
    intro found hfound
    have hstarts : Counterparts rename (ofDefinitions definitions) (ofDefinitions definitions')
        (.nonterminal start) (.nonterminal start') := ⟨name, hstart, hstart'⟩
    have halike : Subtree.Alike
        (tree ⟨{ ofDefinitions definitions with start }, order, depthLimit, word⟩)
        (tree ⟨{ ofDefinitions definitions' with start := start' }, order', depthLimit, word'⟩) :=
      (hsame.withStart start start').subtree_alike (spelledBy_counterparts hword hword')
        depthLimit (.cons hstarts .nil)
    exact outcome_of_alike halike rfl (Prod.ext hfound rfl) rfl

/-- Lists of letters. -/
def letterLists : List Definition := [⟨"S", [["S", "S"], ["A"]]⟩, ⟨"A", [["a"]]⟩]

/-- The same under other names, in another order, with a rule and a line more than needed. -/
def itemLists : List Definition :=
  [⟨"item", [["x"], ["epsilon", "x"]]⟩, ⟨"list", [["item"]]⟩,
    ⟨"list", [["list", "epsilon", "list"], ["item"]]⟩]

def itemName (name : String) : String :=
  if name = "S" then "list" else if name = "A" then "item" else "x"

/-- Two letters are a list in one way, which the search in the order of the grammar sees
after ten forms, and so are two items under a shuffle. -/
theorem count_renamed_itemLists :
    ∃ found rest, count ⟨{ ofDefinitions itemLists with start := 1 }, .shuffled, 20,
        [.terminal 0, .terminal 0]⟩ (Xoshiro.ofSeed 7) = .ok (.found found, rest) ∧
      found.count = 1 ∧ found.explored = 10 := by
  have h : Restates itemName letterLists itemLists := ⟨by decide, by decide, by decide⟩
  have hword : (ofDefinitions letterLists).SpelledBy [.terminal 0, .terminal 0] ["a", "a"] :=
    .cons rfl (.cons rfl .nil)
  have hword' : (ofDefinitions itemLists).SpelledBy [.terminal 0, .terminal 0] ["x", "x"] :=
    .cons rfl (.cons rfl .nil)
  obtain ⟨-, -, hcounts⟩ := count_renamed h
  obtain ⟨-, hcounts⟩ := hcounts 0 1 "S" rfl rfl _ _ hword
  obtain ⟨outcome, rest, outcome', rest', hcount, hcount', hsame⟩ :=
    hcounts _ hword' 20 .asListed () .shuffled (Xoshiro.ofSeed 7)
  rw [count_eq_run (.ofDefinitions _) (by decide), run_eq_descent] at hcount
  obtain ⟨rfl, rfl⟩ := Prod.mk.inj (Except.ok.inj hcount)
  obtain ⟨found, rfl, hone, hexplored⟩ := (hsame _ rfl).1 (Nat.le_refl 1)
  exact ⟨found, rest', hcount', hone, hexplored⟩

end Search

end AmbiguitySearch
