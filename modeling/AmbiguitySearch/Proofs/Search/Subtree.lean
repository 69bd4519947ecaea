import AmbiguitySearch.Proofs.Search.DeadEnd
import AmbiguitySearch.Report.Table
import Mathlib.Data.List.Nodup

/-!
# What lies below a form

A search visits the forms below a form in some order and may stop early. What
there is to visit depends on neither: `Grammar.subtree` collects it for a given
room of steps, with the bodies of the grammar in the order of the grammar.

* `mem_routes_of_derives`, `derives_of_mem_routes`: the routes of a subtree are
  the leftmost derivations of the word that fit into the room.
* `length_le_of_cut_eq_false`: where nothing was cut off, every derivation
  fits.
* `nodup_routes`: no route is listed twice.
* `Subtree.same_forest_of_perm`: bodies in another order make the same subtree,
  up to the order of its routes.
-/

namespace AmbiguitySearch

/-- The forms below a form, as far as they matter to a search. -/
structure Subtree where
  /-- The steps to the word, one list for each way to get there. -/
  routes : List (List Step)
  /-- The number of forms. -/
  forms : Nat
  /-- Whether a live form had no room for a step. -/
  cut : Bool

namespace Subtree

/-- No form at all. -/
def nothing : Subtree := ⟨[], 0, false⟩

/-- One form that leads no further. -/
def leaf : Subtree := ⟨[], 1, false⟩

/-- Two subtrees together. -/
def beside (left right : Subtree) : Subtree :=
  ⟨left.routes ++ right.routes, left.forms + right.forms, left.cut || right.cut⟩

/-- A subtree reached by a step. -/
def after (step : Step) (tree : Subtree) : Subtree :=
  { tree with routes := tree.routes.map (step :: ·) }

/-- Several subtrees together. -/
def forest (trees : List Subtree) : Subtree := trees.foldr beside nothing

theorem forest_cons (tree : Subtree) (trees : List Subtree) :
    forest (tree :: trees) = tree.beside (forest trees) := rfl

theorem routes_forest (trees : List Subtree) : (forest trees).routes = trees.flatMap (·.routes) := by
  induction trees with
  | nil => rfl
  | cons tree trees ih => rw [forest_cons, beside, ih, List.flatMap_cons]

theorem cut_forest (trees : List Subtree) : (forest trees).cut = trees.any (·.cut) := by
  induction trees with
  | nil => rfl
  | cons tree trees ih => rw [forest_cons, beside, ih, List.any_cons]

/-- Equal but for the order of the routes. -/
structure Same (tree tree' : Subtree) : Prop where
  routes : tree.routes.Perm tree'.routes
  forms : tree.forms = tree'.forms
  cut : tree.cut = tree'.cut

theorem Same.refl (tree : Subtree) : Same tree tree := ⟨List.Perm.refl _, rfl, rfl⟩

theorem Same.trans {a b c : Subtree} (h : Same a b) (h' : Same b c) : Same a c :=
  ⟨h.routes.trans h'.routes, h.forms.trans h'.forms, h.cut.trans h'.cut⟩

theorem Same.beside {a a' b b' : Subtree} (h : Same a a') (h' : Same b b') :
    Same (a.beside b) (a'.beside b') :=
  ⟨h.routes.append h'.routes, congrArg₂ (· + ·) h.forms h'.forms, congrArg₂ (· || ·) h.cut h'.cut⟩

/-- The order of the subtrees does not matter. -/
theorem same_forest_of_perm {trees trees' : List Subtree} (h : trees.Perm trees') :
    Same (forest trees) (forest trees') := by
  induction h with
  | nil => exact Same.refl _
  | cons tree _ ih => exact (Same.refl tree).beside ih
  | swap a b trees =>
    -- the routes of the first two trees change places
    refine ⟨?_, Nat.add_left_comm .., Bool.or_left_comm ..⟩
    simp only [forest_cons, Subtree.beside]
    rw [← List.append_assoc, ← List.append_assoc]
    exact List.perm_append_comm.append_right _
  | trans _ _ ih ih' => exact ih.trans ih'

end Subtree

/-- The step that replaces the nonterminal at a position by a body. -/
def stepAt (form : Form) (position nonterminal : Nat) (body : Form) : Step :=
  ⟨nonterminal, body, form.splice position 1 body⟩

namespace Grammar

/-- What lies below a form, with `room` steps left to take. -/
def subtree (g : Grammar) (word : Form) : (room : Nat) → Form → Subtree
  | room, form =>
    match g.status word form with
    | .derived => { Subtree.leaf with routes := [[]] }
    | .deadEnd => .leaf
    | .live position nonterminal =>
      match room with
      | 0 => { Subtree.leaf with cut := true }
      | room + 1 =>
        Subtree.leaf.beside <| .forest <| (g.bodies nonterminal).map fun body =>
          (subtree g word room (form.splice position 1 body)).after
            (stepAt form position nonterminal body)

variable {g : Grammar} {word form : Form}

section Equations

theorem subtree_derived (room : Nat) (h : g.status word form = .derived) :
    g.subtree word room form = { Subtree.leaf with routes := [[]] } := by
  cases room <;> simp only [subtree, h]

theorem subtree_deadEnd (room : Nat) (h : g.status word form = .deadEnd) :
    g.subtree word room form = .leaf := by
  cases room <;> simp only [subtree, h]

theorem subtree_live_zero {position nonterminal : Nat}
    (h : g.status word form = .live position nonterminal) :
    g.subtree word 0 form = { Subtree.leaf with cut := true } := by
  simp only [subtree, h]

theorem subtree_live_succ {position nonterminal : Nat} (room : Nat)
    (h : g.status word form = .live position nonterminal) :
    g.subtree word (room + 1) form =
      Subtree.leaf.beside (.forest ((g.bodies nonterminal).map fun body =>
        (g.subtree word room (form.splice position 1 body)).after
          (stepAt form position nonterminal body))) := by
  rw [subtree, h]

end Equations

/-- A route below a live form takes a step at its first nonterminal and goes on
below the form that results. -/
theorem mem_routes_live_succ {position nonterminal room : Nat} {route : List Step}
    (h : g.status word form = .live position nonterminal) :
    route ∈ (g.subtree word (room + 1) form).routes ↔
      ∃ body ∈ g.bodies nonterminal,
        ∃ rest ∈ (g.subtree word room (form.splice position 1 body)).routes,
          stepAt form position nonterminal body :: rest = route := by
  rw [subtree_live_succ room h, Subtree.beside, Subtree.leaf, List.nil_append,
    Subtree.routes_forest]
  simp only [List.flatMap_map, List.mem_flatMap, Subtree.after, List.mem_map]

theorem expands_stepAt {position nonterminal : Nat} {body : Form}
    (h : g.status word form = .live position nonterminal) (hb : body ∈ g.bodies nonterminal) :
    g.Expands form (stepAt form position nonterminal body) :=
  expands_iff.mpr ⟨position, (status_eq_live_iff.mp h).2.1, hb, rfl⟩

theorem stages_cons (form : Form) (first : Step) (rest : List Step) :
    Trace.stages ⟨form, first :: rest⟩ = (form, first) :: Trace.stages ⟨first.form, rest⟩ := rfl

/-- A route is a leftmost derivation of the word, as long as the room at most,
and comes to the word only at its end. -/
theorem derives_of_mem_routes :
    ∀ {room : Nat} {form : Form} {route : List Step}, route ∈ (g.subtree word room form).routes →
      g.Derives form route word ∧ route.length ≤ room ∧
        ∀ stage ∈ Trace.stages ⟨form, route⟩, stage.1 ≠ word
  | room, form, route, hroute => by
    cases hs : g.status word form with
    | derived =>
      rw [subtree_derived room hs] at hroute
      obtain rfl := List.mem_singleton.mp hroute
      rw [status_eq_derived_iff.mp hs]
      exact ⟨.refl word, Nat.zero_le _, fun _ hstage => absurd hstage (by simp [Trace.stages])⟩
    | deadEnd =>
      rw [subtree_deadEnd room hs] at hroute
      cases hroute
    | live position nonterminal =>
      cases room with
      | zero =>
        rw [subtree_live_zero hs] at hroute
        cases hroute
      | succ room =>
        obtain ⟨body, hb, rest, hrest, rfl⟩ := (mem_routes_live_succ hs).mp hroute
        obtain ⟨hder, hlen, hstages⟩ := derives_of_mem_routes hrest
        refine ⟨.step (expands_stepAt hs hb) hder, Nat.succ_le_succ hlen, ?_⟩
        intro stage hstage
        rw [stages_cons] at hstage
        rcases List.mem_cons.mp hstage with rfl | hstage
        · exact (status_eq_live_iff.mp hs).1
        · exact hstages stage hstage

/-- A derivation of a word starts at a form that is not dropped. -/
theorem live_of_derives_step {first : Step} {rest : List Step} (hw : word.IsWord)
    (h : g.Derives form (first :: rest) word) :
    ∃ position, g.status word form = .live position first.nonterminal ∧
      first.body ∈ g.bodies first.nonterminal ∧
        first = stepAt form position first.nonterminal first.body := by
  cases h with
  | step hexp hder =>
    obtain ⟨position, hfirst, hb, hform⟩ := expands_iff.mp hexp
    have hne : form ≠ word := fun heq => not_expands_of_isWord (heq ▸ hw) hexp
    exact ⟨position, live_of_derives hw (.step hexp hder) hne hfirst, hb, by
      rw [stepAt, ← hform]⟩

/-- Every derivation of a word that fits into the room is a route. -/
theorem mem_routes_of_derives (hw : word.IsWord) :
    ∀ {route : List Step} {room : Nat} {form : Form}, g.Derives form route word →
      route.length ≤ room → route ∈ (g.subtree word room form).routes
  | [], room, form, hder, _ => by
    cases hder
    rw [subtree_derived room (status_eq_derived_iff.mpr rfl)]
    exact List.mem_singleton_self _
  | first :: rest, room, form, hder, hlen => by
    obtain ⟨position, hs, hb, hfirst⟩ := live_of_derives_step hw hder
    cases hder with
    | step _ hder =>
      cases room with
      | zero => cases hlen
      | succ room =>
        have hform : first.form = form.splice position 1 first.body := by rw [hfirst]; rfl
        rw [hform] at hder
        exact (mem_routes_live_succ hs).mpr
          ⟨first.body, hb, rest, mem_routes_of_derives hw hder (Nat.le_of_succ_le_succ hlen),
            by rw [← hfirst]⟩

/-- Where nothing is cut off, no derivation of a word is longer than the room. -/
theorem length_le_of_cut_eq_false (hw : word.IsWord) :
    ∀ {route : List Step} {room : Nat} {form : Form}, (g.subtree word room form).cut = false →
      g.Derives form route word → route.length ≤ room
  | [], _, _, _, _ => Nat.zero_le _
  | first :: rest, room, form, hcut, hder => by
    obtain ⟨position, hs, hb, hfirst⟩ := live_of_derives_step hw hder
    cases hder with
    | step _ hder =>
      cases room with
      | zero =>
        rw [subtree_live_zero hs] at hcut
        cases hcut
      | succ room =>
        have hform : first.form = form.splice position 1 first.body := by rw [hfirst]; rfl
        rw [hform] at hder
        rw [subtree_live_succ room hs, Subtree.beside, Subtree.cut_forest, List.any_map,
          Bool.or_eq_false_iff, List.any_eq_false] at hcut
        have hbelow := hcut.2 first.body hb
        exact Nat.succ_le_succ (length_le_of_cut_eq_false hw (Bool.not_eq_true _ ▸ hbelow) hder)

/-- With no body declared twice, no route is listed twice. -/
theorem nodup_routes (hbodies : ∀ nonterminal, (g.bodies nonterminal).Nodup) :
    ∀ (room : Nat) (form : Form), (g.subtree word room form).routes.Nodup
  | room, form => by
    cases hs : g.status word form with
    | derived =>
      rw [subtree_derived room hs]
      exact List.nodup_singleton _
    | deadEnd =>
      rw [subtree_deadEnd room hs]
      exact List.nodup_nil
    | live position nonterminal =>
      cases room with
      | zero =>
        rw [subtree_live_zero hs]
        exact List.nodup_nil
      | succ room =>
        rw [subtree_live_succ room hs, Subtree.beside, Subtree.leaf, List.nil_append,
          Subtree.routes_forest, List.flatMap_map, List.nodup_flatMap]
        refine ⟨fun body _ => ?_, (hbodies nonterminal).imp ?_⟩
        · exact (nodup_routes hbodies room _).map (fun _ _ h => (List.cons.inj h).2)
        · -- routes through different bodies differ in their first step
          intro body body' hne route hroute hroute'
          obtain ⟨rest, -, rfl⟩ := List.mem_map.mp hroute
          obtain ⟨rest', -, h⟩ := List.mem_map.mp hroute'
          exact hne (Step.mk.inj (List.cons.inj h).1).2.1.symm

end Grammar

end AmbiguitySearch
