import AmbiguitySearch.RuleOrder

/-!
# Orders told by positions

The order in use looks at no body. All that it needs to know is how many there are,
and it could as well arrange their positions. An `IndexOrder` does, and `toRuleOrder`
puts the bodies in the places of the positions.

> `shuffled_toRuleOrder`: the order in use is one of them.
-/

namespace AmbiguitySearch

namespace Xoshiro

variable {α β : Type}

theorem swap_map (f : α → β) {items : Array α} {i j : Nat} (hi : i < items.size)
    (hj : j < items.size) (hi' : i < (items.map f).size) (hj' : j < (items.map f).size) :
    (items.map f).swap i j hi' hj' = (items.swap i j hi hj).map f := by
  apply Array.ext
  · rw [Array.size_swap, Array.size_map, Array.size_map, Array.size_swap]
  · intro k hk hk'
    rw [Array.getElem_map, Array.getElem_swap, Array.getElem_swap, Array.getElem_map,
      Array.getElem_map, Array.getElem_map]
    by_cases hfirst : k = i
    · rw [if_pos hfirst, if_pos hfirst]
    · rw [if_neg hfirst, if_neg hfirst]
      by_cases hsecond : k = j
      · rw [if_pos hsecond, if_pos hsecond]
      · rw [if_neg hsecond, if_neg hsecond]

theorem shuffleFrom_map (f : α → β) : ∀ (last : Nat) (items : Array α)
    (inside : last < items.size) (inside' : last < (items.map f).size) (gen : Xoshiro),
    shuffleFrom last (items.map f) inside' gen =
      ((shuffleFrom last items inside gen).1.map f, (shuffleFrom last items inside gen).2)
  | 0, _, _, _, _ => rfl
  | last + 1, items, inside, inside', gen => by
    unfold shuffleFrom
    rcases gen.below (last + 2) (by omega) with ⟨chosen, rest⟩
    simp only [swap_map f inside (j := chosen) (by omega)]
    exact shuffleFrom_map f last _ _ _ rest

/-- A shuffle looks at positions only. -/
theorem shuffle_map (f : α → β) (items : List α) (gen : Xoshiro) :
    shuffle (items.map f) gen = ((shuffle items gen).1.map f, (shuffle items gen).2) := by
  unfold shuffle
  by_cases hne : items.length ≠ 0
  · have hne' : (items.map f).length ≠ 0 := by rw [List.length_map]; exact hne
    have hinside : items.length - 1 < items.toArray.size := by
      rw [List.size_toArray]
      omega
    rw [dif_pos hne, dif_pos hne']
    simp only [List.length_map, ← List.map_toArray]
    rw [shuffleFrom_map f _ _ hinside]
    simp only [Array.toList_map]
  · have hne' : ¬ (items.map f).length ≠ 0 := by rw [List.length_map]; exact hne
    rw [dif_neg hne, dif_neg hne']

end Xoshiro

/-- A way to arrange a number of things by their positions, with a state of type
`σ`. -/
structure IndexOrder (σ : Type) where
  /-- The positions in the order to try them in, and the next state. -/
  arrange : Nat → σ → List Nat × σ
  /-- Arranging rearranges. -/
  arrange_perm : ∀ (count : Nat) (state : σ), (arrange count state).1.Perm (List.range count)

namespace IndexOrder

variable {σ : Type}

/-- A fresh random order for every expansion. -/
def shuffled : IndexOrder Xoshiro where
  arrange count := Xoshiro.shuffle (List.range count)
  arrange_perm count := Xoshiro.shuffle_perm (List.range count)

/-- The order of the grammar. -/
def asListed : IndexOrder Unit where
  arrange count state := (List.range count, state)
  arrange_perm _ _ := List.Perm.refl _

/-- The bodies at some positions. -/
def pick (bodies : List Form) (positions : List Nat) : List Form :=
  positions.map (bodies.getD · [])

theorem pick_range (bodies : List Form) : pick bodies (List.range bodies.length) = bodies := by
  apply List.ext_getElem
  · rw [pick, List.length_map, List.length_range]
  · intro i hi hi'
    simp only [pick, List.getElem_map, List.getElem_range]
    exact (List.getElem_eq_getD []).symm

/-- The order on bodies that arranges them by their positions. -/
def toRuleOrder (order : IndexOrder σ) : RuleOrder σ where
  arrange bodies state :=
    (pick bodies (order.arrange bodies.length state).1, (order.arrange bodies.length state).2)
  arrange_perm bodies state := by
    have hperm := (order.arrange_perm bodies.length state).map (bodies.getD · [])
    have hrange : (List.range bodies.length).map (bodies.getD · []) = bodies := pick_range bodies
    rw [hrange] at hperm
    exact hperm

/-- **The order in use looks at no body.** -/
theorem shuffled_toRuleOrder : shuffled.toRuleOrder = RuleOrder.shuffled := by
  have harrange : shuffled.toRuleOrder.arrange = Xoshiro.shuffle := by
    funext bodies gen
    have hmap := Xoshiro.shuffle_map (bodies.getD · []) (List.range bodies.length) gen
    rw [show (List.range bodies.length).map (bodies.getD · []) = bodies from pick_range bodies]
      at hmap
    exact hmap.symm
  unfold RuleOrder.shuffled
  generalize shuffled.toRuleOrder = order at harrange
  cases order
  cases harrange
  rfl

/-- Every position of an arrangement has a body. -/
theorem lt_of_mem_arrange {order : IndexOrder σ} {count position : Nat} {state : σ}
    (h : position ∈ (order.arrange count state).1) : position < count :=
  List.mem_range.mp ((order.arrange_perm count state).mem_iff.mp h)

end IndexOrder

end AmbiguitySearch
