import AmbiguitySearch.Random.Xoshiro

/-!
# Shuffling

The shuffle that settles items from the end: for every index from the last down to
the second, exchange its item with the one at a uniform index not above it.
`shuffle_perm` says that the result is a rearrangement, whatever is drawn: it
rests on nothing but the exchanges.
-/

namespace AmbiguitySearch.Xoshiro

variable {α : Type}

/-- Settles the items from index `last` down. -/
def shuffleFrom : (last : Nat) → (items : Array α) → last < items.size → Xoshiro →
    Array α × Xoshiro
  | 0, items, _, gen => (items, gen)
  | last + 1, items, inside, gen =>
    match gen.below (last + 2) (by omega) with
    | (chosen, gen) =>
      let exchanged := items.swap (last + 1) chosen inside (by omega)
      shuffleFrom last exchanged (by simp only [exchanged, Array.size_swap]; omega) gen

/-- Rearranges the items of a list. Lists of fewer than two items draw
nothing. -/
def shuffle (items : List α) (gen : Xoshiro) : List α × Xoshiro :=
  if nonempty : items.length ≠ 0 then
    match shuffleFrom (items.length - 1) items.toArray
        (by simp only [List.size_toArray]; omega) gen with
    | (shuffled, gen) => (shuffled.toList, gen)
  else (items, gen)

theorem shuffleFrom_perm : ∀ (last : Nat) (items : Array α) (inside : last < items.size)
    (gen : Xoshiro), (shuffleFrom last items inside gen).1.Perm items
  | 0, items, _, _ => Array.Perm.refl items
  | last + 1, items, _, gen => by
    unfold shuffleFrom
    exact (shuffleFrom_perm last _ _ _).trans (Array.swap_perm _ _)

/-- A shuffle rearranges and nothing else. -/
theorem shuffle_perm (items : List α) (gen : Xoshiro) :
    ((shuffle items gen).1).Perm items := by
  unfold shuffle
  split
  next => exact (shuffleFrom_perm _ _ _ _).toList
  next => exact List.Perm.refl items

end AmbiguitySearch.Xoshiro
