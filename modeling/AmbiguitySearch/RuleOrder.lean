import AmbiguitySearch.Symbol
import AmbiguitySearch.Random.Shuffle

/-!
# The order in which bodies are tried

Whenever the search expands a nonterminal it asks a `RuleOrder` for the order
to try the bodies in. An order may consult and advance a state of its own, but
it may only rearrange: it can neither drop a body nor invent one. This is all
that the count of derivations depends on, so everything said about the search
is said for an arbitrary `RuleOrder`. The one in use shuffles with a seeded
generator.
-/

namespace AmbiguitySearch

/-- A way to arrange the bodies of a nonterminal, with a state of type `σ`. -/
structure RuleOrder (σ : Type) where
  /-- The bodies in the order to try them in, and the next state. -/
  arrange : List Form → σ → List Form × σ
  /-- Arranging rearranges. -/
  arrange_perm : ∀ (bodies : List Form) (state : σ), (arrange bodies state).1.Perm bodies

namespace RuleOrder

/-- A fresh random order for every expansion. -/
def shuffled : RuleOrder Xoshiro where
  arrange := Xoshiro.shuffle
  arrange_perm := Xoshiro.shuffle_perm

/-- The order of the grammar. -/
def asListed : RuleOrder Unit where
  arrange bodies state := (bodies, state)
  arrange_perm _ _ := List.Perm.refl _

theorem length_arrange {σ : Type} (order : RuleOrder σ) (bodies : List Form) (state : σ) :
    (order.arrange bodies state).1.length = bodies.length :=
  (order.arrange_perm bodies state).length_eq

end RuleOrder

end AmbiguitySearch
