import AmbiguitySearch.Search.Machine

/-!
# The search as a recursion

The same search, told without stack and without undoing: `Search.descend`
visits a form and then the forms that its bodies lead to, each with the steps
taken so far. It recurses once for every step of a derivation, so it is the
description to reason with, while `Search.run` is the one to execute.
-/

namespace AmbiguitySearch.Search

variable {σ : Type}

/-- What has been seen so far. -/
structure Tally (σ : Type) where
  witnesses : List Trace
  explored : Nat
  /-- The state of the rule order. -/
  source : σ

/-- Visits a form and everything below it, with `room` steps left to take. An
abort keeps nothing but the state of the rule order. -/
def descend (search : Search σ) : (room : Nat) → Form → List Step → Tally σ → Except σ (Tally σ)
  | room, form, steps, tally =>
    let explored := tally.explored + 1
    match search.grammar.status search.word form with
    | .derived =>
      .ok { tally with explored, witnesses := tally.witnesses ++ [⟨search.start, steps⟩] }
    | .deadEnd => .ok { tally with explored }
    | .live position nonterminal =>
      match room with
      | 0 => .error tally.source
      | room + 1 =>
        match search.order.arrange (search.grammar.bodies nonterminal) tally.source with
        | (bodies, source) =>
          bodies.foldlM
            (fun tally body =>
              if ambiguityThreshold ≤ tally.witnesses.length then .ok tally
              else
                let replaced := form.splice position 1 body
                search.descend room replaced (steps ++ [⟨nonterminal, body, replaced⟩]) tally)
            { tally with explored, source }

/-- The outcome of the recursion, told like that of `Search.run`. -/
def descent (search : Search σ) (source : σ) : Outcome × σ :=
  match search.descend search.depthLimit search.start [] ⟨[], 0, source⟩ with
  | .ok tally => (.found ⟨tally.witnesses.length, tally.witnesses, tally.explored⟩, tally.source)
  | .error source => (.aborted search.depthLimit, source)

end AmbiguitySearch.Search
