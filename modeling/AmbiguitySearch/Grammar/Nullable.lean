import AmbiguitySearch.Symbol

/-!
# Nullable nonterminals

A nonterminal is nullable when the empty form can be derived from it. The
flags are the least solution of one equation: a nonterminal is nullable if
some body of it holds nullable nonterminals only.

`nullableFlags` begins with the nonterminals that have an empty body and goes
over the rules in passes. A pass sets flags in place, so that a nonterminal
that gets its flag counts at once for those that come after it, and a
nonterminal that has its flag is not looked at again. The first pass that sets
no flag is the last. Any other sets one at least, so there is always room for
the last one among as many passes as there are nonterminals and one more.
-/

namespace AmbiguitySearch

/-- Whether every symbol of a body can vanish, given which nonterminals do. No
terminal vanishes. -/
def bodyVanishes (vanishes : Nat → Bool) (body : Form) : Bool :=
  body.all fun
    | .terminal _ => false
    | .nonterminal id => vanishes id

/-- A pass under way: the flags set so far, and whether the pass has set one of
them. -/
structure Marking where
  flags : Array Bool
  updated : Bool

namespace Marking

/-- Whether a nonterminal has its flag. -/
def has (marking : Marking) (id : Nat) : Bool := marking.flags.getD id false

/-- Sets the flag of a nonterminal if it is not set and one of the bodies can
vanish. -/
def visit (marking : Marking) (id : Nat) (bodies : List Form) : Marking :=
  if marking.has id then marking
  else if bodies.any (bodyVanishes marking.has) then
    { flags := marking.flags.setIfInBounds id true, updated := true }
  else marking

/-- Visits the nonterminals from `id` on, each with its bodies. -/
def visitFrom (marking : Marking) : (id : Nat) → List (List Form) → Marking
  | _, [] => marking
  | id, bodies :: rest => (marking.visit id bodies).visitFrom (id + 1) rest

end Marking

/-- One pass over the rules. -/
def markPass (rules : List (List Form)) (flags : Array Bool) : Marking :=
  Marking.visitFrom { flags, updated := false } 0 rules

/-- Makes passes until one sets no flag, at most `passes` of them. -/
def saturateFlags (rules : List (List Form)) : (passes : Nat) → Array Bool → Array Bool
  | 0, flags => flags
  | passes + 1, flags =>
    let marking := markPass rules flags
    if marking.updated then saturateFlags rules passes marking.flags else marking.flags

/-- The flags of the nonterminals that have an empty body. -/
def initialFlags (rules : List (List Form)) : Array Bool :=
  (rules.map fun bodies => bodies.any (·.isEmpty)).toArray

/-- For each nonterminal of a rule table, whether it derives the empty form. -/
def nullableFlags (rules : List (List Form)) : Array Bool :=
  saturateFlags rules (rules.length + 1) (initialFlags rules)

end AmbiguitySearch
