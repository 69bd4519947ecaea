import AmbiguitySearch.Derivation

/-!
# What a search finds

A search for the derivations of one word either finishes or runs out of its
budget of steps. A finished search has counted derivations, up to two: the
second already proves the word ambiguous, so nobody looks for a third.
-/

namespace AmbiguitySearch

/-- The number of derivations at which a word is known to be ambiguous. -/
def ambiguityThreshold : Nat := 2

structure Derivations where
  /-- How many there are, with `ambiguityThreshold` standing for that many or
  more. -/
  count : Nat
  /-- One trace for each derivation counted, in the order of discovery. -/
  witnesses : List Trace
  /-- How many forms were visited, dead ends included. -/
  explored : Nat
deriving DecidableEq

/-- Whether the derivations found prove the word ambiguous. -/
def Derivations.isAmbiguous (found : Derivations) : Bool :=
  ambiguityThreshold ≤ found.count

/-- How the search for one word ended. -/
inductive Outcome where
  | found (derivations : Derivations)
  | aborted (depthLimit : Nat)
deriving DecidableEq

def abortMessage (depthLimit : Nat) : String :=
  s!"search aborted after {depthLimit} derivation steps"

end AmbiguitySearch
