import AmbiguitySearch.Grammar.Basic

/-!
# Why a report cannot be written

A report spells symbols, which the grammar has to declare, and sets out
derivations in columns, whose width has to fit 16 bits.
-/

namespace AmbiguitySearch

/-- Why there is no text for what was to be reported. -/
inductive RenderError where
  | outOfRange (miss : OutOfRange)
  /-- A column of a table would be wider than `RenderError.widestColumn`. -/
  | columnTooWide
deriving DecidableEq

namespace RenderError

/-- The width of the widest column that can be filled up with spaces. -/
def widestColumn : Nat := UInt16.size - 1

def message : RenderError → String
  | .outOfRange miss => miss.message
  | .columnTooWide => "Formatting argument out of range"

/-- What was spelled, or the reason why nothing is reported. -/
def ofSpelling {α : Type} (spelled : Except OutOfRange α) : Except RenderError α :=
  spelled.mapError .outOfRange

end RenderError

end AmbiguitySearch
