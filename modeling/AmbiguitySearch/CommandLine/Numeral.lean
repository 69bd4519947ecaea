/-!
# Numbers on the command line

A number is written in decimal digits, with a plus sign before them if one
likes, and has to fit 64 bits. Characters are read from the left, and the first
one that is no digit or makes the number too large decides what is wrong.
-/

namespace AmbiguitySearch.CommandLine

inductive NumeralFault where
  | empty
  | invalidDigit
  | tooLarge
deriving DecidableEq

def NumeralFault.message : NumeralFault → String
  | .empty => "cannot parse integer from empty string"
  | .invalidDigit => "invalid digit found in string"
  | .tooLarge => "number too large to fit in target type"

/-- Reads digits after a number already read. -/
def readDigits : List Char → Nat → Except NumeralFault Nat
  | [], value => .ok value
  | c :: rest, value =>
    if c.isDigit then
      let longer := value * 10 + (c.toNat - '0'.toNat)
      if longer < 2 ^ 64 then readDigits rest longer else .error .tooLarge
    else .error .invalidDigit

/-- Reads a number. A sign alone is none. -/
def readNumber (text : String) : Except NumeralFault Nat :=
  match text.toList with
  | [] => .error .empty
  | ['+'] => .error .invalidDigit
  | '+' :: digits => readDigits digits 0
  | digits => readDigits digits 0

end AmbiguitySearch.CommandLine
