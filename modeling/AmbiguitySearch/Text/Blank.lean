/-!
# Blank characters

The characters with the Unicode property `White_Space`: the ASCII controls from
tab to carriage return, the space, and the spaces and line ends beyond ASCII.
-/

namespace AmbiguitySearch.Text

/-- The first and the last character of every run of blank characters. -/
def blankRanges : List (Nat × Nat) :=
  [(0x0009, 0x000d), (0x0020, 0x0020), (0x0085, 0x0085), (0x00a0, 0x00a0), (0x1680, 0x1680),
    (0x2000, 0x200a), (0x2028, 0x2029), (0x202f, 0x202f), (0x205f, 0x205f), (0x3000, 0x3000)]

/-- Whether a character separates words. -/
def isBlank (c : Char) : Bool :=
  blankRanges.any fun (first, last) => first ≤ c.toNat && c.toNat ≤ last

end AmbiguitySearch.Text
