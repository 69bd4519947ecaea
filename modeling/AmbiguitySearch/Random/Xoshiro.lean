/-!
# The generator xoshiro256**

A seedable generator of 64-bit words, so that a seed reproduces a run on any
machine. The four state words are the first four outputs of SplitMix64 from
the seed. `below` turns words into an index without bias: it scales a 32-bit
draw to the range asked for and rejects the draws that would make some indices
more likely than others.
-/

namespace AmbiguitySearch

structure Xoshiro where
  s₀ : UInt64
  s₁ : UInt64
  s₂ : UInt64
  s₃ : UInt64
deriving DecidableEq

namespace Xoshiro

/-- The bits of a word moved up by `count`, those falling off the top coming in
again at the bottom. -/
def rotateLeft (word count : UInt64) : UInt64 :=
  (word <<< count) ||| (word >>> (64 - count))

/-- The step of SplitMix64's counter: the golden ratio as a 64-bit fraction. -/
def splitMixStep : UInt64 := 0x9e3779b97f4a7c15

/-- The output of SplitMix64 at a value of its counter. -/
def splitMixOutput (counter : UInt64) : UInt64 :=
  let z := counter
  let z := (z ^^^ (z >>> 30)) * 0xbf58476d1ce4e5b9
  let z := (z ^^^ (z >>> 27)) * 0x94d049bb133111eb
  z ^^^ (z >>> 31)

/-- The state that a seed stands for. -/
def ofSeed (seed : UInt64) : Xoshiro where
  s₀ := splitMixOutput (seed + splitMixStep)
  s₁ := splitMixOutput (seed + 2 * splitMixStep)
  s₂ := splitMixOutput (seed + 3 * splitMixStep)
  s₃ := splitMixOutput (seed + 4 * splitMixStep)

def next64 (gen : Xoshiro) : UInt64 × Xoshiro :=
  let output := rotateLeft (gen.s₁ * 5) 7 * 9
  let s₂ := gen.s₂ ^^^ gen.s₀
  let s₃ := gen.s₃ ^^^ gen.s₁
  (output,
    { s₀ := gen.s₀ ^^^ s₃
      s₁ := gen.s₁ ^^^ s₂
      s₂ := s₂ ^^^ (gen.s₁ <<< 17)
      s₃ := rotateLeft s₃ 45 })

/-- Draws a 32-bit word: the high half of a 64-bit one. -/
def next32 (gen : Xoshiro) : UInt32 × Xoshiro :=
  match gen.next64 with
  | (word, gen) => ((word >>> 32).toUInt32, gen)

/-- The largest low half of a product that `below` accepts: the range, scaled
up until its top bit is set, less one. -/
def acceptedLow (range : Nat) : Nat :=
  range <<< (31 - Nat.log2 range) - 1

/-- How many draws `below` rejects at most. At least half of all words are
accepted, so the bound is there to end the definition and not to be met. -/
def rejections : Nat := 1024

/-- A uniform index below `range`, for ranges that fit 32 bits: the high half
of the product of the range and a draw. -/
def below (range : Nat) (positive : 0 < range) (gen : Xoshiro) : Fin range × Xoshiro :=
  draw rejections gen
where
  /-- Draws until a product is accepted or no rejection is left. -/
  draw : Nat → Xoshiro → Fin range × Xoshiro
    | left, gen =>
      match gen.next32 with
      | (word, gen) =>
        let product := word.toNat * range
        let index : Fin range := ⟨product / 2 ^ 32,
          Nat.div_lt_of_lt_mul (Nat.mul_lt_mul_of_pos_right word.toNat_lt positive)⟩
        match left with
        | 0 => (index, gen)
        | left + 1 =>
          if product % 2 ^ 32 ≤ acceptedLow range then (index, gen) else draw left gen

end Xoshiro

end AmbiguitySearch
