/-
# Random values

The generator keeps 256 bits of state in four words and is seeded by spreading
one word over them.  A value of a range is drawn by scaling a 32-bit draw to the
range; draws that would make some values likelier than others are rejected and
drawn again.  As the generator has no more than `stateCount` states, rejections
in so many draws repeat for ever.
-/

import BoundsSolver.Width

namespace BoundsSolver

/-- A generator of pseudo-random words. -/
structure Generator where
  s0 : UInt64
  s1 : UInt64
  s2 : UInt64
  s3 : UInt64
  deriving DecidableEq, Repr, Inhabited

namespace Generator

def rotateLeft (x : UInt64) (k : UInt64) : UInt64 := (x <<< k) ||| (x >>> (64 - k))

/-- The next word, and the generator after it. -/
def next (g : Generator) : UInt64 × Generator :=
  let result := rotateLeft (g.s0 + g.s3) 23 + g.s0
  let t := g.s1 <<< 17
  let s2 := g.s2 ^^^ g.s0
  let s3 := g.s3 ^^^ g.s1
  let s1 := g.s1 ^^^ s2
  let s0 := g.s0 ^^^ s3
  (result, ⟨s0, s1, s2 ^^^ t, rotateLeft s3 45⟩)

/-- The next state of the sequence that spreads a seed. -/
def spread (state : UInt64) : UInt64 := state * 6364136223846793005 + 11634580027462260723

/-- The 32 bits that a state of that sequence contributes. -/
def permute (state : UInt64) : UInt64 :=
  let x := (((state >>> 18) ^^^ state) >>> 27) &&& 0xFFFFFFFF
  let turn := state >>> 59
  ((x >>> turn) ||| (x <<< ((32 - turn) &&& 31))) &&& 0xFFFFFFFF

/-- A word of two contributions, the earlier one in the lower half, and the state
after them. -/
def spreadWord (state : UInt64) : UInt64 × UInt64 :=
  let a := spread state
  let b := spread a
  (permute a ||| (permute b <<< 32), b)

/-- The generator for a seed. -/
def ofSeed (seed : UInt64) : Generator :=
  let (s0, a) := spreadWord seed
  let (s1, b) := spreadWord a
  let (s2, c) := spreadWord b
  let (s3, _) := spreadWord c
  ⟨s0, s1, s2, s3⟩

/-- More states than a generator can go through without repeating itself. -/
def stateCount : Nat := 1 <<< 256

/-- The greatest lower half of a scaled draw that is accepted for a range of so
many values. -/
def zone (range : Nat) : Nat := range <<< (31 - range.log2) - 1

/-- A number below `range`, which is positive and below `2 ^ 32`, from the first of
at most `draws` draws that is accepted. -/
def below (range : Nat) : Nat → Generator → Checked (Nat × Generator)
  | 0, _ => .error .endless
  | draws + 1, g =>
    let (word, g) := g.next
    let scaled := (word >>> 32).toNat * range
    if scaled % (1 <<< 32) ≤ zone range then .ok (scaled >>> 32, g) else below range draws g

/-- A value from `lo` to `hi - 1`. -/
def valueIn (lo hi : Int) (g : Generator) : Checked (Int × Generator) :=
  if lo < hi then do
    let (n, g) ← below (hi - lo).toNat stateCount g
    return (lo + n, g)
  else .error .emptyRange

/-- Either truth value with the same probability. -/
def coin (g : Generator) : Bool × Generator :=
  let (word, g) := g.next
  (decide (word.toNat < 1 <<< 63), g)

/-- So many words in order. -/
def words : Nat → Generator → List UInt64
  | 0, _ => []
  | n + 1, g =>
    let (word, g) := g.next
    word :: words n g

end Generator
end BoundsSolver
