/-
# The generator

A linear congruential generator on 64-bit words: `s ↦ a s + c` modulo `2^64`.
Numbers in `[0, 1)` are made of the 24 highest bits of a word.
-/

import FieldScript.Single.Arithmetic

namespace FieldScript

/-- The state of a generator. -/
structure Lcg where
  state : UInt64
deriving DecidableEq, Inhabited

namespace Lcg

def multiplier : UInt64 := 6364136223846793005

def increment : UInt64 := 1442695040888963407

/-- The next state, which is also the next word. -/
def next (g : Lcg) : Lcg := ⟨g.state * multiplier + increment⟩

/-- A number in `[0, 1)`: the 24 highest bits of the next word over `2^24`, which
are as many times `2^125` units. -/
def unit (g : Lcg) : Single × Lcg :=
  let g := g.next
  (Single.ofRatio false (g.state.toNat >>> 40 <<< 125) 1, g)

/-- A number in `[lo, hi)`.  A range without numbers gives `lo` and leaves the
generator alone; so does `lo` stand in for a result that is rounded up to `hi`. -/
def range (g : Lcg) (lo hi : Single) : Single × Lcg :=
  if lo.lt hi then
    let (u, g) := g.unit
    let x := lo.add ((hi.sub lo).mul u)
    (if x.lt hi then x else lo, g)
  else (lo, g)

end Lcg
end FieldScript
