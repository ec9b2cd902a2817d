import TemplateSyntax.Number.Binary64

/-!
# The shortest decimal that reads back

Every decimal in an interval around a binary number is rounded to it. Among these, the ones on the
coarsest grid of powers of ten have the fewest digits; the nearest of them is chosen, and an exact
tie goes to the even last digit.
-/
namespace TemplateSyntax

/-- The number `digits * 10 ^ exponent`. -/
structure Decimal where
  digits : Nat
  exponent : Int
  deriving DecidableEq

namespace Binary64

/-- The lower end of what rounds to a number, in quarters of its last place. Below a power of two
the numbers lie closer together. -/
def lowQuarters (x : Binary64) : Nat :=
  if x.significand = Nat.pow 2 52 ∧ x.exponent ≠ -1074 then 4 * x.significand - 1
  else 4 * x.significand - 2

/-- The upper end of what rounds to a number, in quarters of its last place. -/
def highQuarters (x : Binary64) : Nat := 4 * x.significand + 2

/-- Whether `count * step` rounds to a number whose last place is `4 * quarter`. The ends of the
interval belong to even significands. -/
def readsBack (x : Binary64) (quarter step count : Nat) : Bool :=
  let low := x.lowQuarters * quarter
  let high := x.highQuarters * quarter
  if x.significand % 2 = 0 then low ≤ count * step && count * step ≤ high
  else low < count * step && count * step < high

/-- The multiple of `10 ^ exponent` nearest to a number among those that read back, if any do. It
is one of the two around the number. -/
def onGrid? (x : Binary64) (exponent : Int) : Option Decimal :=
  let (stepNum, stepDen) := powRatio 10 exponent
  let (unitNum, unitDen) := powRatio 2 (x.exponent - 2)
  let step := stepNum * unitDen
  let quarter := unitNum * stepDen
  let value := 4 * x.significand * quarter
  let near := roundDiv value step
  let other := if near = value / step then near + 1 else value / step
  if x.readsBack quarter step near then some ⟨near, exponent⟩
  else if x.readsBack quarter step other then some ⟨other, exponent⟩
  else none

/-- The exponents of the grids that are tried, from the coarsest on. The last grid holds every
number of the format. -/
def gridExponents : List Int := (List.range 1384).map fun (i : Nat) => 309 - (i : Int)

/-- The shortest decimal that rounds to a number above zero, and the nearest of these. -/
def shortest (x : Binary64) : Decimal :=
  (gridExponents.findSome? x.onGrid?).getD ⟨0, 0⟩

end Binary64
end TemplateSyntax
