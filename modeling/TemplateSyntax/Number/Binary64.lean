/-!
# Binary floating point numbers of 64 bits

The finite numbers of the format that are not negative, each with one significand and exponent.
A quotient is rounded to the nearest of them, and a tie goes to the even significand; what rounds
beyond the largest has no number. All arithmetic is on natural numbers and exact.
-/
namespace TemplateSyntax

/-- The number `significand * 2 ^ exponent`. Unless the exponent is the least, the significand
has all of its 53 bits. -/
structure Binary64 where
  significand : Nat
  exponent : Int
  significand_lt : significand < Nat.pow 2 53
  le_exponent : -1074 ≤ exponent
  exponent_le : exponent ≤ 971
  full : Nat.pow 2 52 ≤ significand ∨ exponent = -1074
  deriving DecidableEq

namespace Binary64

def zero : Binary64 := ⟨0, -1074, by decide, by decide, by decide, .inr rfl⟩

/-- The number with this significand and exponent, if they are of the format. -/
def ofParts? (significand : Nat) (exponent : Int) : Option Binary64 :=
  if h : significand < Nat.pow 2 53 ∧ -1074 ≤ exponent ∧ exponent ≤ 971 ∧
      (Nat.pow 2 52 ≤ significand ∨ exponent = -1074) then
    some ⟨significand, exponent, h.1, h.2.1, h.2.2.1, h.2.2.2⟩
  else none

/-- The integer nearest to a quotient; a half goes to the even one. -/
def roundDiv (n d : Nat) : Nat :=
  if 2 * (n % d) < d || 2 * (n % d) == d && n / d % 2 == 0 then n / d else n / d + 1

/-- Numerator and denominator of a power of a number above zero. -/
def powRatio (base : Nat) (exponent : Int) : Nat × Nat :=
  if 0 ≤ exponent then (Nat.pow base exponent.toNat, 1) else (1, Nat.pow base (-exponent).toNat)

/-- Numerator and denominator of a quotient counted in units of `2 ^ exponent`. -/
def inUnits (num den : Nat) (exponent : Int) : Nat × Nat :=
  let (p, q) := powRatio 2 exponent
  (num * q, den * p)

/-- The exponent at which a quotient above zero has 53 bits before the point, or the least one if
that is greater. -/
def unitExponent (num den : Nat) : Int :=
  let estimate : Int := (Nat.log2 num : Int) - Nat.log2 den - 53
  let (n, d) := inUnits num den estimate
  max (if n < d * Nat.pow 2 53 then estimate else estimate + 1) (-1074)

/-- The number nearest to `num / den`, unless that is too large. -/
def ofRatio? (num den : Nat) : Option Binary64 :=
  if num = 0 then some zero
  else
    let exponent := unitExponent num den
    let (n, d) := inUnits num den exponent
    let significand := roundDiv n d
    if significand = Nat.pow 2 53 then ofParts? (Nat.pow 2 52) (exponent + 1)
    else ofParts? significand exponent

end Binary64
end TemplateSyntax
