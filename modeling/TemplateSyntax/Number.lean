import TemplateSyntax.Number.Shortest

/-!
# Numbers

A number literal is an integer where it can be: written without a point, and below `2 ^ 64`. Any
other literal is a binary floating point number. Both are shown as JSON shows them.
-/
namespace TemplateSyntax

/-- The value of a number literal. -/
inductive Number where
  | integer (value : Nat)
  | float (value : Binary64)
  deriving DecidableEq

namespace Number

/-- The value of a run of decimal digits. -/
def ofDigits (ds : List Char) : Nat :=
  ds.foldl (fun n d => 10 * n + (d.toNat - '0'.toNat)) 0

/-- The value of a literal, of which `fraction` are the digits behind the point if it has one.
There is none if the literal is too large. -/
def ofLiteral? (whole : List Char) : (fraction : Option (List Char)) → Option Number
  | none =>
    let n := ofDigits whole
    if n < Nat.pow 2 64 then some (.integer n) else (Binary64.ofRatio? n 1).map .float
  | some fraction =>
    (Binary64.ofRatio? (ofDigits (whole ++ fraction)) (Nat.pow 10 fraction.length)).map .float

/-- A decimal as JSON shows it: with a point from `1e-5` up to below `1e16`, and with a signed
exponent otherwise. -/
def layout (d : Decimal) : String :=
  let ds := (toString d.digits).toList
  let n : Int := ds.length
  let k := n + d.exponent
  let zeros (count : Int) := List.replicate count.toNat '0'
  if n ≤ k ∧ k ≤ 16 then String.ofList (ds ++ zeros (k - n)) ++ ".0"
  else if 0 < k ∧ k ≤ 16 then
    String.ofList (ds.take k.toNat) ++ "." ++ String.ofList (ds.drop k.toNat)
  else if -5 < k ∧ k ≤ 0 then "0." ++ String.ofList (zeros (-k) ++ ds)
  else
    let tail := ds.drop 1
    let mantissa := ds.take 1 ++ (if tail.isEmpty then [] else '.' :: tail)
    let exponent := if 0 ≤ k - 1 then "+" ++ toString (k - 1) else toString (k - 1)
    String.ofList mantissa ++ "e" ++ exponent

/-- A number as JSON shows it. A float always has a point or an exponent. -/
def text : Number → String
  | integer n => toString n
  | float x => if x.significand = 0 then "0.0" else layout x.shortest

instance : ToString Number := ⟨text⟩

end Number
end TemplateSyntax
