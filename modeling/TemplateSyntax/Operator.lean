import TemplateSyntax.Symbol
import TemplateSyntax.Keyword

/-!
# Operators

What an expression may do with its operands, and how tightly each operator between two operands
binds them.
-/
namespace TemplateSyntax

/-- An operation on one or two values. -/
inductive Operator where
  | add | subtract | multiply | divide | modulo | power
  | greater | lesser | equal | notEqual | greaterOrEqual | lesserOrEqual
  | and | or | not
  deriving DecidableEq

/-- How tightly an operator between two operands holds them. -/
structure Binding where
  /-- The higher power is applied first. -/
  power : Nat
  /-- Whether a chain of equal power groups from the right. -/
  fromRight : Bool
  deriving DecidableEq

/-- The least power of the operators on the right side of one that binds like this. -/
def Binding.rightMinimum (b : Binding) : Nat := if b.fromRight then b.power else b.power + 1

namespace Operator

/-- How an operator is written. -/
def spelling : Operator → String
  | add => "+"
  | subtract => "-"
  | multiply => "*"
  | divide => "/"
  | modulo => "%"
  | power => "**"
  | greater => ">"
  | lesser => "<"
  | equal => "=="
  | notEqual => "!="
  | greaterOrEqual => ">="
  | lesserOrEqual => "<="
  | and => "and"
  | or => "or"
  | not => "not"

instance : ToString Operator := ⟨spelling⟩

/-- The operator that a symbol between two operands stands for. -/
def ofSymbol? : Symbol → Option Operator
  | .plus => some add
  | .minus => some subtract
  | .star => some multiply
  | .slash => some divide
  | .percent => some modulo
  | .power => some power
  | .greater => some greater
  | .less => some lesser
  | .equal => some equal
  | .notEqual => some notEqual
  | .atLeast => some greaterOrEqual
  | .atMost => some lesserOrEqual
  | _ => none

/-- The operator that a keyword between two operands stands for. -/
def ofKeyword? : Keyword → Option Operator
  | .andWord => some and
  | .orWord => some or
  | _ => none

/-- How the operator binds two operands; `not` never stands between two. A filter binds more
loosely than all of these. -/
def binding? : Operator → Option Binding
  | or => some ⟨2, false⟩
  | and => some ⟨3, false⟩
  | equal | notEqual | greater | lesser | greaterOrEqual | lesserOrEqual => some ⟨4, false⟩
  | add | subtract => some ⟨5, false⟩
  | multiply | divide | modulo => some ⟨6, false⟩
  | power => some ⟨7, true⟩
  | not => none

/-- A symbol and its operator are written alike. -/
theorem spelling_of_ofSymbol? {s : Symbol} {op : Operator} (h : ofSymbol? s = some op) :
    op.spelling = s.spelling := by
  cases s <;> simp only [ofSymbol?, Option.some.injEq, reduceCtorEq] at h <;> subst h <;> rfl

/-- A keyword and its operator are written alike. -/
theorem spelling_of_ofKeyword? {k : Keyword} {op : Operator} (h : ofKeyword? k = some op) :
    op.spelling = k.spelling := by
  cases k <;> simp only [ofKeyword?, Option.some.injEq, reduceCtorEq] at h <;> subst h <;> rfl

end Operator
end TemplateSyntax
