import TemplateSyntax.Number

/-!
# JSON values

The values that templates are written as. A number is a `Number`, so that an integer and a float of
the same value stay apart.
-/
namespace TemplateSyntax

/-- A JSON value. The fields of an object are in the order that they are written in. -/
inductive Json where
  | null
  | bool (value : Bool)
  | number (value : Number)
  | string (value : String)
  | array (items : List Json)
  | object (fields : List (String × Json))

namespace Json

def ofNat (n : Nat) : Json := number (.integer n)

def ofOption {α : Type} (f : α → Json) : Option α → Json
  | none => null
  | some a => f a

end Json
end TemplateSyntax
