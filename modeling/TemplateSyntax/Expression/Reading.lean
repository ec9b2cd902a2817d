import TemplateSyntax.Reader

/-!
# Reading expressions

Operands are joined by operators, of which the one that binds tighter is applied first; a filter
binds loosest of all. A sign belongs to the single operand behind it. Whatever opens a level
(parentheses, arguments, the right side of an operator, the operand of a sign) is read by the
readers of the next level, and at the last level there are none.
-/
namespace TemplateSyntax.Expression
open Reader

/-- The readers of one level. -/
structure Level where
  /-- An operand with its signs. -/
  operand : ReadM Expression
  /-- Operands joined by operators of at least the given power, up to one of the given words. -/
  operation : (stops : List String) → (minimum : Nat) → ReadM Expression

/-- The way to the next level, for what opens at a span. -/
abbrev Descent := Span → ReadM Level

/-- What joins two operands. -/
inductive Joint where
  | filter
  | binary (op : Operator)
  deriving DecidableEq

namespace Joint

def ofToken? : Token → Option Joint
  | .symbol .bar => some .filter
  | .symbol s => (Operator.ofSymbol? s).map .binary
  | .identifier word => ((Keyword.ofSpelling? word).bind Operator.ofKeyword?).map .binary
  | _ => none

def binding? : Joint → Option Binding
  | filter => some ⟨1, false⟩
  | binary op => op.binding?

end Joint

/-- The joint that goes on with an operation: the token is no stop, and binds tightly enough. -/
def joint? (stops : List String) (minimum : Nat) (token : Token) : Option (Joint × Binding) :=
  if token.isAnyOf stops then none
  else do
    let joint ← Joint.ofToken? token
    let binding ← joint.binding?
    if minimum ≤ binding.power then some (joint, binding) else none

/-- The sign that a token is before an operand. -/
def sign? : Token → Option Operator
  | .symbol .minus => some .subtract
  | .identifier word => if word = Keyword.notWord.spelling then some .not else none
  | _ => none

/-- The value of a string literal. -/
def stringValue (raw : String) (span : Span) : ReadM Expression :=
  match raw.toList with
  | [] => throw ⟨.unclosedString '"', span⟩
  | quote :: inside =>
    match Text.Quoted.decode quote inside with
    | .ok value => return .string (String.ofList value) span
    | .error (.unknownEscape escaped) => throw ⟨.unknownEscape escaped, span⟩
    | .error .unclosed => throw ⟨.unclosedString quote, span⟩

/-- Arguments in parentheses, with the span of the closing parenthesis. -/
def arguments (deeper : Descent) : ReadM (List Expression × Span) := do
  let opening ← expectSymbol .openParen
  let level ← deeper opening
  items (level.operation [Symbol.comma.spelling, Symbol.closeParen.spelling] 0)

/-- A number, a string, a name, or an expression in parentheses, which has the span of what is
between them. The token that it begins with was taken already. -/
def primaryFrom (deeper : Descent) (l : Lexeme) : ReadM Expression :=
  match l.token with
  | .number value => return .number value l.span
  | .string raw => stringValue raw l.span
  | .identifier word => return .name ⟨word, l.span⟩
  | .symbol .openParen => do
    let level ← deeper l.span
    let inner ← level.operation [Symbol.closeParen.spelling] 0
    discard <| expectSymbol .closeParen
    return inner
  | _ => throw (.unexpected .operand l)

/-- A primary expression. -/
def primary (deeper : Descent) : ReadM Expression := do
  primaryFrom deeper (← next)

/-- One more property or call behind a term. -/
def nextSuffix (deeper : Descent) (e : Expression) : ReadM (ForInStep Expression) := do
  if ← atSymbol .dot then
    discard next
    let property ← variableName
    return .yield (.member e property (e.span.combine property.span))
  else if ← atSymbol .openParen then
    let (args, close) ← arguments deeper
    return .yield (.call e args (e.span.combine close))
  else
    return .done e

/-- A primary expression and the properties and calls behind it. -/
def term (deeper : Descent) : ReadM Expression := do
  loop Reader.size (nextSuffix deeper) (← primary deeper)

/-- A term, or a sign and its operand. -/
def operand (deeper : Descent) : ReadM Expression := do
  let l ← peek
  match sign? l.token with
  | none => term deeper
  | some op =>
    discard next
    let level ← deeper l.span
    let argument ← level.operand
    return .unary ⟨op, l.span⟩ argument (l.span.combine argument.span)

/-- One more operator of at least the given power and what stands on its right. The right side of
an operator holds operators that bind tighter, and equally tight ones if they group from the
right. -/
def nextJoint (deeper : Descent) (stops : List String) (minimum : Nat) (left : Expression) :
    ReadM (ForInStep Expression) := do
  let l ← peek
  match joint? stops minimum l.token with
  | none => return .done left
  | some (.filter, _) =>
    discard next
    let filter ← term deeper
    return .yield (.filter left filter (left.span.combine filter.span))
  | some (.binary op, binding) =>
    discard next
    let level ← deeper l.span
    let right ← level.operation stops binding.rightMinimum
    return .yield (.binary ⟨op, l.span⟩ left right (left.span.combine right.span))

/-- Operands joined by operators of at least the given power. -/
def operation (deeper : Descent) (stops : List String) (minimum : Nat) : ReadM Expression := do
  loop Reader.size (nextJoint deeper stops minimum) (← operand deeper)

/-- The way down when this many levels can still be opened. -/
def descend : Nat → Descent
  | 0, span => throw ⟨.tooDeep, span⟩
  | n + 1, _ => return ⟨operand (descend n), operation (descend n)⟩

/-- Read an expression that may open this many levels. Reading ends before the first of the stops,
and before any token that cannot go on with the expression. -/
def read (levels : Nat) (stops : List String) : ReadM Expression :=
  operation (descend levels) stops 0

/-- Read a filter, which is a single term. -/
def readFilter (levels : Nat) : ReadM Expression :=
  term (descend levels)

end TemplateSyntax.Expression
