import TemplateSyntax.Proofs.Levels
import TemplateSyntax.Proofs.Session

/-!
# Readers with a counter

The readers here keep the number of open levels in their state, for as long as a session lasts.
Whatever opens a level adds one, and takes it off again where it ends, be it with a value or with a
fault; when the number has come to the limit, nothing is opened. The counter alone decides, so a
level that is never taken off would be missed by all that is read later. Each turn of the counter is
kept, with what it is made for and with the number that it shows.
-/
namespace TemplateSyntax

/-- What opens a level. -/
inductive Opener where
  | body
  | parentheses
  | arguments
  /-- The right side of an operator. -/
  | rightSide
  /-- The operand of a sign. -/
  | signed
  deriving DecidableEq

/-- A turn of the counter, and what the counter shows then. -/
inductive Turn where
  | opened (what : Opener) (depth : Nat)
  | closed (what : Opener) (depth : Nat)
  | refused (what : Opener) (depth : Nat)
  deriving DecidableEq

/-- A state with the number of open levels, and all turns of the counter so far. -/
structure Counted (σ : Type) where
  state : σ
  depth : Nat := 0
  turns : List Turn := []
  deriving DecidableEq

/-- A computation that counts the levels it opens. -/
abbrev CountM (σ : Type) := EStateM Fault (Counted σ)

/-- What opens no level leaves the counter alone. -/
instance {σ : Type} : MonadLift (EStateM Fault σ) (CountM σ) where
  monadLift m := fun s =>
    match m s.state with
    | .ok a t => .ok a { s with state := t }
    | .error f t => .error f { s with state := t }

/-- A draft and its reader have one counter. -/
instance : MonadLift (CountM Reader) (CountM Draft) where
  monadLift m := fun s =>
    match m ⟨s.state.reader, s.depth, s.turns⟩ with
    | .ok a t => .ok a ⟨{ s.state with reader := t.state }, t.depth, t.turns⟩
    | .error f t => .error f ⟨{ s.state with reader := t.state }, t.depth, t.turns⟩

namespace Counted
open Reader Draft
variable {σ α : Type}

def enter (s : Counted σ) (what : Opener) : Counted σ :=
  { s with depth := s.depth + 1, turns := s.turns ++ [.opened what (s.depth + 1)] }

def leave (s : Counted σ) (what : Opener) : Counted σ :=
  { s with depth := s.depth - 1, turns := s.turns ++ [.closed what (s.depth - 1)] }

def refuse (s : Counted σ) (what : Opener) : Counted σ :=
  { s with turns := s.turns ++ [.refused what s.depth] }

/-- Read something in a level of its own, if the counter has not come to the limit. -/
def nested (limit : Nat) (what : Opener) (span : Span) (m : CountM σ α) : CountM σ α := fun s =>
  if limit ≤ s.depth then .error ⟨.tooDeep, span⟩ (s.refuse what)
  else
    match m (s.enter what) with
    | .ok a t => .ok a (t.leave what)
    | .error f t => .error f (t.leave what)

/-- What can be read in a level of its own. -/
structure Inner where
  operand : CountM Reader Expression
  operation : (stops : List String) → (minimum : Nat) → CountM Reader Expression
  body : (closers : List Keyword) → CountM Draft (Body × Closing)

/-! ## Expressions -/

section Readers
variable (limit : Nat) (inner : Inner)

def nextItem (item : CountM Reader α) (found : List α) :
    CountM Reader (ForInStep (List α)) := do
  if ← atSymbol .closeParen then return .done found
  let x ← item
  unless ← atSymbol .closeParen do
    discard <| expectSymbol .comma
  return .yield (found ++ [x])

def items (item : CountM Reader α) : CountM Reader (List α × Span) := do
  let found ← loop (fun s => s.state.size) (nextItem item) []
  let close ← expectSymbol .closeParen
  return (found, close)

def arguments : CountM Reader (List Expression × Span) := do
  let opening ← expectSymbol .openParen
  nested limit .arguments opening
    (items (inner.operation [Symbol.comma.spelling, Symbol.closeParen.spelling] 0))

def primaryFrom (l : Lexeme) : CountM Reader Expression :=
  match l.token with
  | .number value => return .number value l.span
  | .string raw => Expression.stringValue raw l.span
  | .identifier word => return .name ⟨word, l.span⟩
  | .symbol .openParen => nested limit .parentheses l.span do
    let e ← inner.operation [Symbol.closeParen.spelling] 0
    discard <| expectSymbol .closeParen
    return e
  | _ => throw (.unexpected .operand l)

def primary : CountM Reader Expression := do
  primaryFrom limit inner (← next)

def nextSuffix (e : Expression) : CountM Reader (ForInStep Expression) := do
  if ← atSymbol .dot then
    discard next
    let property ← variableName
    return .yield (.member e property (e.span.combine property.span))
  else if ← atSymbol .openParen then
    let (args, close) ← arguments limit inner
    return .yield (.call e args (e.span.combine close))
  else
    return .done e

def term : CountM Reader Expression := do
  loop (fun s => s.state.size) (nextSuffix limit inner) (← primary limit inner)

def operand : CountM Reader Expression := do
  let l ← peek
  match Expression.sign? l.token with
  | none => term limit inner
  | some op =>
    discard next
    let argument ← nested limit .signed l.span inner.operand
    return .unary ⟨op, l.span⟩ argument (l.span.combine argument.span)

def nextJoint (stops : List String) (minimum : Nat) (left : Expression) :
    CountM Reader (ForInStep Expression) := do
  let l ← peek
  match Expression.joint? stops minimum l.token with
  | none => return .done left
  | some (.filter, _) =>
    discard next
    let filter ← term limit inner
    return .yield (.filter left filter (left.span.combine filter.span))
  | some (.binary op, binding) =>
    discard next
    let right ← nested limit .rightSide l.span (inner.operation stops binding.rightMinimum)
    return .yield (.binary ⟨op, l.span⟩ left right (left.span.combine right.span))

def operation (stops : List String) (minimum : Nat) : CountM Reader Expression := do
  loop (fun s => s.state.size) (nextJoint limit inner stops minimum) (← operand limit inner)

/-- An expression in the level that is open. -/
def read (stops : List String) : CountM Reader Expression := operation limit inner stops 0

/-! ## Tags -/

def lastExpression : CountM Reader Expression := do
  let e ← read limit inner [Symbol.endTag.spelling]
  discard endTag
  return e

def nextFilter (filters : List Expression) : CountM Reader (ForInStep (List Expression)) := do
  if ← atSymbol .bar then
    discard next
    let filter ← term limit inner
    return .yield (filters ++ [filter])
  else
    return .done filters

def placeable (opening : Span) : CountM Reader Statement := do
  let value ← read limit inner [Symbol.bar.spelling, Symbol.endPut.spelling]
  let filters ← loop (fun s => s.state.size) (nextFilter limit inner) []
  let close ← expectSymbol .endPut
  return .put value filters (opening.combine close)

def loopCondition : CountM Reader (Option Expression) := do
  if ← atKeyword .ifWord then
    discard next
    let condition ← read limit inner [Symbol.endTag.spelling]
    return some condition
  else
    return none

def loopHead : CountM Reader (Pattern × Expression × Option Expression) := do
  let target ← pattern
  discard <| expectKeyword .inWord
  let iterable ← read limit inner [Keyword.ifWord.spelling, Symbol.endTag.spelling]
  let condition ← loopCondition limit inner
  discard endTag
  return (target, iterable, condition)

def setTag (opening : Span) : CountM Reader Statement := do
  let target ← pattern
  discard <| expectSymbol .assign
  let value ← read limit inner [Symbol.endTag.spelling]
  let close ← expectSymbol .endTag
  return .assign target value (opening.combine close)

def callArguments : CountM Reader (List Expression) := do
  if ← atSymbol .openParen then
    let (args, _) ← arguments limit inner
    return args
  else
    return []

def callHead : CountM Reader (Identifier × List Expression) := do
  let name ← expectName
  let args ← callArguments limit inner
  discard endTag
  return (name, args)

def parameter : CountM Reader Parameter := do
  let name ← expectName
  if ← atSymbol .assign then
    discard next
    let fallback ← read limit inner [Symbol.comma.spelling, Symbol.closeParen.spelling]
    return ⟨name, some fallback, name.span.combine fallback.span⟩
  else
    return ⟨name, none, name.span.combine name.span⟩

def macroHead : CountM Reader (Identifier × List Parameter) := do
  let name ← expectName
  discard <| expectSymbol .openParen
  let (parameters, _) ← items (parameter limit inner)
  discard endTag
  return (name, parameters)

/-- A body in a level of its own. -/
def body (closers : List Keyword) : CountM Draft (Body × Closing) := do
  nested limit .body (.empty (← position)) (inner.body closers)

def nextArm : List (Arm Statement) × Closing →
    CountM Draft (ForInStep (List (Arm Statement) × Closing))
  | (arms, closing) => do
    if closing.keyword = .elifWord then
      let condition ← lastExpression limit inner
      let (scope, next) ← body limit inner armClosers
      let arm : Arm Statement := ⟨condition, scope.body, ⟨closing.opening.start, next.span.stop⟩⟩
      return .yield (arms ++ [arm], next)
    else
      return .done (arms, closing)

def ifTag (opening : Span) : CountM Draft Statement := do
  let condition ← lastExpression limit inner
  let (first, closing) ← body limit inner armClosers
  let (arms, closing) ← loop (fun s => s.state.size) (nextArm limit inner)
    ([⟨condition, first.body, ⟨opening.start, closing.span.stop⟩⟩], closing)
  if closing.keyword = .elseWord then
    discard endTag
    let boundary := closing.opening.start
    let (scope, last) ← body limit inner [.endIf]
    discard endTag
    let arm : Arm Statement :=
      ⟨.boolean true (.empty boundary), scope.body, ⟨boundary, last.span.stop⟩⟩
    return .cases (arms ++ [arm]) ⟨opening.start, last.span.stop⟩
  else
    discard endTag
    return .cases arms ⟨opening.start, closing.span.stop⟩

def forTag (opening : Span) : CountM Draft Statement := do
  let (target, iterable, condition) ← loopHead limit inner
  let (main, closing) ← body limit inner [.elseWord, .endFor]
  if closing.keyword = .elseWord then
    discard endTag
    let (alternative, last) ← body limit inner [.endFor]
    discard endTag
    return .loop target iterable condition main (some alternative.body)
      ⟨opening.start, last.span.stop⟩
  else
    discard endTag
    return .loop target iterable condition main none ⟨opening.start, closing.span.stop⟩

def callTag (opening : Span) : CountM Draft Statement := do
  let (name, args) ← callHead limit inner
  let (scope, closing) ← body limit inner [.endCall]
  discard endTag
  return .macroCall name args scope ⟨opening.start, closing.span.stop⟩

def filterTag (opening : Span) : CountM Draft Statement := do
  let filter ← lastExpression limit inner
  let (scope, closing) ← body limit inner [.endFilter]
  discard endTag
  return .filterBlock filter scope ⟨opening.start, closing.span.stop⟩

def blockTag (opening : Span) : CountM Draft Statement := do
  let name ← blockHead
  let (scope, _) ← body limit inner [.endBlock]
  let close ← blockEnd name.value
  let span := opening.combine close
  define (.ofBlock ⟨name, scope, span⟩)
  return .blockCall name span

def macroTag (opening : Span) : CountM Draft Unit := do
  let (name, parameters) ← macroHead limit inner
  let (scope, closing) ← body limit inner [.endMacro]
  discard endTag
  define (.ofMacro ⟨name, parameters, scope, ⟨opening.start, closing.span.stop⟩⟩)

def extendsTag : CountM Draft Unit := do
  let target ← lastExpression limit inner
  unless ← setParent target do throw ⟨.secondParent, target.span⟩

def tag (opening : Span) (name : Identifier) : CountM Draft Unit := do
  match Keyword.ofSpelling? name.value with
  | some .ifWord => push (← ifTag limit inner opening)
  | some .forWord => push (← forTag limit inner opening)
  | some .setWord => push (← setTag limit inner opening)
  | some .callWord => push (← callTag limit inner opening)
  | some .filterWord => push (← filterTag limit inner opening)
  | some .blockWord => push (← blockTag limit inner opening)
  | some .macroWord => macroTag limit inner opening
  | some .extendsWord => extendsTag limit inner
  | _ => throw ⟨.unknownTag name.value, name.span⟩

/-! ## Bodies -/

def piece (closers : List Keyword) : CountM Draft (ForInStep (Option Closing)) := do
  match ← opening with
  | none => return .done none
  | some l =>
    match l.token with
    | .symbol .beginPut =>
      push (← placeable limit inner l.span)
      return .yield none
    | .symbol .beginTag =>
      let name ← expectName
      note (.tag name.value name.span)
      match closers.find? (·.spelling = name.value) with
      | some keyword => return .done (some ⟨keyword, l.span, name.span⟩)
      | none =>
        tag limit inner l.span name
        return .yield none
    | _ => throw (.unexpected .opening l)

def content (closers : List Keyword) : CountM Draft (Option Closing) :=
  loop (fun s => s.state.size) (fun _ => piece limit inner closers) none

/-- A body in the level that is open. -/
def openedBody (closers : List Keyword) : CountM Draft (Body × Closing) := do
  openBody
  match ← content limit inner closers with
  | some closing => return (← closeBody closing.opening.start, closing)
  | none => throw ⟨.unclosedBody closers, .empty (← position)⟩

end Readers

/-- What can be read in a level of its own where this many levels can be opened. Where none can be,
the counter has come to the limit, and nothing in another level is ever read. -/
def inner (limit : Nat) : Nat → Inner
  | 0 =>
    ⟨throw ⟨.tooDeep, .empty .start⟩, fun _ _ => throw ⟨.tooDeep, .empty .start⟩,
      fun _ => throw ⟨.tooDeep, .empty .start⟩⟩
  | n + 1 =>
    ⟨operand limit (inner limit n), operation limit (inner limit n),
      openedBody limit (inner limit n)⟩

def readAll (limit : Nat) : CountM Draft Unit := do
  discard <| content limit (inner limit limit) []

end Counted
end TemplateSyntax
