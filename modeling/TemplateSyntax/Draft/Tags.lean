import TemplateSyntax.Draft
import TemplateSyntax.Expression.Reading

/-!
# Reading tags

Each kind of tag has a reader for what stands behind its keyword, through the end of the tag that
closes it. Bodies are read by a reader that is passed in, which ends behind the keyword of the
closing tag. Statements span from the opening of their first tag; those with a body end with the
keyword that closes it, the others with the end of their tag.
-/
namespace TemplateSyntax.Draft
open Reader

/-- Reads a body until a tag begins with one of the keywords. -/
abbrev BodyReader := (closers : List Keyword) → DraftM (Body × Closing)

/-- The end of a tag. -/
def endTag : ReadM Span := expectSymbol .endTag

/-- An expression that fills the rest of a tag. -/
def lastExpression (levels : Nat) : ReadM Expression := do
  let e ← Expression.read levels [Symbol.endTag.spelling]
  discard endTag
  return e

/-- One more name behind a comma. -/
def nextName : List Variable × Span → ReadM (ForInStep (List Variable × Span))
  | (names, span) => do
    if ← atSymbol .comma then
      discard next
      let name ← variableName
      return .yield (names ++ [name], span.combine name.span)
    else
      return .done (names, span)

/-- One name, or several with commas between them. -/
def pattern : ReadM Pattern := do
  let first ← variableName
  if ← atSymbol .comma then
    let (names, span) ← loop Reader.size nextName ([first], first.span)
    return .unpack names span
  else
    return .single first

/-- One more filter behind a bar. -/
def nextFilter (levels : Nat) (filters : List Expression) :
    ReadM (ForInStep (List Expression)) := do
  if ← atSymbol .bar then
    discard next
    let filter ← Expression.readFilter levels
    return .yield (filters ++ [filter])
  else
    return .done filters

/-- A placeable behind its opening. The filters written in it are a list; only those in parentheses
are part of its expression. -/
def placeable (levels : Nat) (opening : Span) : ReadM Statement := do
  let value ← Expression.read levels [Symbol.bar.spelling, Symbol.endPut.spelling]
  let filters ← loop Reader.size (nextFilter levels) []
  let close ← expectSymbol .endPut
  return .put value filters (opening.combine close)

/-- The words that close an arm. -/
def armClosers : List Keyword := [.elifWord, .elseWord, .endIf]

/-- One more arm behind an `elif`. -/
def nextArm (levels : Nat) (body : BodyReader) :
    List (Arm Statement) × Closing → DraftM (ForInStep (List (Arm Statement) × Closing))
  | (arms, closing) => do
    if closing.keyword = .elifWord then
      let condition ← lastExpression levels
      let (scope, next) ← body armClosers
      let arm : Arm Statement := ⟨condition, scope.body, ⟨closing.opening.start, next.span.stop⟩⟩
      return .yield (arms ++ [arm], next)
    else
      return .done (arms, closing)

/-- Arms in source order. The last one may be an `else`, which starts where the body before it
ends and has the condition `true`. -/
def ifTag (levels : Nat) (body : BodyReader) (opening : Span) : DraftM Statement := do
  let condition ← lastExpression levels
  let (first, closing) ← body armClosers
  let (arms, closing) ← loop Draft.size (nextArm levels body)
    ([⟨condition, first.body, ⟨opening.start, closing.span.stop⟩⟩], closing)
  if closing.keyword = .elseWord then
    discard endTag
    let boundary := closing.opening.start
    let (scope, last) ← body [.endIf]
    discard endTag
    let arm : Arm Statement :=
      ⟨.boolean true (.empty boundary), scope.body, ⟨boundary, last.span.stop⟩⟩
    return .cases (arms ++ [arm]) ⟨opening.start, last.span.stop⟩
  else
    discard endTag
    return .cases arms ⟨opening.start, closing.span.stop⟩

/-- The condition of a loop, if it has one. -/
def loopCondition (levels : Nat) : ReadM (Option Expression) := do
  if ← atKeyword .ifWord then
    discard next
    let condition ← Expression.read levels [Symbol.endTag.spelling]
    return some condition
  else
    return none

/-- The first tag of a loop: a pattern, what to go through, and perhaps a condition. -/
def loopHead (levels : Nat) : ReadM (Pattern × Expression × Option Expression) := do
  let target ← pattern
  discard <| expectKeyword .inWord
  let iterable ← Expression.read levels [Keyword.ifWord.spelling, Symbol.endTag.spelling]
  let condition ← loopCondition levels
  discard endTag
  return (target, iterable, condition)

/-- A loop with its body, and perhaps an alternative. -/
def forTag (levels : Nat) (body : BodyReader) (opening : Span) : DraftM Statement := do
  let (target, iterable, condition) ← loopHead levels
  let (main, closing) ← body [.elseWord, .endFor]
  if closing.keyword = .elseWord then
    discard endTag
    let (alternative, last) ← body [.endFor]
    discard endTag
    return .loop target iterable condition main (some alternative.body)
      ⟨opening.start, last.span.stop⟩
  else
    discard endTag
    return .loop target iterable condition main none ⟨opening.start, closing.span.stop⟩

/-- A pattern and the value that it gets. -/
def setTag (levels : Nat) (opening : Span) : ReadM Statement := do
  let target ← pattern
  discard <| expectSymbol .assign
  let value ← Expression.read levels [Symbol.endTag.spelling]
  let close ← expectSymbol .endTag
  return .assign target value (opening.combine close)

/-- The arguments of a call, if it has any. -/
def callArguments (levels : Nat) : ReadM (List Expression) := do
  if ← atSymbol .openParen then
    let (args, _) ← Expression.arguments (Expression.descend levels)
    return args
  else
    return []

/-- The first tag of a call: the name of a macro, and perhaps arguments. -/
def callHead (levels : Nat) : ReadM (Identifier × List Expression) := do
  let name ← expectName
  let args ← callArguments levels
  discard endTag
  return (name, args)

/-- A call of a macro, and a body for it. -/
def callTag (levels : Nat) (body : BodyReader) (opening : Span) : DraftM Statement := do
  let (name, args) ← callHead levels
  let (scope, closing) ← body [.endCall]
  discard endTag
  return .macroCall name args scope ⟨opening.start, closing.span.stop⟩

/-- A filter and the body that it is applied to. -/
def filterTag (levels : Nat) (body : BodyReader) (opening : Span) : DraftM Statement := do
  let filter ← lastExpression levels
  let (scope, closing) ← body [.endFilter]
  discard endTag
  return .filterBlock filter scope ⟨opening.start, closing.span.stop⟩

/-- The name of a block at its end, which may be left out. -/
def closingName (name : String) : ReadM Unit := do
  let l ← peek
  match l.token with
  | .identifier closing =>
    if closing = name then discard next
    else throw ⟨.wrongBlockName name, l.span⟩
  | _ => return ()

/-- The first tag of a block: its name. -/
def blockHead : ReadM Identifier := do
  let name ← expectName
  discard endTag
  return name

/-- The end of the tag that closes a block, which may repeat the name. -/
def blockEnd (name : String) : ReadM Span := do
  closingName name
  endTag

/-- A block with its body. The definition is kept, and a call of it stands where it was. -/
def blockTag (body : BodyReader) (opening : Span) : DraftM Statement := do
  let name ← blockHead
  let (scope, _) ← body [.endBlock]
  let close ← blockEnd name.value
  let span := opening.combine close
  define (.ofBlock ⟨name, scope, span⟩)
  return .blockCall name span

/-- A parameter of a macro. -/
def parameter (levels : Nat) : ReadM Parameter := do
  let name ← expectName
  if ← atSymbol .assign then
    discard next
    let fallback ← Expression.read levels [Symbol.comma.spelling, Symbol.closeParen.spelling]
    return ⟨name, some fallback, name.span.combine fallback.span⟩
  else
    return ⟨name, none, name.span.combine name.span⟩

/-- The first tag of a macro: its name and its parameters. -/
def macroHead (levels : Nat) : ReadM (Identifier × List Parameter) := do
  let name ← expectName
  discard <| expectSymbol .openParen
  let (parameters, _) ← items (parameter levels)
  discard endTag
  return (name, parameters)

/-- A macro with its body. The definition is kept, and nothing stands where it was. -/
def macroTag (levels : Nat) (body : BodyReader) (opening : Span) : DraftM Unit := do
  let (name, parameters) ← macroHead levels
  let (scope, closing) ← body [.endMacro]
  discard endTag
  define (.ofMacro ⟨name, parameters, scope, ⟨opening.start, closing.span.stop⟩⟩)

/-- The template that is extended. There may be only one. -/
def extendsTag (levels : Nat) : DraftM Unit := do
  let target ← lastExpression levels
  unless ← setParent target do throw ⟨.secondParent, target.span⟩

/-- A tag that closes no body, behind its keyword. -/
def tag (levels : Nat) (body : BodyReader) (opening : Span) (name : Identifier) : DraftM Unit := do
  match Keyword.ofSpelling? name.value with
  | some .ifWord => push (← ifTag levels body opening)
  | some .forWord => push (← forTag levels body opening)
  | some .setWord => push (← setTag levels opening)
  | some .callWord => push (← callTag levels body opening)
  | some .filterWord => push (← filterTag levels body opening)
  | some .blockWord => push (← blockTag body opening)
  | some .macroWord => macroTag levels body opening
  | some .extendsWord => extendsTag levels
  | _ => throw ⟨.unknownTag name.value, name.span⟩

end TemplateSyntax.Draft
