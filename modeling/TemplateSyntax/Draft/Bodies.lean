import TemplateSyntax.Draft.Tags

/-!
# Reading bodies

A body is read piece by piece until a tag closes it, or the text ends. Every body opens a level, in
common with the expressions in it.
-/
namespace TemplateSyntax.Draft
open Reader

/-- Read text and the token that opens the placeable or tag behind it. There is none at the end of
the text. -/
def opening : DraftM (Option Lexeme) := do
  readText
  if (← get).reader.cursor.atEnd then return none
  return some (← next)

/-- Read one piece: text and the placeable or tag behind it. The answer tells whether to go on, and
which tag closed the body. -/
def piece (levels : Nat) (body : BodyReader) (closers : List Keyword) :
    DraftM (ForInStep (Option Closing)) := do
  match ← opening with
  | none => return .done none
  | some l =>
    match l.token with
    | .symbol .beginPut =>
      push (← placeable levels l.span)
      return .yield none
    | .symbol .beginTag =>
      let name ← expectName
      note (.tag name.value name.span)
      match closers.find? (·.spelling = name.value) with
      | some keyword => return .done (some ⟨keyword, l.span, name.span⟩)
      | none =>
        tag levels body l.span name
        return .yield none
    | _ => throw (.unexpected .opening l)

/-- Read into the innermost open body until a tag begins with one of the keywords. There is none if
the text ends first. -/
def content (levels : Nat) (body : BodyReader) (closers : List Keyword) : DraftM (Option Closing) :=
  loop Draft.size (fun _ => piece levels body closers) none

/-- Read a body that may open this many levels. It ends where the tag that closes it opens. -/
def body : Nat → BodyReader
  | 0, _ => do throw ⟨.tooDeep, .empty (← position)⟩
  | levels + 1, closers => do
    openBody
    match ← content levels (body levels) closers with
    | some closing => return (← closeBody closing.opening.start, closing)
    | none => throw ⟨.unclosedBody closers, .empty (← position)⟩

/-- Read all that is left into the innermost open body. -/
def readAll : DraftM Unit := do
  discard <| content depthLimit (body depthLimit) []

end TemplateSyntax.Draft
