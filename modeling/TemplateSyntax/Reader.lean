import TemplateSyntax.Cursor
import TemplateSyntax.Expression
import TemplateSyntax.Loop

/-!
# Reading with one token of lookahead

A reader is a cursor that may have read one token ahead. Tokens are taken in the order of the text,
none twice and none left out, and a fault leaves the reader where it was found.
-/
namespace TemplateSyntax

/-- A cursor, and the token before it if that was looked at and not taken yet. -/
structure Reader where
  cursor : Cursor
  peeked : Option Lexeme := none
  /-- How often a token has been read from the cursor. -/
  fetches : Nat := 0
  deriving DecidableEq

/-- A computation that takes tokens and may fail. -/
abbrev ReadM := EStateM Fault Reader

namespace Reader

/-- A bound of the number of tokens left, the end of the source apart. -/
def size (r : Reader) : Nat :=
  r.cursor.rest.length +
    match r.peeked with
    | some l => if l.token = .endOfSource then 0 else 1
    | none => 0

/-- Take the next token. Inside tags strings are always read. -/
def next : ReadM Lexeme := fun r =>
  match r.peeked with
  | some l => .ok l { r with peeked := none }
  | none =>
    match r.cursor.next true with
    | (.ok l, cursor) => .ok l { r with cursor, fetches := r.fetches + 1 }
    | (.error fault, cursor) => .error fault { r with cursor, fetches := r.fetches + 1 }

/-- Look at the next token without taking it. -/
def peek : ReadM Lexeme := do
  let l ← next
  modify fun r => { r with peeked := some l }
  return l

/-- Whether the next token is this symbol. -/
def atSymbol (s : Symbol) : ReadM Bool :=
  return (← peek).token == .symbol s

/-- Whether the next token spells this keyword. -/
def atKeyword (k : Keyword) : ReadM Bool :=
  return (← peek).token == .identifier k.spelling

/-- Take the next token, which has to be this symbol. -/
def expectSymbol (s : Symbol) : ReadM Span := do
  let l ← next
  if l.token = .symbol s then return l.span
  else throw (.unexpected (.symbol s) l)

/-- Take the next token, which has to spell this keyword. -/
def expectKeyword (k : Keyword) : ReadM Span := do
  let l ← next
  if l.token = .identifier k.spelling then return l.span
  else throw (.unexpected (.keyword k) l)

/-- Take the next token, which has to be an identifier. Keywords are identifiers too. -/
def expectName : ReadM Identifier := do
  let l ← next
  match l.token with
  | .identifier name => return ⟨name, l.span⟩
  | _ => throw (.unexpected .name l)

/-- A name that stands for a value. -/
def variableName : ReadM Variable := do
  let name ← expectName
  return ⟨name.value, name.span⟩

/-- One more item and the comma behind it, unless the list ends here. -/
def nextItem {α : Type} (item : ReadM α) (found : List α) : ReadM (ForInStep (List α)) := do
  if ← atSymbol .closeParen then return .done found
  let x ← item
  unless ← atSymbol .closeParen do
    discard <| expectSymbol .comma
  return .yield (found ++ [x])

/-- Items separated by commas, through the parenthesis that closes them, with the span of that
parenthesis. The last item may have a comma behind it too. -/
def items {α : Type} (item : ReadM α) : ReadM (List α × Span) := do
  let found ← loop Reader.size (nextItem item) []
  let close ← expectSymbol .closeParen
  return (found, close)

end Reader
end TemplateSyntax
