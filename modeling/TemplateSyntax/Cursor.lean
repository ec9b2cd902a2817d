import TemplateSyntax.Fault
import TemplateSyntax.Text.Blank
import TemplateSyntax.Text.IdentifierChar
import TemplateSyntax.Text.Quoted

/-!
# Reading tokens

A cursor stands in a text and has all of the text behind it still to read. Each way of reading takes
a run of characters from the start of what is left; the cursor then stands behind that run. Inside
tags, `next` skips blanks and takes the longest run that is a token. Between tags, `text` takes
everything before the next tag or placeable.
-/
namespace TemplateSyntax

/-- What is read from the start of a text: the characters taken, and what they are. -/
structure Piece where
  taken : List Char
  token : Except Cause Token

namespace Piece

/-- A number: digits, and perhaps a point and more digits. -/
def number (cs : List Char) : Piece :=
  let whole := cs.takeWhile Char.isDigit
  let (taken, fraction) := match cs.dropWhile Char.isDigit with
    | '.' :: rest =>
      let fraction := rest.takeWhile Char.isDigit
      (whole ++ '.' :: fraction, some fraction)
    | _ => (whole, none)
  match Number.ofLiteral? whole fraction with
  | some n => ⟨taken, .ok (.number n)⟩
  | none => ⟨taken, .error .numberTooLarge⟩

/-- An identifier that starts with the given character. -/
def identifier (c : Char) (cs : List Char) : Piece :=
  let taken := c :: cs.takeWhile Text.continuesIdentifier
  ⟨taken, .ok (.identifier (String.ofList taken))⟩

/-- A string literal that starts with the given quote. -/
def string (quote : Char) (cs : List Char) : Piece :=
  let taken := quote :: Text.Quoted.scan quote cs
  ⟨taken, .ok (.string (String.ofList taken))⟩

/-- The first token of a text that does not start with a blank. String literals are only read where
`quotes` allows them. -/
def first (quotes : Bool) : List Char → Piece
  | [] => ⟨[], .ok .endOfSource⟩
  | c :: cs =>
    if quotes && Text.Quoted.isQuote c then string c cs
    else if c.isDigit then number (c :: cs)
    else if Text.startsIdentifier c then identifier c cs
    else match Symbol.match? (c :: cs) with
      | some s => ⟨s.spelling.toList, .ok (.symbol s)⟩
      | none => ⟨[c], .error .unexpectedCharacter⟩

end Piece

theorem Piece.taken_number (cs : List Char) :
    (Piece.number cs).taken = match cs.dropWhile Char.isDigit with
      | '.' :: rest => cs.takeWhile Char.isDigit ++ '.' :: rest.takeWhile Char.isDigit
      | _ => cs.takeWhile Char.isDigit := by
  unfold Piece.number
  split <;> (dsimp only; split <;> rfl)

theorem Piece.prefix_number (cs : List Char) : (Piece.number cs).taken <+: cs := by
  have whole : cs.takeWhile Char.isDigit ++ cs.dropWhile Char.isDigit = cs :=
    List.takeWhile_append_dropWhile
  rw [Piece.taken_number]
  split
  next rest h =>
    rw [h] at whole
    have digits : rest.takeWhile Char.isDigit <+: rest := List.takeWhile_prefix _
    have written := (List.prefix_append_right_inj (cs.takeWhile Char.isDigit)).mpr
      ((List.prefix_cons_inj '.').mpr digits)
    rwa [whole] at written
  next => exact List.takeWhile_prefix _

/-- What is read stands at the start of the text. -/
theorem Piece.prefix_first (quotes : Bool) (cs : List Char) :
    (Piece.first quotes cs).taken <+: cs := by
  cases cs with
  | nil => exact List.prefix_rfl
  | cons c cs =>
    simp only [Piece.first]
    split
    · exact (List.prefix_cons_inj c).mpr (Text.Quoted.prefix_scan c cs)
    · split
      · exact Piece.prefix_number _
      · split
        · exact (List.prefix_cons_inj c).mpr (List.takeWhile_prefix _)
        · split
          next s hs => exact Symbol.spelling_prefix_of_match? hs
          next => simp

/-- Whether a tag or a placeable opens at the start of a text. -/
def opensTag (cs : List Char) : Bool :=
  [Symbol.beginPut, Symbol.beginTag].any fun s => s.spelling.toList.isPrefixOf cs

/-- The start of a text, up to where the first tag or placeable opens. -/
def textRun : List Char → List Char
  | [] => []
  | c :: cs => if opensTag (c :: cs) then [] else c :: textRun cs

theorem prefix_textRun (cs : List Char) : textRun cs <+: cs := by
  induction cs with
  | nil => exact List.prefix_rfl
  | cons c cs ih =>
    unfold textRun
    split
    · exact List.nil_prefix
    · exact (List.prefix_cons_inj c).mpr ih

/-- A place in a text and all that stands behind it. -/
structure Cursor where
  position : Position
  rest : List Char
  deriving DecidableEq

namespace Cursor

/-- The cursor at the beginning of a text. -/
def ofText (text : String) : Cursor := ⟨.start, text.toList⟩

/-- Whether nothing is left to read. -/
def atEnd (c : Cursor) : Bool := c.rest.isEmpty

/-- The cursor behind characters that stand next. -/
def past (c : Cursor) (taken : List Char) : Cursor :=
  ⟨c.position.advanceBy taken, c.rest.drop taken.length⟩

/-- The cursor behind all blanks that stand next. -/
def skipBlanks (c : Cursor) : Cursor := c.past (c.rest.takeWhile Text.isBlank)

/-- Read a token. Blanks before it are skipped; characters that are no token are skipped too, and
reported. At the end of the text the token is `endOfSource`, however often it is read. -/
def next (quotes : Bool) (c : Cursor) : Except Fault Lexeme × Cursor :=
  let first := c.skipBlanks
  let piece := Piece.first quotes first.rest
  let last := first.past piece.taken
  let span : Span := ⟨first.position, last.position⟩
  match piece.token with
  | .ok token => (.ok ⟨token, span⟩, last)
  | .error cause => (.error ⟨cause, span⟩, last)

/-- The text before the next tag or placeable, which may be empty, its span, and the cursor behind
it. -/
def takeText (c : Cursor) : String × Span × Cursor :=
  let run := textRun c.rest
  let last := c.past run
  (String.ofList run, ⟨c.position, last.position⟩, last)

/-- Read the text before the next tag or placeable as a token. -/
def text (c : Cursor) : Lexeme × Cursor :=
  let (run, span, last) := c.takeText
  (⟨.text run, span⟩, last)

end Cursor
end TemplateSyntax
