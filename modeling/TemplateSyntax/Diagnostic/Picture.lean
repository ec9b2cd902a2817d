import TemplateSyntax.Span
import TemplateSyntax.Text.Width

/-!
# Pictures of source

A picture shows the line of a source in which a span starts, with carets under the part that the
span covers. Lines end with a line feed, and carriage returns at their end are not shown.
-/
namespace TemplateSyntax

namespace Text

/-- What follows the first `n` lines. -/
def dropLines : Nat → List Char → List Char
  | 0, cs => cs
  | n + 1, cs =>
    match cs.dropWhile (· != '\n') with
    | [] => []
    | _ :: rest => dropLines n rest

/-- The line with this index, without the line feed that ends it. It is empty if there is none. -/
def lineAt (n : Nat) (cs : List Char) : List Char := (dropLines n cs).takeWhile (· != '\n')

/-- A line without the carriage returns at its end. -/
def trimReturns (cs : List Char) : List Char := (cs.reverse.dropWhile (· == '\r')).reverse

end Text

/-- A line of a source and the part of it that carets mark. -/
structure Picture where
  /-- Index of the line, from 0. -/
  line : Nat
  /-- Columns before the marked part. -/
  column : Nat
  /-- Columns of the marked part, at least one. -/
  length : Nat
  text : String
  deriving DecidableEq

namespace Picture

/-- The picture of a span. A span that runs on to another line is marked to the end of its first. -/
def ofSpan (source : String) (span : Span) : Picture :=
  let line := span.start.line - 1
  let text := Text.trimReturns (Text.lineAt line source.toList)
  let before := text.take span.start.column
  let marked :=
    if span.stop.line = span.start.line then ((span.slice? source).getD "").toList
    else text.drop before.length
  { line, column := Text.width before, length := max 1 (Text.width marked),
    text := String.ofList text }

/-- Yellow on a terminal. -/
def yellow : String := "\x1b[33m"

/-- The end of colours on a terminal. -/
def plainColor : String := "\x1b[0m"

/-- A character written `n` times. -/
def repeated (n : Nat) (c : Char) : String := String.ofList (List.replicate n c)

/-- A picture as it is printed, with the name of the template, and with help below it. A mark of
fewer than three columns is followed by dashes. -/
def render (p : Picture) (name help : Option String) : String :=
  let number := toString (p.line + 1)
  let margin := repeated number.length ' '
  let carets := repeated p.column ' ' ++ repeated p.length '^'
  let place := (name.getD "?") ++ ":" ++ number ++ ":" ++ toString (p.column + 1)
  "\n " ++ margin ++ "--> " ++ place ++
    "\n " ++ margin ++ " |" ++
    "\n " ++ number ++ " | " ++ p.text ++
    "\n " ++ margin ++ " | " ++ yellow ++ carets ++ plainColor ++ repeated (3 - p.length) '-' ++
    "\n " ++ margin ++ " |\n" ++
    match help with
    | some help => margin ++ " = help: " ++ help ++ "\n"
    | none => ""

end Picture
end TemplateSyntax
