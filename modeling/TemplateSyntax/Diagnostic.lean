import TemplateSyntax.Diagnostic.Picture
import TemplateSyntax.Fault

/-!
# Diagnostics

A diagnostic reports what is wrong with a source: the reason, and as far as they are known the span,
a picture of it, help, and the name of the template. It has a short form of one line and a full form
with the picture.
-/
namespace TemplateSyntax

/-- A report of something wrong. -/
structure Diagnostic where
  reason : String
  span : Option Span := none
  picture : Option Picture := none
  help : Option String := none
  name : Option String := none
  deriving DecidableEq

namespace Diagnostic

/-- A diagnostic of a span of a source, with a picture of it. -/
def pointAt (d : Diagnostic) (source : String) (span : Span) : Diagnostic :=
  { d with span := some span, picture := some (.ofSpan source span) }

/-- Whether two diagnostics report the same. Pictures do not matter. -/
def agrees (d e : Diagnostic) : Bool :=
  d.reason == e.reason && d.span == e.span && d.help == e.help && d.name == e.name

/-- Red on a terminal. -/
def red : String := "\x1b[31m"

/-- The reason, which both forms begin with. -/
def heading (d : Diagnostic) : String := red ++ "error" ++ Picture.plainColor ++ ": " ++ d.reason

/-- The short form: the reason and the place. -/
def short (d : Diagnostic) : String :=
  d.heading ++
    match d.span, d.name with
    | some span, some name => " at " ++ name ++ ":" ++ toString span
    | some span, none => " at " ++ toString span
    | none, _ => ""

/-- The full form: the reason and the picture, or the short form if there is no picture. -/
def full (d : Diagnostic) : String :=
  match d.picture with
  | some picture => d.heading ++ picture.render d.name d.help
  | none => d.short

end Diagnostic

/-- The diagnostic of a fault in a source, for a template that may have a name. -/
def Fault.report (f : Fault) (source : String) (name : Option String) : Diagnostic :=
  Diagnostic.pointAt { reason := f.cause.reason, help := some f.cause.help, name } source f.span

end TemplateSyntax
