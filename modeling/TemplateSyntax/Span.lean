import TemplateSyntax.Position
import TemplateSyntax.Text.Slice

/-!
# Spans

A span is the part of a text between two positions. Every token, syntax node and fault carries the
span that it was read from.
-/
namespace TemplateSyntax

/-- A part of a text, from `start` up to `stop`. -/
structure Span where
  start : Position
  stop : Position
  deriving DecidableEq

namespace Span

/-- The span of no text at a position. -/
def empty (p : Position) : Span := ⟨p, p⟩

/-- Two spans are neighbours when one ends at the byte where the other starts. -/
def isNeighbor (a b : Span) : Bool :=
  a.stop.offset == b.start.offset || b.stop.offset == a.start.offset

/-- The least span around two spans. Where offsets agree, the positions of the first are kept. -/
def combine (a b : Span) : Span where
  start := if b.start.offset < a.start.offset then b.start else a.start
  stop := if a.stop.offset < b.stop.offset then b.stop else a.stop

/-- Number of bytes covered. -/
def length (s : Span) : Nat := s.stop.offset - s.start.offset

/-- Whether no text is covered. -/
def isEmpty (s : Span) : Bool := s.length == 0

/-- The text that a span covers, if its ends cut the text between characters and in order. -/
def slice? (s : Span) (text : String) : Option String :=
  Text.slice? s.start.offset s.stop.offset text

instance : ToString Span where
  toString s := s!"{s.start}-{s.stop}"

end Span
end TemplateSyntax
