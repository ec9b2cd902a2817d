/-!
# Positions in a text

A position counts bytes, lines and characters from the beginning of a text. It is only ever moved
by `advance`, over one character, so a position reached from `start` is determined by the
characters before it.
-/
namespace TemplateSyntax

/-- A place between two characters of a text. -/
structure Position where
  /-- Bytes before the place, in UTF-8. -/
  offset : Nat
  /-- Number of the line, counted from 1. -/
  line : Nat
  /-- Characters before the place on its line. -/
  column : Nat
  deriving DecidableEq

namespace Position

/-- The beginning of any text. -/
def start : Position := ⟨0, 1, 0⟩

/-- The place behind one more character. A line feed ends its line. -/
def advance (p : Position) (c : Char) : Position :=
  if c = '\n' then ⟨p.offset + c.utf8Size, p.line + 1, 0⟩
  else ⟨p.offset + c.utf8Size, p.line, p.column + 1⟩

/-- The place behind all of the given characters. -/
def advanceBy (p : Position) (cs : List Char) : Position :=
  cs.foldl advance p

/-- Positions are shown as line and column, both counted from 1. -/
instance : ToString Position where
  toString p := s!"{p.line}:{p.column + 1}"

@[simp] theorem advanceBy_nil (p : Position) : p.advanceBy [] = p := rfl

@[simp] theorem advanceBy_cons (p : Position) (c : Char) (cs : List Char) :
    p.advanceBy (c :: cs) = (p.advance c).advanceBy cs := rfl

theorem advanceBy_append (p : Position) (cs ds : List Char) :
    p.advanceBy (cs ++ ds) = (p.advanceBy cs).advanceBy ds :=
  List.foldl_append

theorem offset_advance (p : Position) (c : Char) :
    (p.advance c).offset = p.offset + c.utf8Size := by
  unfold advance; split <;> rfl

end Position
end TemplateSyntax
