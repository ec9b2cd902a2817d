/-!
# Cutting texts by bytes

Offsets count bytes of UTF-8, texts are lists of characters. A cut that would fall inside a
character, or behind the end, is refused.
-/
namespace TemplateSyntax.Text

/-- What follows the first `n` bytes, if a character ends there. -/
def dropBytes? : Nat → List Char → Option (List Char)
  | 0, cs => some cs
  | _ + 1, [] => none
  | n + 1, c :: cs => if c.utf8Size ≤ n + 1 then dropBytes? (n + 1 - c.utf8Size) cs else none

/-- The characters that fill the first `n` bytes, if one ends there. -/
def takeBytes? : Nat → List Char → Option (List Char)
  | 0, _ => some []
  | _ + 1, [] => none
  | n + 1, c :: cs =>
    if c.utf8Size ≤ n + 1 then (takeBytes? (n + 1 - c.utf8Size) cs).map (c :: ·) else none

/-- The text between two byte offsets, if both cut between characters and the first is not
behind the second. -/
def slice? (first last : Nat) (text : String) : Option String :=
  if first ≤ last then
    ((dropBytes? first text.toList).bind (takeBytes? (last - first))).map String.ofList
  else none

end TemplateSyntax.Text
