import TemplateSyntax.Text.CodeRanges
import TemplateSyntax.Text.WidthTable

/-!
# Ligatures

Some scripts draw several letters in the columns of fewer. A text is measured from its end, so a
ligature is read from its last letter: `Ligature` is the part of one that has been read, and
`Ligature.extend?` says which characters before it belong to it.
-/
namespace TemplateSyntax.Text

/-- The joiner of zero width, which asks for a ligature or for one emoji of several. -/
def zeroWidthJoiner : Nat := 0x200D

/-- The end of what may be a ligature. -/
inductive Ligature where
  /-- An Arabic letter of the shape of alef. -/
  | alef
  /-- Hebrew lamed. -/
  | lamed
  /-- Buginese ya. -/
  | ya
  /-- The Buginese vowel sign i, joined to a ya. -/
  | vowelYa
  /-- A Khmer letter that can stand below another. -/
  | subscript
  /-- A Tifinagh consonant. -/
  | consonant
  /-- The Tifinagh consonant joiner and a consonant. -/
  | joinerConsonant
  /-- A Lisu tone that can be the second of two. -/
  | tone
  /-- Old Turkic orkhon i. -/
  | orkhonI
  deriving DecidableEq

/-- Arabic letters of the shape of alef. -/
def alefRanges : List (Nat × Nat) :=
  [(0x622, 0x623), (0x625, 0x625), (0x627, 0x627), (0x671, 0x673), (0x675, 0x675), (0x773, 0x774),
   (0x870, 0x882)]

/-- Arabic letters of the shape of lam. -/
def lamRanges : List (Nat × Nat) :=
  [(0x644, 0x644), (0x6B5, 0x6B8), (0x76A, 0x76A), (0x8A6, 0x8A6), (0x8C7, 0x8C7)]

/-- Khmer letters that have a form below another letter. -/
def subscriptRanges : List (Nat × Nat) :=
  [(0x1780, 0x1782), (0x1784, 0x1787), (0x1789, 0x178C), (0x178E, 0x1793), (0x1795, 0x1798),
   (0x179B, 0x179D), (0x17A0, 0x17A0), (0x17A2, 0x17A2), (0x17A7, 0x17A7), (0x17AB, 0x17AC),
   (0x17AF, 0x17AF)]

/-- Tifinagh consonants. -/
def consonantRanges : List (Nat × Nat) := [(0x2D31, 0x2D65), (0x2D6F, 0x2D6F)]

/-- Marks without a picture of their own, which a ligature may hold. -/
def ignorableMarkRanges : List (Nat × Nat) :=
  [(0x34F, 0x34F), (0x17B4, 0x17B5), (0x180B, 0x180D), (0x180F, 0x180F), (0x200D, 0x200D),
   (0xFE00, 0xFE0F), (0xE0100, 0xE01EF)]

namespace Ligature

/-- The ligature that a character may be the end of. Each of these characters takes one column. -/
def ofCode? (n : Nat) : Option Ligature :=
  if inRanges n alefRanges then some .alef
  else if n = 0x5DC then some .lamed
  else if n = 0x1A10 then some .ya
  else if inRanges n subscriptRanges then some .subscript
  else if inRanges n consonantRanges then some .consonant
  else if n = 0xA4FC ∨ n = 0xA4FD then some .tone
  else if n = 0x10C03 then some .orkhonI
  else none

/-- A character that belongs to the ligature behind it: the columns that it adds, fewer than none
where the pair is narrower than its end, and the ligature that the two may be the end of. `joined`
says that a joiner stands between them. -/
def extend? (l : Ligature) (joined : Bool) (n : Nat) : Option (Int × Option Ligature) :=
  match l with
  | .alef => if inRanges n lamRanges then some (0, none) else none
  | .lamed => if joined ∧ n = 0x5D0 then some (0, none) else none
  | .ya => if joined ∧ n = 0x1A17 then some (0, some .vowelYa) else none
  | .vowelYa => if n = 0x1A15 then some (0, none) else none
  | .subscript => if n = 0x17D2 then some (-1, none) else none
  | .consonant =>
    if n = 0x2D7F then some (1, some .joinerConsonant)
    else if joined ∧ inRanges n consonantRanges then some (0, none)
    else none
  | .joinerConsonant => if inRanges n consonantRanges then some (-1, none) else none
  | .tone => if 0xA4F8 ≤ n ∧ n ≤ 0xA4FB then some (0, none) else none
  | .orkhonI => if joined ∧ n = 0x10C32 then some (0, none) else none

/-- A character of no width that may stand between the parts of a ligature. -/
def admits (l : Ligature) (n : Nat) : Bool :=
  match l with
  | .alef => inRanges n zeroWidthRanges && !inRanges n joiningBreakRanges
  | _ => inRanges n ignorableMarkRanges

/-- Columns of the end that a character before it may take back. -/
def spare (l : Ligature) : Nat :=
  match l with
  | .subscript | .joinerConsonant => 1
  | _ => 0

/-- A character leaves no more to spare than it found and added. -/
theorem spare_of_extend {l l' : Ligature} {joined : Bool} {n : Nat} {w : Int}
    (h : l.extend? joined n = some (w, some l')) : (l'.spare : Int) ≤ l.spare + w := by
  cases l <;> grind [extend?, spare]

/-- A character that ends the reading of a ligature takes back no more than there is to spare. -/
theorem spare_of_extend_none {l : Ligature} {joined : Bool} {n : Nat} {w : Int}
    (h : l.extend? joined n = some (w, none)) : 0 ≤ l.spare + w := by
  cases l <;> grind [extend?, spare]

end Ligature
end TemplateSyntax.Text
