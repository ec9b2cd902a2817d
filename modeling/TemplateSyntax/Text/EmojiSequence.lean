import TemplateSyntax.Text.Ligature

/-!
# Emoji sequences

Several characters can make one emoji of two columns: a base with a skin tone, two regional
indicators, a flag with the tag of a region, and emoji with joiners between them. A text is measured
from its end, so a sequence is read from its last character: `EmojiSequence` is the part of one that
has been read, and `EmojiSequence.extend?` says which characters before it belong to it.
-/
namespace TemplateSyntax.Text

/-- The end of what may be an emoji sequence. -/
inductive EmojiSequence where
  /-- An emoji. -/
  | emoji
  /-- A skin tone. -/
  | modifier
  /-- A regional indicator. -/
  | indicator
  /-- Two or more regional indicators. -/
  | indicators
  /-- A joiner, and behind it an emoji. -/
  | joined
  /-- A keycap with a joiner and an emoji behind it. -/
  | joinedKeycap
  /-- A regional indicator with a joiner and an emoji behind it. -/
  | joinedIndicator
  /-- Two or more regional indicators, an even number or an odd one, with a joiner and an emoji
  behind them. -/
  | joinedIndicators (even : Bool)
  /-- This number of tag letters, and behind them the end of a tag, a joiner and an emoji. -/
  | tagLetters (count : Nat)
  /-- This number of tag digits, and behind them a tag as before. -/
  | tagDigits (count : Nat)
  deriving DecidableEq

/-- Skin tones. -/
def isEmojiModifier (n : Nat) : Bool := 0x1F3FB ≤ n && n ≤ 0x1F3FF

/-- Regional indicators, which make flags in pairs. -/
def isRegionalIndicator (n : Nat) : Bool := 0x1F1E6 ≤ n && n ≤ 0x1F1FF

/-- Letters of a tag. -/
def isTagLetter (n : Nat) : Bool := 0xE0061 ≤ n && n ≤ 0xE007A

/-- Digits of a tag. -/
def isTagDigit (n : Nat) : Bool := 0xE0030 ≤ n && n ≤ 0xE0039

/-- The character that ends a tag. -/
def tagEnd : Nat := 0xE007F

/-- The flag that a tag follows. -/
def tagBase : Nat := 0x1F3F4

/-- The mark that makes a key of a digit. -/
def keycapMark : Nat := 0x20E3

namespace EmojiSequence

/-- The sequence that a character may be the end of, with the columns of the character. -/
def ofCode? (n : Nat) : Option (Int × EmojiSequence) :=
  if isEmojiModifier n then some (2, .modifier)
  else if isRegionalIndicator n then some (1, .indicator)
  else if inRanges n emojiDefaultRanges then some (2, .emoji)
  else none

/-- A character that belongs to the sequence behind it: the columns that it adds, and the sequence
that they are the end of. Regional indicators pair from the left, so each one before a joined emoji
moves all pairs, and the columns that it adds or takes back alternate. -/
def extend? (s : EmojiSequence) (n : Nat) : Option (Int × EmojiSequence) :=
  match s with
  | .emoji => if n = zeroWidthJoiner then some (0, .joined) else none
  | .modifier =>
    if n = zeroWidthJoiner then some (0, .joined)
    else if inRanges n emojiModifierBaseRanges then some (0, .emoji)
    else none
  | .indicator => if isRegionalIndicator n then some (1, .indicators) else none
  | .indicators =>
    if n = zeroWidthJoiner then some (0, .joined)
    else if isRegionalIndicator n then some (1, .indicators)
    else none
  | .joined =>
    if n = keycapMark then some (0, .joinedKeycap)
    else if n = tagEnd then some (0, .tagLetters 0)
    else
      match ofCode? n with
      | some (_, .indicator) => some (1, .joinedIndicator)
      | some (_, start) => some (0, start)
      | none => none
  | .joinedKeycap => none
  | .joinedIndicator =>
    if isRegionalIndicator n then some (-1, .joinedIndicators true) else none
  | .joinedIndicators even =>
    if n = zeroWidthJoiner then some (0, .joined)
    else if isRegionalIndicator n then some (if even then 3 else -1, .joinedIndicators (!even))
    else none
  | .tagLetters count =>
    if isTagLetter n ∧ count < 6 then some (0, .tagLetters (count + 1))
    else if isTagDigit n ∧ count < 5 then some (0, .tagDigits 1)
    else if n = tagBase ∧ 3 ≤ count then some (0, .emoji)
    else none
  | .tagDigits count =>
    if isTagDigit n ∧ count < 3 then some (0, .tagDigits (count + 1))
    else if n = tagBase ∧ count = 3 then some (0, .emoji)
    else none

/-- Whether a joiner and an emoji stand at the front, or a keycap before them. An emoji selector
keeps these in view. -/
def isJoined (s : EmojiSequence) : Bool :=
  match s with
  | .joined | .joinedKeycap => true
  | _ => false

/-- Columns of the end that a character before it may take back. -/
def spare (s : EmojiSequence) : Nat :=
  match s with
  | .joinedIndicator => 1
  | .joinedIndicators even => if even then 0 else 1
  | _ => 0

/-- A character that starts a sequence may give all its columns, and nothing of it is taken back. -/
theorem spare_of_ofCode {s : EmojiSequence} {n : Nat} {w : Int} (h : ofCode? n = some (w, s)) :
    s.spare = 0 ∧ 0 ≤ w := by
  grind [ofCode?, spare]

/-- A character leaves no more to spare than it found and added. -/
theorem spare_of_extend {s s' : EmojiSequence} {n : Nat} {w : Int}
    (h : s.extend? n = some (w, s')) : (s'.spare : Int) ≤ s.spare + w := by
  have := @spare_of_ofCode
  cases s <;> grind [extend?, spare]

end EmojiSequence
end TemplateSyntax.Text
