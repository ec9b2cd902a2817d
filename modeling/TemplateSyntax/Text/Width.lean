import TemplateSyntax.Text.EmojiSequence

/-!
# Display width

The number of columns that a text takes on a terminal. Marks take none and wide characters two;
emoji sequences and the ligatures of some scripts take fewer than their characters. A text is
measured from its end: each character is told what stands behind it. No text has fewer than no
columns (`measure_nonneg`).
-/
namespace TemplateSyntax.Text

/-- What a character may combine with, behind it. -/
inductive Follower where
  | plain
  /-- The end of a ligature, and whether a joiner stands before it. -/
  | ligature (l : Ligature) (joined : Bool)
  /-- The end of an emoji sequence. -/
  | emoji (s : EmojiSequence)
  deriving DecidableEq

namespace Follower

/-- Columns of the follower that a character before it may take back. -/
def spare : Follower → Nat
  | .plain => 0
  | .ligature l _ => l.spare
  | .emoji s => s.spare

/-- Ligatures, which stay in view through the selectors before them. -/
def isLigature : Follower → Bool
  | .ligature _ _ => true
  | _ => false

/-- Joined emoji, which stay in view through the emoji selector before them. -/
def isJoined : Follower → Bool
  | .emoji s => s.isJoined
  | _ => false

/-- The follower that a ligature leaves. -/
def ofLigature? : Option Ligature → Follower
  | some l => .ligature l false
  | none => .plain

/-- A character that belongs to its follower: the columns that it adds, and what the two are for the
character before them. -/
def extend? (f : Follower) (n : Nat) : Option (Int × Follower) :=
  match f with
  | .plain => none
  | .ligature l joined =>
    if l.admits n then some (0, .ligature l (joined || n == zeroWidthJoiner))
    else (l.extend? joined n).map fun (w, l) => (w, ofLigature? l)
  | .emoji s => (s.extend? n).map fun (w, s) => (w, .emoji s)

/-- A character leaves no more to spare than it found and added. -/
theorem spare_of_extend {f f' : Follower} {n : Nat} {w : Int}
    (h : f.extend? n = some (w, f')) : (f'.spare : Int) ≤ f.spare + w := by
  cases f with
  | plain => simp [extend?] at h
  | emoji s =>
    obtain ⟨⟨w, s'⟩, hs, heq⟩ := Option.map_eq_some_iff.1 h
    obtain ⟨rfl, rfl⟩ := Prod.mk.inj heq
    exact EmojiSequence.spare_of_extend hs
  | ligature l joined =>
    rw [extend?] at h
    split at h
    · obtain ⟨rfl, rfl⟩ := Prod.mk.inj (Option.some.inj h)
      simp [spare]
    · obtain ⟨⟨w, l'⟩, hl, heq⟩ := Option.map_eq_some_iff.1 h
      obtain ⟨rfl, rfl⟩ := Prod.mk.inj heq
      cases l' with
      | none => exact Ligature.spare_of_extend_none hl
      | some l' => exact Ligature.spare_of_extend hl

end Follower

/-- What stands behind a character, as far as it bears on the character's width: a follower, and
before it perhaps the selector that asks for an emoji or the one that asks for plain text. -/
structure Context where
  follower : Follower := .plain
  emojiSelector : Bool := false
  textSelector : Bool := false
  deriving DecidableEq

namespace Context

/-- The selector that asks for an emoji stands before what was there. -/
def selectEmoji (c : Context) : Context :=
  if c.follower.isLigature || c.follower.isJoined then { c with emojiSelector := true }
  else { emojiSelector := true }

/-- The selector that asks for plain text stands before what was there. -/
def selectText (c : Context) : Context :=
  if c.follower.isLigature then { c with textSelector := true } else { textSelector := true }

/-- The context of a character of which the emoji selector makes no emoji. The selector then hides
all but ligatures. -/
def dropEmojiSelector (c : Context) : Context :=
  if !c.emojiSelector then c
  else if c.follower.isLigature then { c with emojiSelector := false }
  else {}

theorem spare_selectEmoji (c : Context) : c.selectEmoji.follower.spare ≤ c.follower.spare := by
  grind [selectEmoji, Follower.spare]

theorem spare_selectText (c : Context) : c.selectText.follower.spare ≤ c.follower.spare := by
  grind [selectText, Follower.spare]

theorem spare_dropEmojiSelector (c : Context) :
    c.dropEmojiSelector.follower.spare ≤ c.follower.spare := by
  grind [dropEmojiSelector, Follower.spare]

end Context

/-- Columns of a character that no neighbour changes, and how it is seen from before. Among the
Khmer letters one is drawn as two letters and one as three. -/
def ownWidth (n : Nat) : Int × Follower :=
  match EmojiSequence.ofCode? n, Ligature.ofCode? n with
  | some (w, s), _ => (w, .emoji s)
  | none, some l => (1, .ligature l false)
  | none, none =>
    if n = 0x17D8 then (3, .plain)
    else if n = 0x17A4 then (2, .plain)
    else if inRanges n zeroWidthRanges then (0, .plain)
    else if inRanges n wideRanges then (2, .plain)
    else (1, .plain)

/-- Columns that a character adds to what stands behind it, and the context for the character before
it. Up to the no-break space a line feed adds none and every other character one. -/
def charWidth (c : Char) (behind : Context) : Int × Context :=
  let n := c.toNat
  if behind.emojiSelector && inRanges n emojiSelectorBaseRanges then
    (if behind.follower.isJoined then 0 else 2, { follower := .emoji .emoji })
  else
    let behind := behind.dropEmojiSelector
    if n ≤ 0xA0 then (if c = '\n' then 0 else 1, {})
    else if n = 0xFE0F then (0, behind.selectEmoji)
    else if n = 0xFE0E then (0, behind.selectText)
    else if behind.textSelector && inRanges n textSelectorBaseRanges then (1, {})
    else
      let (w, f) := (behind.follower.extend? n).getD (ownWidth n)
      (w, { follower := f })

/-- Columns of a text, and the context that it makes for a character before it. -/
def measure : List Char → Int × Context
  | [] => (0, {})
  | c :: cs =>
    let (w, behind) := measure cs
    let (own, seen) := charWidth c behind
    (own + w, seen)

/-- Columns that a text takes on a terminal. -/
def width (cs : List Char) : Nat := (measure cs).1.toNat

theorem spare_ownWidth (n : Nat) : ((ownWidth n).2.spare : Int) ≤ (ownWidth n).1 := by
  unfold ownWidth
  split
  · rename_i w s h
    have := EmojiSequence.spare_of_ofCode h
    simp [Follower.spare]
    omega
  · rename_i l _ _
    cases l <;> simp [Follower.spare, Ligature.spare]
  · grind [Follower.spare]

/-- A character leaves no more to spare than it found and added. -/
theorem spare_charWidth (c : Char) (behind : Context) :
    ((charWidth c behind).2.follower.spare : Int) ≤
      behind.follower.spare + (charWidth c behind).1 := by
  unfold charWidth
  extract_lets n ctx
  have hdrop : ctx.follower.spare ≤ behind.follower.spare := behind.spare_dropEmojiSelector
  clear_value ctx
  have hemoji := ctx.spare_selectEmoji
  have htext := ctx.spare_selectText
  split
  · split <;> simp [Follower.spare, EmojiSequence.spare]
    omega
  split
  · split <;> simp [Follower.spare]
    omega
  split
  · simp; omega
  split
  · simp; omega
  split
  · simp [Follower.spare]; omega
  · cases h : ctx.follower.extend? n with
    | none =>
      have := spare_ownWidth n
      simp; omega
    | some r =>
      have : (r.2.spare : Int) ≤ ctx.follower.spare + r.1 := Follower.spare_of_extend h
      simp; omega

/-- The columns that may still be taken back are there. -/
theorem spare_le_measure (cs : List Char) :
    ((measure cs).2.follower.spare : Int) ≤ (measure cs).1 := by
  induction cs with
  | nil => simp [measure, Follower.spare]
  | cons c cs ih =>
    have := spare_charWidth c (measure cs).2
    simp only [measure]
    omega

/-- No text has fewer than no columns. -/
theorem measure_nonneg (cs : List Char) : 0 ≤ (measure cs).1 := by
  have := spare_le_measure cs
  omega

/-- The width is the sum of what the characters add. -/
theorem width_eq_measure (cs : List Char) : (width cs : Int) = (measure cs).1 :=
  Int.toNat_of_nonneg (measure_nonneg cs)

end TemplateSyntax.Text
