import TemplateSyntax.Proofs.Marks
import TemplateSyntax.Proofs.OrderedReading
import TemplateSyntax.Proofs.Spelling

/-!
# What statements begin and end with

A placeable covers the text between its braces, a tag without a body all of itself, and a statement
with a body the text through the keyword that closes it. A body covers what stands between two tags.
The arms of an `if` overlap: each one ends with the keyword that begins the next.
-/
namespace TemplateSyntax

/-- What the span covers begins and ends like this, and neither is part of the other. -/
def Span.Encloses (text first last : String) (s : Span) : Prop :=
  ∃ inside, s.slice? text = some (first ++ inside ++ last)

/-- Between the two places a tag opens, and its keyword follows: at most blanks stand before it. -/
structure Keyword.BeginsTag (text : String) (k : Keyword) (first last : Position) : Prop where
  opens : k.OpensTagAt text first
  slice : ∃ blanks : String, (∀ b ∈ blanks.toList, Text.isBlank b = true) ∧
    (⟨first, last⟩ : Span).slice? text =
      some (Symbol.beginTag.spelling ++ blanks ++ k.spelling)

/-- The body begins right behind a tag, and ends where the tag opens that closes it, of which the
keyword ends at the given place. -/
structure Scope.BetweenTags (text : String) (k : Keyword) (last : Position) (b : Body) :
    Prop where
  behind : ∃ before,
    (⟨.start, b.span.start⟩ : Span).slice? text = some (before ++ Symbol.endTag.spelling)
  closing : k.BeginsTag text b.span.stop last

/-- Two arms of an `if`, of which the second one begins where the tag opens that ends the first. -/
structure Arm.Overlaps (text : String) (a b : Arm Statement) : Prop where
  tag : ∃ k ∈ [Keyword.elifWord, .elseWord], k.BeginsTag text b.span.start a.span.stop
  body : ∀ s ∈ Statement.nestedInAll a.body, s.span.stop.offset ≤ b.span.start.offset

/-- The arms of an `if` from its start to its end. -/
structure Statement.ArmsCover (text : String) (span : Span) (arms : List (Arm Statement)) :
    Prop where
  first : ∃ a as, arms = a :: as ∧ a.span.start = span.start
  last : ∃ as a, arms = as ++ [a] ∧ a.span.stop = span.stop
  overlap : arms.IsChain (Arm.Overlaps text)

/-- The statement begins and ends as its kind does, and so does the body that it keeps. -/
def Statement.Delimited (text : String) : Statement → Prop
  | .text _ _ => True
  | put _ _ span => span.Encloses text Symbol.beginPut.spelling Symbol.endPut.spelling
  | assign _ _ span | blockCall _ span =>
    span.Encloses text Symbol.beginTag.spelling Symbol.endTag.spelling
  | cases arms span =>
    span.Encloses text Symbol.beginTag.spelling Keyword.endIf.spelling ∧ ArmsCover text span arms
  | loop _ _ _ body none span =>
    span.Encloses text Symbol.beginTag.spelling Keyword.endFor.spelling ∧
      body.BetweenTags text .endFor span.stop
  | loop _ _ _ body (some _) span =>
    span.Encloses text Symbol.beginTag.spelling Keyword.endFor.spelling ∧
      ∃ last, body.BetweenTags text .elseWord last
  | macroCall _ _ body span =>
    span.Encloses text Symbol.beginTag.spelling Keyword.endCall.spelling ∧
      body.BetweenTags text .endCall span.stop
  | filterBlock _ body span =>
    span.Encloses text Symbol.beginTag.spelling Keyword.endFilter.spelling ∧
      body.BetweenTags text .endFilter span.stop

structure Macro.Delimited (text : String) (m : Macro) : Prop where
  span : m.span.Encloses text Symbol.beginTag.spelling Keyword.endMacro.spelling
  body : m.body.BetweenTags text .endMacro m.span.stop

/-- A block covers its last tag to the end, in which its name may be repeated. -/
structure Block.Delimited (text : String) (b : Block) : Prop where
  span : b.span.Encloses text Symbol.beginTag.spelling Symbol.endTag.spelling
  body : ∃ last, b.body.BetweenTags text .endBlock last ∧ ∃ name,
    (⟨last, b.span.stop⟩ : Span).slice? text = some (name ++ Symbol.endTag.spelling)

/-! ## Slices between tokens -/

namespace Cursor
variable {text : String} {b c d e : Cursor} {s : Symbol} {t : Token} {k : Keyword} {span : Span}

/-- What stands between two places is the text that was read from one to the other. -/
theorem Reaches.slice?_of_rest {cs : List Char} (hc : (ofText text).Reaches c) (hd : c.Reaches d)
    (hr : c.rest = cs ++ d.rest) :
    (⟨c.position, d.position⟩ : Span).slice? text = some (String.ofList cs) := by
  obtain ⟨taken, htaken, hp⟩ := hd
  obtain rfl : cs = taken := List.append_cancel_right (hr.symm.trans htaken)
  exact hc.slice?_eq hp hr

/-- How the text goes on up to the end of the next token. -/
theorem exists_rest_of_next (h : c.next true = (.ok ⟨t, span⟩, d)) :
    ∃ blanks taken, c.rest = blanks ++ taken ++ d.rest ∧ (∀ b ∈ blanks, Text.isBlank b = true) ∧
      t.TakenFrom taken ∧ span.stop = d.position := by
  obtain ⟨blanks, taken, hr, hb, -, hf, -⟩ := Reads.exists_first ⟨span, h⟩
  obtain ⟨-, hspan, rfl⟩ := next_eq_ok h
  have htaken := Piece.takenFrom_first (congrArg Piece.token hf)
  rw [hf] at htaken
  dsimp only at hspan
  exact ⟨blanks, taken, by rw [hr, List.append_assoc], hb, htaken, by rw [hspan]; rfl⟩

/-- A symbol where it opens, and a keyword behind it. -/
theorem beginsTag_of_next (hb : (ofText text).Reaches b) (ho : b.Opens .beginTag c)
    (hk : c.next true = (.ok ⟨.identifier k.spelling, span⟩, d)) :
    k.BeginsTag text b.position span.stop where
  opens := ⟨b, c, d, hb, rfl, ho, span, hk⟩
  slice := by
    obtain ⟨blanks, taken, hr, hblank, rfl, hstop⟩ := exists_rest_of_next hk
    obtain ⟨openingSpan, hopening⟩ := ho.2
    have hreaches : b.Reaches d := (reaches_of_next hopening).trans (reaches_of_next hk)
    have hrest : b.rest =
        (Symbol.beginTag.spelling.toList ++ blanks ++ k.spelling.toList) ++ d.rest := by
      rw [ho.rest_eq (.inr rfl), hr]
      simp only [List.append_assoc]
    refine ⟨String.ofList blanks, by simpa using hblank, ?_⟩
    rw [hstop, hb.slice?_of_rest hreaches hrest]
    simp [String.ofList_append, String.append_assoc]

/-- What is read from the symbol that opens it through a token. -/
theorem encloses_of_next {last : String} (hs : s.Opens) (hb : (ofText text).Reaches b)
    (ho : b.Opens s c) (hc : c.Reaches d) (hd : d.next true = (.ok ⟨t, span⟩, e))
    (ht : ∀ taken, t.TakenFrom taken → taken = last.toList) :
    (⟨b.position, span.stop⟩ : Span).Encloses text s.spelling last := by
  obtain ⟨blanks, taken, hr, -, htaken, hstop⟩ := exists_rest_of_next hd
  obtain rfl := ht taken htaken
  obtain ⟨openingSpan, hopening⟩ := ho.2
  have hreaches : b.Reaches e := ((reaches_of_next hopening).trans hc).trans (reaches_of_next hd)
  obtain ⟨inside, hinside, -⟩ := hc
  have hrest : b.rest =
      (s.spelling.toList ++ (inside ++ blanks) ++ last.toList) ++ e.rest := by
    rw [ho.rest_eq hs, hinside, hr]
    simp only [List.append_assoc]
  refine ⟨String.ofList (inside ++ blanks), ?_⟩
  rw [hstop, hb.slice?_of_rest hreaches hrest]
  simp [String.ofList_append, String.append_assoc]

/-- What stands between two places, of which the second one is right behind the end of a tag. -/
theorem exists_slice_of_endTag (hb : (ofText text).Reaches b) (hc : b.Reaches c)
    (h : c.ReadsSymbol .endTag d) : ∃ before,
      (⟨b.position, d.position⟩ : Span).slice? text =
        some (before ++ Symbol.endTag.spelling) := by
  obtain ⟨span, hd⟩ := h
  obtain ⟨blanks, taken, hr, -, rfl, -⟩ := exists_rest_of_next hd
  have hreaches : b.Reaches d := hc.trans (reaches_of_next hd)
  obtain ⟨before, hbefore, -⟩ := hc
  have hrest : b.rest = (before ++ blanks ++ Symbol.endTag.spelling.toList) ++ d.rest := by
    rw [hbefore, hr]
    simp only [List.append_assoc]
  refine ⟨String.ofList (before ++ blanks), ?_⟩
  rw [hb.slice?_of_rest hreaches hrest]
  simp [String.ofList_append, String.append_assoc]

/-! ## The tags around a body -/

/-- Behind the first cursor a symbol opens a tag or a placeable, and the second cursor is right
behind that symbol. -/
def Opened (a : Cursor) (s : Symbol) (opening : Span) (b : Cursor) : Prop :=
  ∃ c, a.Reaches c ∧ c.position = opening.start ∧ s.spelling.toList <+: c.rest ∧
    c.next true = (.ok ⟨.symbol s, opening⟩, b)

/-- Behind the first cursor a tag opens that closes a body, and the second cursor is right behind
its keyword. -/
def Closes (a : Cursor) (closing : Closing) (b : Cursor) : Prop :=
  ∃ c, a.Opened .beginTag closing.opening c ∧
    c.next true = (.ok ⟨.identifier closing.keyword.spelling, closing.span⟩, b)

variable {a o : Cursor} {opening close : Span} {closing : Closing} {u : Symbol}

theorem Opened.reaches (h : a.Opened s opening b) : a.Reaches b := by
  obtain ⟨c, hc, -, -, hb⟩ := h
  exact hc.trans (reaches_of_next hb)

theorem Opened.of_reaches (h : b.Opened s opening c) (ha : a.Reaches b) : a.Opened s opening c := by
  obtain ⟨d, hd, hc⟩ := h
  exact ⟨d, ha.trans hd, hc⟩

theorem Closes.reaches (h : a.Closes closing b) : a.Reaches b := by
  obtain ⟨c, hc, hb⟩ := h
  exact hc.reaches.trans (reaches_of_next hb)

theorem Closes.stop_eq (h : a.Closes closing b) : closing.span.stop = b.position := by
  obtain ⟨c, -, hb⟩ := h
  exact (exists_rest_of_next hb).choose_spec.choose_spec.2.2.2

theorem Closes.opening_le (h : a.Closes closing b) :
    closing.opening.start.offset ≤ b.position.offset := by
  obtain ⟨d, ⟨c, -, hposition, -, hd⟩, hb⟩ := h
  rw [← hposition]
  exact ((reaches_of_next hd).trans (reaches_of_next hb)).offset_le

theorem Closes.le_opening (h : a.Closes closing b) :
    a.position.offset ≤ closing.opening.start.offset := by
  obtain ⟨d, ⟨c, hc, hposition, -, -⟩, -⟩ := h
  rw [← hposition]
  exact hc.offset_le

theorem Closes.beginsTag (ha : (ofText text).Reaches a) (h : a.Closes closing b) :
    closing.keyword.BeginsTag text closing.opening.start closing.span.stop := by
  obtain ⟨d, ⟨c, hc, hposition, hopens, hd⟩, hb⟩ := h
  rw [← hposition]
  exact beginsTag_of_next (ha.trans hc) ⟨hopens, _, hd⟩ hb

/-- What opens with the one tag is closed with the other. -/
theorem Opened.encloses_closing (h : (ofText text).Opened .beginTag opening o) (ho : o.Reaches a)
    (hb : a.Closes closing b) : (⟨opening.start, closing.span.stop⟩ : Span).Encloses text
      Symbol.beginTag.spelling closing.keyword.spelling := by
  obtain ⟨c, hc, hposition, hopens, hnext⟩ := h
  obtain ⟨d, hd, hb⟩ := hb
  rw [← hposition]
  exact encloses_of_next (.inr rfl) hc ⟨hopens, _, hnext⟩ (ho.trans hd.reaches) hb
    fun taken htaken => htaken

/-- What is read through the end of the tag or the placeable. -/
theorem Opened.encloses_close (hs : s.Opens) (h : (ofText text).Opened s opening o)
    (ho : o.Reaches a) (hb : a.next true = (.ok ⟨.symbol u, close⟩, b)) :
    (opening.combine close).Encloses text s.spelling u.spelling ∧
      (opening.combine close).stop = b.position := by
  obtain ⟨c, hc, hposition, hopens, hnext⟩ := h
  obtain ⟨-, hopening, hbefore⟩ := frames_of_next hnext (by simp)
  obtain ⟨hbehind, hclose, -⟩ := frames_of_next hb (by simp)
  have hle := ho.offset_le
  dsimp only at hopening hbefore hbehind hclose
  have hcombine : opening.combine close = ⟨c.position, close.stop⟩ := by
    rw [hposition]
    exact Span.combine_eq (by omega) (by omega)
  obtain ⟨-, -, -, -, -, hstop⟩ := exists_rest_of_next hb
  rw [hcombine]
  exact ⟨encloses_of_next hs hc ⟨hopens, _, hnext⟩ ho hb fun taken htaken => htaken, hstop⟩

end Cursor
end TemplateSyntax
