import TemplateSyntax.Cursor
import Mathlib.Tactic

/-!
# Where a cursor comes to

A cursor only moves over characters that stand next, so the rest behind it grows shorter and its
position is the old one advanced over what was passed. Every token but the end of the source takes
at least one character.
-/
namespace TemplateSyntax

namespace Text
variable {p : Char → Bool} {d : Char} {cs rest : List Char}

/-- No run of a class begins with a character that is not of the class. -/
theorem takeWhile_of_head (h : ∀ c ∈ cs.head?, p c = false) : cs.takeWhile p = [] := by
  cases cs with
  | nil => rfl
  | cons c cs => simp [h c rfl]

theorem dropWhile_of_head (h : ∀ c ∈ cs.head?, p c = false) : cs.dropWhile p = cs := by
  cases cs with
  | nil => rfl
  | cons c cs => simp [h c rfl]

/-- What stands before a mark ends with the first mark. -/
theorem takeWhile_append_mark (h : d ∉ cs) (hrest : ∀ c ∈ rest.head?, c = d) :
    (cs ++ rest).takeWhile (· != d) = cs := by
  have hall : ∀ c ∈ cs, (c != d) = true := fun c hc => bne_iff_ne.mpr (ne_of_mem_of_not_mem hc h)
  rw [List.takeWhile_append_of_pos hall, takeWhile_of_head (by simpa using hrest), List.append_nil]

theorem dropWhile_append_mark (h : d ∉ cs) (hrest : ∀ c ∈ rest.head?, c = d) :
    (cs ++ rest).dropWhile (· != d) = rest := by
  have hall : ∀ c ∈ cs, (c != d) = true := fun c hc => bne_iff_ne.mpr (ne_of_mem_of_not_mem hc h)
  rw [List.dropWhile_append_of_pos hall, dropWhile_of_head (by simpa using hrest)]

end Text

namespace Piece

/-- Behind any character there is a token or a fault, and it takes at least that character. -/
theorem taken_first_ne_nil (quotes : Bool) {cs : List Char} (h : cs ≠ []) :
    (first quotes cs).taken ≠ [] := by
  cases cs with
  | nil => exact absurd rfl h
  | cons c cs =>
    simp only [first]
    split
    · simp [string]
    · split
      · next hd =>
        have hw : (c :: cs).takeWhile Char.isDigit ≠ [] := by simp [hd]
        unfold number
        split <;> (dsimp only; split <;> simp [hw])
      · split
        · simp [identifier]
        · split
          · next s _ => exact s.spelling_ne_nil
          · simp

theorem token_first_ne_endOfSource (quotes : Bool) {cs : List Char} (h : cs ≠ []) :
    (first quotes cs).token ≠ .ok .endOfSource := by
  cases cs with
  | nil => exact absurd rfl h
  | cons c cs =>
    simp only [first]
    split
    · simp [string]
    · split
      · unfold number
        split <;> (dsimp only; split <;> simp)
      · split
        · simp [identifier]
        · split <;> simp

end Piece

namespace Cursor

theorem past_of_rest {c : Cursor} {taken rest : List Char} (h : c.rest = taken ++ rest) :
    c.past taken = ⟨c.position.advanceBy taken, rest⟩ := by
  rw [past, h, List.drop_left]

/-- The blanks that stand next are skipped, up to where none stands. -/
theorem skipBlanks_of_rest {c : Cursor} {blanks rest : List Char} (h : c.rest = blanks ++ rest)
    (hblanks : ∀ b ∈ blanks, Text.isBlank b = true) (hrest : rest.takeWhile Text.isBlank = []) :
    c.skipBlanks = c.past blanks := by
  rw [skipBlanks, h, List.takeWhile_append_of_pos hblanks, hrest, List.append_nil]

theorem rest_eq_append_past {c : Cursor} {taken : List Char} (h : taken <+: c.rest) :
    c.rest = taken ++ (c.past taken).rest := by
  obtain ⟨rest, hr⟩ := h
  rw [past, ← hr, List.drop_left]

/-- Reading on from the first cursor can have come to the second. -/
def Reaches (c d : Cursor) : Prop :=
  ∃ taken, c.rest = taken ++ d.rest ∧ d.position = c.position.advanceBy taken

namespace Reaches
variable {c d e : Cursor}

theorem refl (c : Cursor) : c.Reaches c := ⟨[], rfl, rfl⟩

theorem trans (hcd : c.Reaches d) (hde : d.Reaches e) : c.Reaches e := by
  obtain ⟨xs, hx, hp⟩ := hcd
  obtain ⟨ys, hy, hq⟩ := hde
  refine ⟨xs ++ ys, ?_, ?_⟩
  · rw [hx, hy, List.append_assoc]
  · rw [hq, hp, Position.advanceBy_append]

theorem past {taken : List Char} (h : taken <+: c.rest) : c.Reaches (c.past taken) :=
  ⟨taken, rest_eq_append_past h, rfl⟩

theorem length_le (h : c.Reaches d) : d.rest.length ≤ c.rest.length := by
  obtain ⟨taken, hr, _⟩ := h
  simp [hr]

theorem rest_eq_nil (h : c.Reaches d) (hc : c.rest = []) : d.rest = [] := by
  obtain ⟨taken, hr, _⟩ := h
  rw [hc] at hr
  exact (List.append_eq_nil_iff.mp hr.symm).2

end Reaches

theorem reaches_skipBlanks (c : Cursor) : c.Reaches c.skipBlanks :=
  .past (List.takeWhile_prefix _)

/-- The piece that the next token is read from. -/
def nextPiece (quotes : Bool) (c : Cursor) : Piece := Piece.first quotes c.skipBlanks.rest

/-- The place behind the next token, whether it is read or at fault. -/
def behindNext (quotes : Bool) (c : Cursor) : Cursor :=
  c.skipBlanks.past (c.nextPiece quotes).taken

/-- Where the next token stands. -/
def nextSpan (quotes : Bool) (c : Cursor) : Span :=
  ⟨c.skipBlanks.position, (c.behindNext quotes).position⟩

theorem next_eq (quotes : Bool) (c : Cursor) :
    c.next quotes = match (c.nextPiece quotes).token with
      | .ok token => (.ok ⟨token, c.nextSpan quotes⟩, c.behindNext quotes)
      | .error cause => (.error ⟨cause, c.nextSpan quotes⟩, c.behindNext quotes) := rfl

@[simp] theorem next_snd (quotes : Bool) (c : Cursor) :
    (c.next quotes).2 = c.behindNext quotes := by
  rw [next_eq]
  split <;> rfl

/-- A token that is read has its span, and the cursor then stands behind it. -/
theorem next_eq_ok {quotes : Bool} {c d : Cursor} {l : Lexeme} (h : c.next quotes = (.ok l, d)) :
    (c.nextPiece quotes).token = .ok l.token ∧ l.span = c.nextSpan quotes ∧
      d = c.behindNext quotes := by
  rw [next_eq] at h
  split at h
  · next token ht =>
    obtain ⟨hl, hd⟩ := Prod.mk.inj h
    obtain rfl := Except.ok.inj hl
    exact ⟨ht, rfl, hd.symm⟩
  · exact absurd (congrArg Prod.fst h) (by simp)

theorem next_eq_error {quotes : Bool} {c d : Cursor} {f : Fault}
    (h : c.next quotes = (.error f, d)) :
    (c.nextPiece quotes).token = .error f.cause ∧ f.span = c.nextSpan quotes ∧
      d = c.behindNext quotes := by
  rw [next_eq] at h
  split at h
  · exact absurd (congrArg Prod.fst h) (by simp)
  · next cause ht =>
    obtain ⟨hl, hd⟩ := Prod.mk.inj h
    obtain rfl := Except.error.inj hl
    exact ⟨ht, rfl, hd.symm⟩

theorem skipBlanks_reaches_behindNext (quotes : Bool) (c : Cursor) :
    c.skipBlanks.Reaches (c.behindNext quotes) := .past (Piece.prefix_first _ _)

theorem reaches_behindNext (quotes : Bool) (c : Cursor) : c.Reaches (c.behindNext quotes) :=
  c.reaches_skipBlanks.trans (c.skipBlanks_reaches_behindNext quotes)

/-- The rest behind blanks is the next piece and the rest behind that. -/
theorem skipBlanks_rest_eq (quotes : Bool) (c : Cursor) :
    c.skipBlanks.rest = (c.nextPiece quotes).taken ++ (c.behindNext quotes).rest :=
  rest_eq_append_past (Piece.prefix_first _ _)

theorem nextPiece_eq_endOfSource_iff {quotes : Bool} {c : Cursor} :
    (c.nextPiece quotes).token = .ok .endOfSource ↔ c.skipBlanks.rest = [] := by
  constructor
  · intro h
    by_contra hr
    exact Piece.token_first_ne_endOfSource quotes hr h
  · intro h
    simp [nextPiece, h, Piece.first]

/-- At the end of a text the next token is the end of the source, however often it is taken. -/
theorem next_of_rest_eq_nil {c : Cursor} (h : c.rest = []) (quotes : Bool) :
    c.next quotes = (.ok ⟨.endOfSource, .empty c.position⟩, c) := by
  obtain ⟨p, rest⟩ := c
  cases h
  rfl

/-- Unless it is the end of the source, the next token takes a character. -/
theorem length_behindNext_lt {quotes : Bool} {c : Cursor}
    (h : (c.nextPiece quotes).token ≠ .ok .endOfSource) :
    (c.behindNext quotes).rest.length < c.skipBlanks.rest.length := by
  have hr : c.skipBlanks.rest ≠ [] := fun hr => h (nextPiece_eq_endOfSource_iff.mpr hr)
  have ht : (c.nextPiece quotes).taken ≠ [] := Piece.taken_first_ne_nil quotes hr
  have hpos := List.length_pos_iff.mpr ht
  rw [c.skipBlanks_rest_eq quotes, List.length_append]
  omega

/-- The place behind the text that stands next. -/
def behindText (c : Cursor) : Cursor := c.past (textRun c.rest)

theorem reaches_behindText (c : Cursor) : c.Reaches c.behindText := .past (prefix_textRun _)

theorem rest_eq_textRun_append (c : Cursor) : c.rest = textRun c.rest ++ c.behindText.rest :=
  rest_eq_append_past (prefix_textRun _)

end Cursor

/-- A run of text ends where a tag or placeable opens, or with the text. -/
theorem textRun_stop {cs run rest : List Char} (h : cs = run ++ rest) (hr : textRun cs = run) :
    rest = [] ∨ opensTag rest = true := by
  induction cs generalizing run with
  | nil => exact .inl (List.append_eq_nil_iff.mp h.symm).2
  | cons c cs ih =>
    unfold textRun at hr
    split at hr
    · next ho =>
      subst hr
      rw [List.nil_append] at h
      exact .inr (h ▸ ho)
    · subst hr
      exact ih (List.cons.inj h).2 rfl

theorem Cursor.behindText_rest (c : Cursor) :
    c.behindText.rest = [] ∨ opensTag c.behindText.rest = true :=
  textRun_stop c.rest_eq_textRun_append rfl

end TemplateSyntax
