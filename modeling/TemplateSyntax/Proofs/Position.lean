import TemplateSyntax.Proofs.Cursor
import Mathlib.Data.String.Basic

/-!
# Positions and the text before them

The offset of a position counts the bytes passed since the start, its line the line feeds among
them, its column the characters behind the last line feed. A position is one of a text if it is
reached by advancing over as many bytes of the text as its offset says; no other position of the
text has the same offset.
-/
namespace TemplateSyntax
open String (utf8Len)

namespace Text

theorem takeBytes?_append (pre rest : List Char) :
    takeBytes? (utf8Len pre) (pre ++ rest) = some pre := by
  induction pre with
  | nil => cases rest <;> rfl
  | cons c pre ih =>
    have hpos := c.utf8Size_pos
    obtain ⟨n, hn⟩ : ∃ n, utf8Len (c :: pre) = n + 1 :=
      Nat.exists_eq_succ_of_ne_zero (by simp [Nat.ne_of_gt hpos])
    have hlen : utf8Len pre + c.utf8Size = n + 1 := hn
    have hrest : n + 1 - c.utf8Size = utf8Len pre := by omega
    rw [hn, List.cons_append, takeBytes?, if_pos (by omega), hrest, ih]
    rfl

theorem dropBytes?_append (pre rest : List Char) :
    dropBytes? (utf8Len pre) (pre ++ rest) = some rest := by
  induction pre with
  | nil => cases rest <;> rfl
  | cons c pre ih =>
    have hpos := c.utf8Size_pos
    obtain ⟨n, hn⟩ : ∃ n, utf8Len (c :: pre) = n + 1 :=
      Nat.exists_eq_succ_of_ne_zero (by simp [Nat.ne_of_gt hpos])
    have hlen : utf8Len pre + c.utf8Size = n + 1 := hn
    have hrest : n + 1 - c.utf8Size = utf8Len pre := by omega
    rw [hn, List.cons_append, dropBytes?, if_pos (by omega), hrest, ih]

/-- Characters that fill the first bytes of a text stand at its start and have that many bytes. -/
theorem exists_of_takeBytes? {n : Nat} {cs pre : List Char} (h : takeBytes? n cs = some pre) :
    utf8Len pre = n ∧ ∃ rest, cs = pre ++ rest := by
  induction cs generalizing n pre with
  | nil =>
    cases n with
    | zero =>
      cases h
      exact ⟨rfl, [], rfl⟩
    | succ n => cases h
  | cons c cs ih =>
    cases n with
    | zero =>
      cases h
      exact ⟨rfl, c :: cs, rfl⟩
    | succ n =>
      rw [takeBytes?] at h
      split at h
      · next hle =>
        obtain ⟨pre', hpre, rfl⟩ := Option.map_eq_some_iff.mp h
        obtain ⟨hlen, rest, rfl⟩ := ih hpre
        refine ⟨?_, rest, rfl⟩
        rw [String.utf8Len_cons, hlen]
        omega
      · cases h

/-- Of two texts that begin a third one, the one with fewer bytes begins the other. -/
theorem prefix_of_utf8Len_le {xs ys cs : List Char} (hx : xs <+: cs) (hy : ys <+: cs)
    (h : utf8Len xs ≤ utf8Len ys) : xs <+: ys := by
  rcases List.prefix_or_prefix_of_prefix hx hy with hprefix | ⟨t, ht⟩
  · exact hprefix
  · -- The second one cannot be a proper part of the first.
    have hlen : utf8Len xs = utf8Len ys + utf8Len t := by
      rw [← ht, String.utf8Len_append]
    have hnil : t = [] := String.utf8Len_eq_zero.mp (by omega)
    rw [← ht, hnil, List.append_nil]

end Text

namespace Position

theorem offset_advanceBy (p : Position) (cs : List Char) :
    (p.advanceBy cs).offset = p.offset + utf8Len cs := by
  induction cs generalizing p with
  | nil => rfl
  | cons c cs ih =>
    rw [advanceBy_cons, ih, offset_advance, String.utf8Len_cons]
    omega

theorem line_advanceBy (p : Position) (cs : List Char) :
    (p.advanceBy cs).line = p.line + cs.count '\n' := by
  induction cs generalizing p with
  | nil => rfl
  | cons c cs ih =>
    rw [advanceBy_cons, ih, List.count_cons]
    by_cases hc : c = '\n'
    · simp [advance, hc]
      omega
    · simp [advance, hc]

/-- The characters of a text behind its last line feed. -/
def lastLine (cs : List Char) : List Char := (cs.reverse.takeWhile (· ≠ '\n')).reverse

/-- From the beginning of a line on, the column counts the characters of the last line. -/
theorem column_advanceBy {p : Position} (hp : p.column = 0) (cs : List Char) :
    (p.advanceBy cs).column = (lastLine cs).length := by
  induction cs using List.reverseRecOn with
  | nil => simpa [lastLine] using hp
  | append_singleton cs c ih =>
    rw [advanceBy_append, advanceBy_cons, advanceBy_nil]
    by_cases hc : c = '\n'
    · simp [advance, hc, lastLine]
    · simpa [advance, hc, lastLine] using ih

/-- The position is reached by advancing over the bytes of the text that its offset counts. -/
def IsOf (text : String) (p : Position) : Prop :=
  ∃ pre, Text.takeBytes? p.offset text.toList = some pre ∧ p = start.advanceBy pre

variable {text : String} {p q : Position}

theorem isOf_advanceBy {pre rest : List Char} (h : text.toList = pre ++ rest) :
    (start.advanceBy pre).IsOf text := by
  refine ⟨pre, ?_, rfl⟩
  rw [offset_advanceBy, h]
  simpa [start] using Text.takeBytes?_append pre rest

/-- What a position of a text tells about the text before it. -/
theorem IsOf.counts (h : p.IsOf text) :
    ∃ pre rest, text.toList = pre ++ rest ∧ p = start.advanceBy pre ∧ p.offset = utf8Len pre ∧
      p.offset ≤ text.utf8ByteSize ∧ p.line = 1 + pre.count '\n' ∧
      p.column = (lastLine pre).length := by
  obtain ⟨pre, hpre, hp⟩ := h
  obtain ⟨hlen, rest, hrest⟩ := Text.exists_of_takeBytes? hpre
  refine ⟨pre, rest, hrest, hp, hlen.symm, ?_, ?_, ?_⟩
  · rw [← hlen, ← String.utf8Len_toList, hrest, String.utf8Len_append]
    omega
  · rw [hp, line_advanceBy]
    rfl
  · rw [hp, column_advanceBy rfl]

end Position

/-- Wherever reading has come to in a text is a position of the text. -/
theorem Cursor.Reaches.isOf {text : String} {c : Cursor} (h : (ofText text).Reaches c) :
    c.position.IsOf text := by
  obtain ⟨pre, hr, hp⟩ := h
  rw [hp]
  exact Position.isOf_advanceBy hr

end TemplateSyntax
