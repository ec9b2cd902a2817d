import TemplateSyntax.Proofs.FloatLayout
import TemplateSyntax.Proofs.LongestLexeme
import TemplateSyntax.Proofs.NearestFloat
import Mathlib.Data.Nat.Digits.Defs

/-!
# What number literals are read as

A literal stands for a number exactly, however many digits it has. It is read as the integer of that
value if it has no point and the value is below `2 ^ 64`, and otherwise as the nearest float. It is
too large if that float would be beyond the greatest one.
-/
namespace TemplateSyntax

namespace Number

/-- A decimal literal: digits, and perhaps a point and more digits or none. -/
structure Literal where
  whole : List Char
  /-- The digits behind the point, if there is one. -/
  fraction : Option (List Char)
  whole_ne_nil : whole ≠ []
  isDigit_whole : ∀ d ∈ whole, d.isDigit = true
  isDigit_fraction : ∀ ds ∈ fraction, ∀ d ∈ ds, d.isDigit = true

def digitValue (d : Char) : Nat := d.toNat - '0'.toNat

theorem ofDigits_eq (ds : List Char) :
    ofDigits ds = Nat.ofDigits 10 (ds.map digitValue).reverse := by
  induction ds using List.reverseRecOn with
  | nil => rfl
  | append_singleton ds d ih =>
    have hdigit : ofDigits [d] = digitValue d := by simp [ofDigits, digitValue]
    rw [Decimal.ofDigits_append, hdigit, List.map_append, List.reverse_append, List.map_singleton,
      List.reverse_singleton, List.singleton_append, Nat.ofDigits_cons, ← ih, List.length_singleton]
    omega

/-- Digits behind a point have their values at tenths, hundredths and so on. -/
theorem ofDigits_div (ds : List Char) :
    (ofDigits ds : ℚ) / 10 ^ ds.length = Nat.ofDigits (1 / 10 : ℚ) (0 :: ds.map digitValue) := by
  rw [Nat.ofDigits, Nat.cast_zero, zero_add]
  induction ds with
  | nil => simp [ofDigits, Nat.ofDigits]
  | cons d ds ih =>
    have hdigit : ofDigits (d :: ds) = 10 ^ ds.length * digitValue d + ofDigits ds := by
      rw [← List.singleton_append, Decimal.ofDigits_append]
      simp [ofDigits, digitValue]
    rw [List.map_cons, Nat.ofDigits, ← ih, hdigit, List.length_cons]
    push_cast
    field_simp
    ring

namespace Literal
variable (l : Literal) {rest : List Char}

def chars : List Char :=
  l.whole ++ match l.fraction with
    | none => []
    | some ds => '.' :: ds

/-- The number that a literal stands for, by the places of its digits. -/
def value : ℚ :=
  (Nat.ofDigits 10 (l.whole.map digitValue).reverse : Nat) +
    Nat.ofDigits (1 / 10 : ℚ) (0 :: (l.fraction.getD []).map digitValue)

/-- What stands behind a literal does not go on with it. -/
structure EndsBefore (rest : List Char) : Prop where
  isDigit_head : ∀ d ∈ rest.head?, d.isDigit = false
  head_ne : l.fraction = none → '.' ∉ rest.head?

theorem value_eq_of_none (h : l.fraction = none) : l.value = ofDigits l.whole := by
  rw [value, h, ofDigits_eq]
  simp [Nat.ofDigits]

theorem value_eq_of_some {ds : List Char} (h : l.fraction = some ds) :
    l.value = (ofDigits (l.whole ++ ds) : Nat) / ((10 ^ ds.length : Nat) : ℚ) := by
  rw [value, h, Option.getD_some, ← ofDigits_div, ← ofDigits_eq, Decimal.ofDigits_append]
  push_cast
  field_simp

/-- Without a point and below `2 ^ 64` it is an integer. -/
theorem ofLiteral?_integer (h : l.fraction = none) (hlt : l.value < 2 ^ 64) :
    ofLiteral? l.whole l.fraction = some (.integer (ofDigits l.whole)) := by
  rw [l.value_eq_of_none h] at hlt
  have hn : ofDigits l.whole < Nat.pow 2 64 := by
    show ofDigits l.whole < 2 ^ 64
    exact_mod_cast hlt
  rw [h, ofLiteral?, if_pos hn]

/-- Otherwise it is a float. -/
theorem ofLiteral?_float (h : l.fraction = none → 2 ^ 64 ≤ l.value) :
    ∃ num den : Nat, 0 < den ∧ (num / den : ℚ) = l.value ∧
      ofLiteral? l.whole l.fraction = (Binary64.ofRatio? num den).map .float := by
  cases hfraction : l.fraction with
  | none =>
    have hle := h hfraction
    rw [l.value_eq_of_none hfraction] at hle ⊢
    have hn : ¬ ofDigits l.whole < Nat.pow 2 64 := by
      rw [not_lt]
      show 2 ^ 64 ≤ ofDigits l.whole
      exact_mod_cast hle
    exact ⟨ofDigits l.whole, 1, one_pos, by simp, if_neg hn⟩
  | some ds =>
    exact ⟨_, _, Nat.pow_pos (by decide), (l.value_eq_of_some hfraction).symm, rfl⟩

theorem exists_ofLiteral?_eq (h : l.fraction = none → 2 ^ 64 ≤ l.value)
    (hlt : l.value < Binary64.overflowBound) :
    ∃ x, Binary64.IsNearest l.value x ∧ ofLiteral? l.whole l.fraction = some (.float x) := by
  obtain ⟨num, den, hden, hvalue, hliteral⟩ := l.ofLiteral?_float h
  rw [hliteral]
  rw [← hvalue] at hlt ⊢
  cases hratio : Binary64.ofRatio? num den with
  | none => exact absurd hlt (not_lt.mpr ((Binary64.ofRatio?_eq_none_iff hden).mp hratio))
  | some x => exact ⟨x, ((Binary64.ofRatio?_eq_some_iff hden).mp hratio).isNearest, rfl⟩

theorem ofLiteral?_eq_none_iff :
    ofLiteral? l.whole l.fraction = none ↔ Binary64.overflowBound ≤ l.value := by
  by_cases h : l.fraction = none ∧ l.value < 2 ^ 64
  · rw [l.ofLiteral?_integer h.1 h.2]
    simpa using h.2.trans Binary64.two_pow_lt_overflowBound
  · obtain ⟨num, den, hden, hvalue, hliteral⟩ := l.ofLiteral?_float (by simpa using h)
    rw [hliteral, Option.map_eq_none_iff, Binary64.ofRatio?_eq_none_iff hden, hvalue]

theorem isLexeme (quotes : Bool) (behind : List Char) :
    IsLexeme quotes l.chars behind (reading (ofLiteral? l.whole l.fraction)) := by
  unfold chars
  cases hfraction : l.fraction with
  | none =>
    rw [List.append_nil]
    exact .integer l.whole_ne_nil l.isDigit_whole behind
  | some ds =>
    exact .decimal l.whole_ne_nil l.isDigit_whole (l.isDigit_fraction ds hfraction) behind

theorem number_append {l : Literal} (h : l.EndsBefore rest) :
    Piece.number (l.chars ++ rest) = Piece.number l.chars := by
  have hrest : rest.takeWhile Char.isDigit = [] := Text.takeWhile_of_head h.isDigit_head
  unfold chars
  cases hfraction : l.fraction with
  | none =>
    rw [List.append_nil]
    exact Piece.number_append_of_digits l.isDigit_whole hrest (h.head_ne hfraction)
  | some ds =>
    rw [List.append_assoc, List.cons_append]
    exact Piece.number_append_of_point l.isDigit_whole (l.isDigit_fraction ds hfraction) hrest

theorem isLiteral : IsLiteral l.chars := by
  refine ⟨l.whole, l.whole_ne_nil, l.isDigit_whole, ?_⟩
  unfold chars
  cases hfraction : l.fraction with
  | none => exact .inl (List.append_nil _)
  | some ds => exact .inr ⟨ds, l.isDigit_fraction ds hfraction, rfl⟩

/-- A literal is read whole, and nothing behind it. -/
theorem first_append {l : Literal} (h : l.EndsBefore rest) (quotes : Bool) :
    Piece.first quotes (l.chars ++ rest) = ⟨l.chars, reading (ofLiteral? l.whole l.fraction)⟩ := by
  have hleast := Piece.atLeast_of_isLexeme (l.isLexeme quotes rest)
  have hprefix : (Piece.first quotes (l.chars ++ rest)).taken <+: l.chars := by
    obtain ⟨d, ds, hchars, hd⟩ := l.isLiteral.exists_cons
    have hnumber := number_append h
    rw [hchars] at hnumber ⊢
    rw [List.cons_append, Piece.first_of_isDigit hd, ← List.cons_append, hnumber]
    exact Piece.prefix_number _
  have htaken := hprefix.eq_of_length_le hleast.length_le
  rw [← hleast.token_eq htaken]
  exact congrArg (Piece.mk · _) htaken

end Literal
end Number

namespace Cursor
variable {quotes : Bool} {c : Cursor} {blanks rest : List Char} {l : Number.Literal}

theorem next_of_literal (hrest : c.rest = blanks ++ (l.chars ++ rest))
    (hblanks : ∀ b ∈ blanks, Text.isBlank b = true) (h : l.EndsBefore rest) :
    let start := c.position.advanceBy blanks
    let span : Span := ⟨start, start.advanceBy l.chars⟩
    c.next quotes =
      (outcome span (Number.reading (Number.ofLiteral? l.whole l.fraction)),
        ⟨span.stop, rest⟩) := by
  intro start span
  have hstart : ∀ b, (l.chars ++ rest).head? = some b → Text.isBlank b = false := by
    obtain ⟨d, ds, hchars, hd⟩ := l.isLiteral.exists_cons
    rw [hchars]
    rintro b ⟨⟩
    by_contra hblank
    have hdigit :=
      Text.forall_isBlank (p := fun c => !c.isDigit) (by decide) (by simpa using hblank)
    simp [hd] at hdigit
  have hskip : c.skipBlanks = ⟨start, l.chars ++ rest⟩ := skipBlanks_eq hrest hblanks hstart
  have hfirst := Number.Literal.first_append h quotes
  rw [next_eq_outcome, nextSpan, behindNext, nextPiece, hskip, hfirst]
  simp [past, span]

end Cursor

open Binary64 in
/-- A number literal is read whole, wherever it stands, and has the right kind and value. -/
theorem next_reads_number_literal (l : Number.Literal) (quotes : Bool) (c : Cursor)
    (blanks rest : List Char) (hrest : c.rest = blanks ++ (l.chars ++ rest))
    (hblanks : ∀ b ∈ blanks, Text.isBlank b = true) (h : l.EndsBefore rest) :
    let start := c.position.advanceBy blanks
    let span : Span := ⟨start, start.advanceBy l.chars⟩
    let behind : Cursor := ⟨span.stop, rest⟩
    (l.fraction = none → l.value < 2 ^ 64 →
      ∃ n : Nat, n = l.value ∧ c.next quotes = (.ok ⟨.number (.integer n), span⟩, behind)) ∧
    (¬ (l.fraction = none ∧ l.value < 2 ^ 64) → l.value < overflowBound →
      ∃ x, IsNearest l.value x ∧ (∀ y, IsNearest l.value y → y = x) ∧
        c.next quotes = (.ok ⟨.number (.float x), span⟩, behind)) ∧
    ((∃ fault, (c.next quotes).1 = .error fault) ↔ overflowBound ≤ l.value) ∧
    ∀ fault d, c.next quotes = (.error fault, d) →
      fault.cause.reason = "invalid syntax" ∧ fault.span = span ∧ d = behind := by
  intro start span behind
  rw [Cursor.next_of_literal hrest hblanks h]
  refine ⟨?integer, ?float, ?fails, ?fault⟩
  case integer =>
    intro hfraction hlt
    rw [l.ofLiteral?_integer hfraction hlt]
    exact ⟨_, (l.value_eq_of_none hfraction).symm, rfl⟩
  case float =>
    intro hkind hlt
    obtain ⟨x, hx, hliteral⟩ := l.exists_ofLiteral?_eq (by simpa using hkind) hlt
    rw [hliteral]
    exact ⟨x, hx, fun y hy => hy.unique hx, rfl⟩
  case fails =>
    rw [← l.ofLiteral?_eq_none_iff]
    cases Number.ofLiteral? l.whole l.fraction <;> simp [Number.reading, Cursor.outcome]
  case fault =>
    intro fault d hfault
    cases hliteral : Number.ofLiteral? l.whole l.fraction with
    | some n =>
      rw [hliteral] at hfault
      cases hfault
    | none =>
      rw [hliteral] at hfault
      cases hfault
      exact ⟨rfl, rfl, rfl⟩

open Binary64 in
/-- One and a half behind a blank and before an operator. -/
theorem next_reads_number_literal_three_halves :
    let c : Cursor := ⟨.start, [' ', '1', '.', '5', '+']⟩
    ∃ l : Number.Literal, l.chars = ['1', '.', '5'] ∧ l.value = 3 / 2 ∧ l.EndsBefore ['+'] ∧
      ∃ x, IsNearest (3 / 2) x ∧ (∀ y, IsNearest (3 / 2) y → y = x) ∧
        c.next false =
          (.ok ⟨.number (.float x), ⟨⟨1, 1, 1⟩, ⟨4, 1, 4⟩⟩⟩, ⟨⟨4, 1, 4⟩, ['+']⟩) := by
  intro c
  let l : Number.Literal :=
    { whole := ['1']
      fraction := some ['5']
      whole_ne_nil := List.cons_ne_nil _ _
      isDigit_whole := List.forall_mem_singleton.mpr rfl
      isDigit_fraction := by
        rintro ds ⟨⟩
        exact List.forall_mem_singleton.mpr rfl }
  have hvalue : l.value = 3 / 2 := by
    change ((1 : Nat) : ℚ) + ((0 : Nat) + 1 / 10 * ((5 : Nat) + 1 / 10 * 0)) = 3 / 2
    norm_num
  have hends : l.EndsBefore ['+'] := ⟨by rintro d ⟨⟩; decide, by rintro ⟨⟩⟩
  have hblanks : ∀ b ∈ [' '], Text.isBlank b = true := List.forall_mem_singleton.mpr (by decide)
  obtain ⟨-, hfloat, -⟩ := next_reads_number_literal l false c [' '] ['+'] rfl hblanks hends
  have hsmall : l.value < overflowBound := by
    rw [hvalue]
    exact lt_trans (by norm_num) two_pow_lt_overflowBound
  rw [hvalue] at hfloat hsmall
  exact ⟨l, rfl, hvalue, hends, hfloat (by simp [l]) hsmall⟩

end TemplateSyntax
