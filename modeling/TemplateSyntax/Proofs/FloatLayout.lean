import TemplateSyntax.Proofs.Cursor
import TemplateSyntax.Proofs.ShortestDecimal
import TemplateSyntax.Proofs.JsonText

/-!
# Floats as JSON shows them

What a float is shown as is a decimal that stands for it, with a point or an exponent. Read as a
decimal, it rounds to the float again.
-/
namespace TemplateSyntax

namespace Decimal

/-- The number that an exponent stands for, with or without a sign. -/
def readExponent : List Char → Int
  | '+' :: digits => Number.ofDigits digits
  | '-' :: digits => -Number.ofDigits digits
  | digits => Number.ofDigits digits

/-- The number that a decimal text stands for: digits, perhaps with a point among them, and perhaps
with an exponent behind them. -/
def read (text : List Char) : ℚ :=
  let mantissa := text.takeWhile (· != 'e')
  let fraction := (mantissa.dropWhile (· != '.')).drop 1
  let exponent := readExponent ((text.dropWhile (· != 'e')).drop 1)
  Number.ofDigits (mantissa.takeWhile (· != '.') ++ fraction) * 10 ^ (exponent - fraction.length)

/-- Whether these are digits only. -/
def AllDigits (cs : List Char) : Prop := ∀ c ∈ cs, c.isDigit = true

variable {cs rest whole fraction : List Char} {d : Char}

theorem AllDigits.notMem (h : AllDigits cs) (hd : d.isDigit = false) : d ∉ cs := by
  intro hmem
  rw [h d hmem] at hd
  cases hd

theorem AllDigits.append (h : AllDigits cs) (hrest : AllDigits rest) : AllDigits (cs ++ rest) := by
  intro c hc
  rcases List.mem_append.mp hc with hc | hc
  · exact h c hc
  · exact hrest c hc

theorem AllDigits.take (h : AllDigits cs) (n : Nat) : AllDigits (cs.take n) :=
  fun c hc => h c (List.mem_of_mem_take hc)

theorem AllDigits.drop (h : AllDigits cs) (n : Nat) : AllDigits (cs.drop n) :=
  fun c hc => h c (List.mem_of_mem_drop hc)

theorem allDigits_toDigits (n : Nat) : AllDigits (Nat.toDigits 10 n) := fun _ =>
  Nat.isDigit_of_mem_toDigits (by decide) (by decide)

theorem allDigits_zeros (n : Nat) : AllDigits (List.replicate n '0') := by
  intro c hc
  rw [List.eq_of_mem_replicate hc]
  decide

theorem AllDigits.isNumeral (h : AllDigits cs) : ∀ c ∈ cs, Json.isNumeral c = true := by
  intro c hc
  simp [Json.isNumeral, h c hc]

/-- A text that stands for a number, is made of what numbers are written with, and has a point or
an exponent. -/
structure Shows (v : ℚ) (text : List Char) : Prop where
  read_eq : read text = v
  numeral : ∀ c ∈ text, Json.isNumeral c = true
  marked : '.' ∈ text ∨ 'e' ∈ text

@[simp] theorem readExponent_nil : readExponent [] = 0 := rfl

/-- A point with digits on both sides, an exponent behind digits, or both. -/
theorem shows_mantissa (point tail : List Char) (hw : AllDigits whole) (hf : AllDigits fraction)
    (hpoint : point.drop 1 = fraction) (hdot : ∀ c ∈ point.head?, c = '.')
    (he : ∀ c ∈ tail.head?, c = 'e') (htail : ∀ c ∈ tail, Json.isNumeral c = true)
    (hmarked : '.' ∈ point ∨ 'e' ∈ tail) :
    Shows (Number.ofDigits (whole ++ fraction) *
      10 ^ (readExponent (tail.drop 1) - fraction.length)) (whole ++ point ++ tail) := by
  have hcases : ∀ c ∈ point, c = '.' ∨ c ∈ fraction := by
    cases point with
    | nil => simp
    | cons d point =>
      obtain rfl : d = '.' := hdot d rfl
      obtain rfl : point = fraction := hpoint
      simp
  have hmantissa : 'e' ∉ whole ++ point := by
    intro hmem
    rcases List.mem_append.mp hmem with hmem | hmem
    · exact hw.notMem (by decide) hmem
    · rcases hcases _ hmem with hmem | hmem
      · exact absurd hmem (by decide)
      · exact hf.notMem (by decide) hmem
  have hwhole : '.' ∉ whole := hw.notMem (by decide)
  constructor
  · unfold read
    simp only [Text.takeWhile_append_mark hmantissa he, Text.dropWhile_append_mark hmantissa he,
      Text.takeWhile_append_mark hwhole hdot, Text.dropWhile_append_mark hwhole hdot, hpoint]
  · intro c hc
    rcases List.mem_append.mp hc with hc | hc
    · rcases List.mem_append.mp hc with hc | hc
      · exact hw.isNumeral c hc
      · rcases hcases c hc with rfl | hc
        · decide
        · exact hf.isNumeral c hc
    · exact htail c hc
  · rcases hmarked with hc | hc
    · exact .inl (by simp [hc])
    · exact .inr (by simp [hc])

theorem toList_repr (n : Nat) : n.repr.toList = Nat.toDigits 10 n := String.toList_ofList

theorem ofDigits_toDigits (n : Nat) : Number.ofDigits (Nat.toDigits 10 n) = n :=
  Nat.ofDigitChars_ten_toDigits

/-- An exponent is written with its sign. -/
theorem exists_exponent_eq (e : Int) : ∃ sign n,
    (if 0 ≤ e then "+" ++ toString e else toString e).toList = sign :: Nat.toDigits 10 n ∧
      (sign = '+' ∧ e = n ∨ sign = '-' ∧ e = -n) := by
  cases e with
  | ofNat n =>
    refine ⟨'+', n, ?_, .inl ⟨rfl, rfl⟩⟩
    rw [if_pos (show 0 ≤ Int.ofNat n from Int.natCast_nonneg n), String.toList_append,
      ← toList_repr]
    rfl
  | negSucc n =>
    refine ⟨'-', n + 1, ?_, .inr ⟨rfl, rfl⟩⟩
    rw [if_neg (by omega), ← toList_repr]
    exact String.toList_append

theorem readExponent_exponentText (e : Int) :
    readExponent (if 0 ≤ e then "+" ++ toString e else toString e).toList = e := by
  obtain ⟨sign, n, htext, ⟨rfl, he⟩ | ⟨rfl, he⟩⟩ := exists_exponent_eq e
  · rw [htext, readExponent, ofDigits_toDigits, ← he]
  · rw [htext, readExponent, ofDigits_toDigits, ← he]

theorem isNumeral_exponentText (e : Int) :
    ∀ c ∈ (if 0 ≤ e then "+" ++ toString e else toString e).toList, Json.isNumeral c = true := by
  obtain ⟨sign, n, htext, hsign⟩ := exists_exponent_eq e
  rw [htext]
  intro c hc
  rcases List.mem_cons.mp hc with rfl | hc
  · rcases hsign with ⟨rfl, -⟩ | ⟨rfl, -⟩ <;> decide
  · exact (allDigits_toDigits n).isNumeral c hc

theorem ofDigits_append (cs ds : List Char) :
    Number.ofDigits (cs ++ ds) = 10 ^ ds.length * Number.ofDigits cs + Number.ofDigits ds := by
  change Nat.ofDigitChars 10 (cs ++ ds) 0 = _
  rw [Nat.ofDigitChars_append, Nat.ofDigitChars_eq_ofDigitChars_zero]
  rfl

theorem ofDigits_zeros (n : Nat) : Number.ofDigits (List.replicate n '0') = 0 := by
  change Nat.ofDigitChars 10 _ 0 = 0
  simp

variable {ds : List Char}

/-- Zeros behind the digits and a point behind these. -/
theorem shows_whole (h : AllDigits ds) (n : Nat) :
    Shows (Number.ofDigits ds * 10 ^ n) (ds ++ List.replicate n '0' ++ ['.', '0']) := by
  have hfraction : AllDigits ['0'] := allDigits_zeros 1
  have hshows := shows_mantissa ['.', '0'] [] (h.append (allDigits_zeros n)) hfraction rfl
    (by simp) (by simp) (by simp) (by simp)
  have hdigits : Number.ofDigits (ds ++ List.replicate n '0' ++ ['0']) =
      10 ^ (n + 1) * Number.ofDigits ds := by
    rw [List.append_assoc, ← List.replicate_succ', ofDigits_append, ofDigits_zeros,
      List.length_replicate, Nat.add_zero]
  have hvalue : ((10 ^ (n + 1) * Number.ofDigits ds : Nat) : ℚ) * 10 ^ ((0 : Int) - (1 : Nat)) =
      Number.ofDigits ds * 10 ^ n := by
    push_cast
    field_simp
    ring
  rwa [List.append_nil, hdigits, List.drop_nil, readExponent_nil, List.length_singleton,
    hvalue] at hshows

/-- A point among the digits. -/
theorem shows_split (h : AllDigits ds) {n : Nat} (hn : n ≤ ds.length) :
    Shows (Number.ofDigits ds * 10 ^ ((n : Int) - ds.length)) (ds.take n ++ '.' :: ds.drop n) := by
  have hshows := shows_mantissa ('.' :: ds.drop n) [] (h.take n) (h.drop n) rfl (by simp)
    (by simp) (by simp) (by simp)
  rwa [List.append_nil, List.take_append_drop, List.drop_nil, readExponent_nil, List.length_drop,
    Nat.cast_sub hn, zero_sub, neg_sub] at hshows

/-- Zeros before the digits and a point before these. -/
theorem shows_fraction (h : AllDigits ds) (n : Nat) :
    Shows (Number.ofDigits ds * 10 ^ (-(n + ds.length : Int)))
      ('0' :: '.' :: (List.replicate n '0' ++ ds)) := by
  have hfraction := (allDigits_zeros n).append h
  have hshows := shows_mantissa ('.' :: (List.replicate n '0' ++ ds)) [] (allDigits_zeros 1)
    hfraction rfl (by simp) (by simp) (by simp) (by simp)
  have hdigits : Number.ofDigits (List.replicate 1 '0' ++ (List.replicate n '0' ++ ds)) =
      Number.ofDigits ds := by
    rw [← List.append_assoc, List.replicate_append_replicate, ofDigits_append, ofDigits_zeros,
      Nat.mul_zero, Nat.zero_add]
  rwa [List.append_nil, hdigits, List.drop_nil, readExponent_nil, zero_sub, List.length_append,
    List.length_replicate, Nat.cast_add] at hshows

/-- The digits behind a point, with the point if there are any. -/
def pointed (fraction : List Char) : List Char := if fraction.isEmpty then [] else '.' :: fraction

/-- One digit before the point, and an exponent. -/
theorem shows_scientific (h : AllDigits ds) (hne : 0 < ds.length) {exponent : List Char}
    (hexponent : ∀ c ∈ exponent, Json.isNumeral c = true) :
    Shows (Number.ofDigits ds * 10 ^ (readExponent exponent - (ds.length - 1 : Int)))
      (ds.take 1 ++ pointed (ds.drop 1) ++ 'e' :: exponent) := by
  have hpoint : (pointed (ds.drop 1)).drop 1 = ds.drop 1 := by
    unfold pointed
    split
    · next hempty => rw [List.isEmpty_iff.mp hempty, List.drop_nil]
    · rfl
  have hdot : ∀ c ∈ (pointed (ds.drop 1)).head?, c = '.' := by
    unfold pointed
    split <;> simp
  have htail : ∀ c ∈ 'e' :: exponent, Json.isNumeral c = true := by
    intro c hc
    rcases List.mem_cons.mp hc with rfl | hc
    · decide
    · exact hexponent c hc
  have hshows := shows_mantissa (pointed (ds.drop 1)) ('e' :: exponent) (h.take 1) (h.drop 1)
    hpoint hdot (by simp) htail (by simp)
  rwa [List.take_append_drop, List.length_drop, Nat.cast_sub hne] at hshows

/-- The layout of a decimal stands for the decimal. -/
theorem shows_layout (d : Decimal) : Shows d.value (Number.layout d).toList := by
  have hdigits : AllDigits (Nat.toDigits 10 d.digits) := allDigits_toDigits _
  have hvalue := ofDigits_toDigits d.digits
  have hne : 0 < (Nat.toDigits 10 d.digits).length := List.length_pos_iff.mpr Nat.toDigits_ne_nil
  unfold Number.layout value
  rw [show (toString d.digits).toList = Nat.toDigits 10 d.digits from toList_repr _]
  generalize Nat.toDigits 10 d.digits = ds at hdigits hvalue hne
  rw [← hvalue]
  dsimp only
  -- The point stands behind the digits, among them, before them, or behind the first of them.
  split
  · next h =>
    simp only [String.toList_append, String.toList_ofList]
    obtain ⟨n, hn⟩ := Int.eq_ofNat_of_zero_le (show 0 ≤ d.exponent by omega)
    rw [hn, show ((ds.length : Int) + n - ds.length).toNat = n by omega, zpow_natCast]
    exact shows_whole hdigits n
  · next hwhole =>
    split
    · next h =>
      simp only [String.toList_append, String.toList_ofList]
      obtain ⟨n, hn⟩ := Int.eq_ofNat_of_zero_le h.1.le
      rw [hn, Int.toNat_natCast, show d.exponent = (n : Int) - ds.length by omega,
        List.append_assoc]
      exact shows_split hdigits (by omega)
    · split
      · next h =>
        simp only [String.toList_append, String.toList_ofList]
        obtain ⟨n, hn⟩ := Int.eq_ofNat_of_zero_le (Int.neg_nonneg.mpr h.2)
        rw [hn, Int.toNat_natCast, show d.exponent = -(n + ds.length : Int) by omega]
        exact shows_fraction hdigits n
      · simp only [String.toList_append, String.toList_ofList, List.append_assoc]
        have hexponent := readExponent_exponentText (ds.length + d.exponent - 1)
        have hshows := shows_scientific hdigits hne
          (isNumeral_exponentText (ds.length + d.exponent - 1))
        rw [hexponent, show (ds.length : Int) + d.exponent - 1 - (ds.length - 1) = d.exponent by
          omega, List.append_assoc] at hshows
        exact hshows

end Decimal

/-- What a float is shown as stands for a number that rounds to the float. -/
theorem Number.exists_shows (x : Binary64) :
    ∃ v, Decimal.Shows v (text (.float x)).toList ∧ x.RoundsTo v := by
  by_cases h : x.significand = 0
  · refine ⟨0, ?_, Binary64.zero_roundsTo h⟩
    have hshows := Decimal.shows_whole (Decimal.allDigits_zeros 1) 0
    rw [Decimal.ofDigits_zeros, Nat.cast_zero, zero_mul] at hshows
    rw [text, if_pos h]
    exact hshows
  · refine ⟨x.shortest.value, ?_, Binary64.shortest_roundsTo (Nat.pos_of_ne_zero h)⟩
    rw [text, if_neg h]
    exact Decimal.shows_layout _

/-- The shortest decimals as a way to write floats. -/
def Json.FloatText.shortest : Json.FloatText where
  chars x := (Number.float x).text.toList
  readsBack := by
    intro x y h
    obtain ⟨v, hv, hx⟩ := Number.exists_shows x
    obtain ⟨w, hw, hy⟩ := Number.exists_shows y
    have hvw : v = w := by
      rw [← hv.read_eq, ← hw.read_eq]
      exact congrArg Decimal.read h
    exact hx.unique (hvw ▸ hy)
  numeral x := by
    obtain ⟨v, hv, -⟩ := Number.exists_shows x
    exact hv.numeral
  marked x := by
    obtain ⟨v, hv, -⟩ := Number.exists_shows x
    exact hv.marked

/-- With the shortest decimals, the JSON of a number is what the number is shown as. -/
theorem Json.numeral_shortest (n : Number) : numeral .shortest n = n.text.toList := by
  cases n with
  | integer n => exact (Decimal.toList_repr n).symm
  | float x => rfl

end TemplateSyntax
