import TemplateSyntax.Proofs.ShortestDecimal

/-!
# Quotients are rounded to the nearest float

The interval of a float ends half way to the floats next to it, so what lies in it is at least as
near to the float as to any other, and half way only if the significand is even. A quotient lies in
the interval of the float that it is rounded to. It has none exactly if it is not below the middle
between the greatest float and the next power of two.
-/
namespace TemplateSyntax.Binary64
variable {x y : Binary64} {v : ℚ}

/-- The number that a float stands for. -/
def value (x : Binary64) : ℚ := x.significand * 2 ^ x.exponent

/-- No float is nearer to a number, and if another one is as near then the significand of this one
is even. -/
structure IsNearest (v : ℚ) (x : Binary64) : Prop where
  abs_le : ∀ y : Binary64, |v - x.value| ≤ |v - y.value|
  even : ∀ y : Binary64, y ≠ x → |v - y.value| = |v - x.value| → x.significand % 2 = 0

/-- The middle between the greatest float and the power of two above it. -/
def overflowBound : ℚ := 2 ^ 1024 - 2 ^ 970

theorem place_eq (x : Binary64) : (2 : ℚ) ^ x.exponent = 4 * x.quarterPlace := by
  rw [quarterPlace, zpow_sub₀ two_ne_zero]
  norm_num
  ring

theorem value_eq (x : Binary64) : x.value = 4 * x.significand * x.quarterPlace := by
  rw [value, place_eq]
  ring

theorem highQuarters_eq (x : Binary64) : (x.highQuarters : ℚ) = 4 * x.significand + 2 := by
  rw [highQuarters]
  push_cast
  rfl

/-! ## Neighbours -/

/-- A float with a greater last place is a multiple of a smaller place. -/
theorem exists_value_eq {e : Int} (h : e ≤ y.exponent) : ∃ k : Nat, y.value = k * 2 ^ e := by
  obtain ⟨n, hn⟩ := Int.le.dest h
  refine ⟨y.significand * 2 ^ n, ?_⟩
  rw [value, ← hn, zpow_add₀ two_ne_zero, zpow_natCast]
  push_cast
  ring

theorem value_lt_iff {k : Nat} : x.value < k * 2 ^ x.exponent ↔ x.significand < k := by
  rw [value, mul_lt_mul_iff_of_pos_right (zpow_pos two_pos _), Nat.cast_lt]

theorem lt_value_iff {k : Nat} : k * 2 ^ x.exponent < x.value ↔ k < x.significand := by
  rw [value, mul_lt_mul_iff_of_pos_right (zpow_pos two_pos _), Nat.cast_lt]

/-- A float with a smaller last place lies at least half of the greater place below the least
significand that has all bits. -/
theorem value_le_of_exponent_lt {e : Int} (h : y.exponent < e) :
    y.value ≤ (2 ^ 53 - 1) * 2 ^ (e - 1) := by
  have hsignificand : (y.significand : ℚ) ≤ 2 ^ 53 - 1 := by
    have hlt : y.significand < 2 ^ 53 := y.significand_lt
    have hle : y.significand + 1 ≤ 2 ^ 53 := hlt
    have hcast : (y.significand : ℚ) + 1 ≤ 2 ^ 53 := by exact_mod_cast hle
    linarith
  have hplace : (2 : ℚ) ^ y.exponent ≤ 2 ^ (e - 1) := zpow_le_zpow_right₀ one_le_two (by omega)
  rw [value]
  gcongr

theorem full_of_exponent_lt (h : y.exponent < x.exponent) : 2 ^ 52 ≤ x.significand :=
  x.full.resolve_right (by have := y.le_exponent; omega)

theorem half_place_eq (x : Binary64) : (2 : ℚ) ^ (x.exponent - 1) = 2 * x.quarterPlace := by
  rw [zpow_sub_one₀ two_ne_zero, place_eq]
  ring

/-- The upper end of an interval lies at most half way to any greater float. -/
theorem highQuarters_le_of_lt (h : x.value < y.value) :
    2 * (x.highQuarters * x.quarterPlace) ≤ x.value + y.value := by
  have hplace := x.quarterPlace_pos
  rw [highQuarters_eq]
  rcases le_or_gt x.exponent y.exponent with he | he
  · obtain ⟨k, hk⟩ := exists_value_eq he
    have hlt : x.significand < k := value_lt_iff.mp (hk ▸ h)
    have hnext : ((x.significand : ℚ) + 1) * x.quarterPlace ≤ k * x.quarterPlace :=
      mul_le_mul_of_nonneg_right (by exact_mod_cast hlt) hplace.le
    rw [x.value_eq, hk, place_eq]
    linarith
  · -- The greater float cannot have the smaller places.
    have hfull : ((2 : ℚ) ^ 52) * x.quarterPlace ≤ x.significand * x.quarterPlace :=
      mul_le_mul_of_nonneg_right (by exact_mod_cast full_of_exponent_lt he) hplace.le
    have hle := value_le_of_exponent_lt he
    rw [half_place_eq] at hle
    rw [x.value_eq] at h
    linarith

/-- The lower end of an interval lies at least half way from any smaller float. -/
theorem le_lowQuarters_of_lt (h : y.value < x.value) :
    x.value + y.value ≤ 2 * (x.lowQuarters * x.quarterPlace) := by
  have hplace := x.quarterPlace_pos
  rcases le_or_gt x.exponent y.exponent with he | he
  · obtain ⟨k, hk⟩ := exists_value_eq he
    have hlt : k < x.significand := lt_value_iff.mp (hk ▸ h)
    have hlow : 4 * (x.significand + k) ≤ 2 * x.lowQuarters := by
      unfold lowQuarters
      split <;> omega
    have hscaled : (4 * ((x.significand : ℚ) + k)) * x.quarterPlace ≤
        2 * x.lowQuarters * x.quarterPlace :=
      mul_le_mul_of_nonneg_right (by exact_mod_cast hlow) hplace.le
    rw [x.value_eq, hk, place_eq]
    linarith
  · -- Below a power of two the next float is only half a place away.
    have hfull : 2 ^ 52 ≤ x.significand := full_of_exponent_lt he
    have hlow : 4 * x.significand + 2 ^ 54 ≤ 2 * x.lowQuarters + 2 := by
      have := y.le_exponent
      unfold lowQuarters
      split
      · omega
      · next hbound =>
        have hne : x.significand ≠ 2 ^ 52 := fun heq => hbound ⟨heq, by omega⟩
        omega
    have hscaled : (4 * (x.significand : ℚ) + 2 ^ 54) * x.quarterPlace ≤
        (2 * x.lowQuarters + 2) * x.quarterPlace :=
      mul_le_mul_of_nonneg_right (by exact_mod_cast hlow) hplace.le
    have hle := value_le_of_exponent_lt he
    rw [half_place_eq] at hle
    rw [x.value_eq]
    linarith

/-! ## Nearest floats -/

theorem roundsTo_value (x : Binary64) : RoundsTo x.value x := by
  have hplace := x.quarterPlace_pos
  have hlow : x.lowQuarters ≤ 4 * x.significand ∧
      (x.significand % 2 = 1 → x.lowQuarters < 4 * x.significand) := by
    unfold lowQuarters
    split <;> omega
  have hhigh : 4 * x.significand < x.highQuarters := by
    unfold highQuarters
    omega
  have hvalue : x.value = ((4 * x.significand : Nat) : ℚ) * x.quarterPlace := by
    rw [x.value_eq]
    push_cast
    ring
  rw [hvalue]
  constructor
  · exact mul_le_mul_of_nonneg_right (by exact_mod_cast hlow.1) hplace.le
  · exact mul_le_mul_of_nonneg_right (by exact_mod_cast hhigh.le) hplace.le
  · intro hodd
    exact ⟨mul_lt_mul_of_pos_right (by exact_mod_cast hlow.2 hodd) hplace,
      mul_lt_mul_of_pos_right (by exact_mod_cast hhigh) hplace⟩

/-- Two floats do not stand for one number. -/
theorem value_injective : Function.Injective value := by
  intro x y h
  have hy := y.roundsTo_value
  rw [← h] at hy
  exact x.roundsTo_value.unique hy

theorem RoundsTo.isNearest (h : RoundsTo v x) : IsNearest v x := by
  have hlow := h.low_le
  have hhigh := h.le_high
  constructor
  case abs_le =>
    intro y
    rcases lt_trichotomy y.value x.value with hlt | heq | hlt
    · have hmiddle := le_lowQuarters_of_lt hlt
      exact le_trans (abs_le.mpr ⟨by linarith, by linarith⟩) (le_abs_self (v - y.value))
    · rw [heq]
    · have hmiddle := highQuarters_le_of_lt hlt
      exact le_trans (abs_le.mpr ⟨by linarith, by linarith⟩) (neg_le_abs (v - y.value))
  case even =>
    intro y hne htie
    by_contra hodd
    obtain ⟨hlow, hhigh⟩ := h.inside (by omega)
    rcases lt_trichotomy y.value x.value with hlt | heq | hlt
    · have hmiddle := le_lowQuarters_of_lt hlt
      have hless : |v - x.value| < v - y.value := abs_lt.mpr ⟨by linarith, by linarith⟩
      linarith [le_abs_self (v - y.value)]
    · exact hne (value_injective heq)
    · have hmiddle := highQuarters_le_of_lt hlt
      have hless : |v - x.value| < -(v - y.value) := abs_lt.mpr ⟨by linarith, by linarith⟩
      linarith [neg_le_abs (v - y.value)]

/-- Of two floats that are equally near one has an even significand, and then there is a float
between them. -/
theorem not_isNearest_of_lt (h : x.value < y.value) (hx : IsNearest v x) : ¬ IsNearest v y := by
  intro hy
  have hne : y ≠ x := by
    rintro rfl
    exact lt_irrefl _ h
  have htie : |v - y.value| = |v - x.value| := le_antisymm (hy.abs_le x) (hx.abs_le y)
  have hxeven := hx.even y hne htie
  have hyeven := hy.even x hne.symm htie.symm
  have hlast : x.significand + 1 < 2 ^ 53 := by
    have : x.significand < 2 ^ 53 := x.significand_lt
    omega
  let z : Binary64 := ⟨x.significand + 1, x.exponent, hlast, x.le_exponent, x.exponent_le,
    x.full.imp Nat.le_succ_of_le id⟩
  have hplace := x.quarterPlace_pos
  have hz : z.value = x.value + 4 * x.quarterPlace := by
    change ((x.significand + 1 : Nat) : ℚ) * 2 ^ x.exponent = _
    rw [value, ← place_eq]
    push_cast
    ring
  have hzy : z.value < y.value := by
    have hmiddle := highQuarters_le_of_lt h
    refine lt_of_le_of_ne ?_ ?_
    · rw [highQuarters_eq] at hmiddle
      have hxvalue := x.value_eq
      linarith
    · intro heq
      obtain rfl : z = y := value_injective heq
      have hodd : z.significand = x.significand + 1 := rfl
      omega
  have hmiddle : v - y.value = -(v - x.value) := by
    rcases abs_eq_abs.mp htie with hsame | hopposite
    · linarith
    · exact hopposite
  have hnear : |v - z.value| < |v - x.value| := by
    rw [abs_of_pos (show 0 < v - x.value by linarith)]
    exact abs_lt.mpr ⟨by linarith, by linarith⟩
  exact absurd (hx.abs_le z) (not_le.mpr hnear)

/-- There is one nearest float at most. -/
theorem IsNearest.unique (hx : IsNearest v x) (hy : IsNearest v y) : x = y := by
  rcases lt_trichotomy x.value y.value with h | h | h
  · exact absurd hy (not_isNearest_of_lt h hx)
  · exact value_injective h
  · exact absurd hx (not_isNearest_of_lt h hy)

theorem overflowBound_eq : overflowBound = (2 ^ 55 - 2) * 2 ^ 969 := by
  rw [overflowBound, show 1024 = 55 + 969 from rfl, show 970 = 1 + 969 from rfl, pow_add, pow_add]
  generalize (2 : ℚ) ^ 969 = place
  ring

theorem two_pow_lt_overflowBound : 2 ^ 64 < overflowBound := by
  rw [overflowBound_eq]
  calc (2 : ℚ) ^ 64 = 2 ^ 54 * 2 ^ 10 := by norm_num
    _ < (2 ^ 55 - 2) * 2 ^ 10 := by norm_num
    _ ≤ (2 ^ 55 - 2) * 2 ^ 969 := by
      have hle : (2 : ℚ) ^ 10 ≤ 2 ^ 969 := pow_le_pow_right₀ one_le_two (by decide)
      exact mul_le_mul_of_nonneg_left hle (by norm_num)

/-- What rounds to a float is not too large for the format. -/
theorem RoundsTo.lt_overflowBound (h : RoundsTo v x) : v < overflowBound := by
  have hlt : x.significand < 2 ^ 53 := x.significand_lt
  have hplace : x.quarterPlace ≤ 2 ^ 969 := by
    have hle := x.exponent_le
    exact_mod_cast zpow_le_zpow_right₀ (one_le_two (α := ℚ)) (show x.exponent - 2 ≤ 969 by omega)
  rw [overflowBound_eq]
  have hend (n : Nat) (hn : x.highQuarters + n ≤ 2 ^ 55) :
      x.highQuarters * x.quarterPlace ≤ (2 ^ 55 - n) * 2 ^ 969 := by
    have hcast : (x.highQuarters : ℚ) + n ≤ 2 ^ 55 := by exact_mod_cast hn
    have hnonneg : (0 : ℚ) ≤ x.highQuarters := Nat.cast_nonneg _
    exact mul_le_mul (by linarith) hplace x.quarterPlace_pos.le (by linarith)
  by_cases hodd : x.significand % 2 = 1
  · have hhigh := hend 2 (by unfold highQuarters; omega)
    exact lt_of_lt_of_le (h.inside hodd).2 hhigh
  · have hhigh := hend 6 (by unfold highQuarters; omega)
    refine lt_of_le_of_lt (le_trans h.le_high hhigh) ?_
    exact mul_lt_mul_of_pos_right (by norm_num) (by positivity)

/-! ## Rounding -/

variable {n d num den s : Nat} {e : Int}

theorem roundDiv_near (hd : 0 < d) :
    2 * (roundDiv n d * d) ≤ 2 * n + d ∧ 2 * n ≤ 2 * (roundDiv n d * d) + d ∧
      (roundDiv n d % 2 = 1 →
        2 * (roundDiv n d * d) < 2 * n + d ∧ 2 * n < 2 * (roundDiv n d * d) + d) := by
  have hn := Nat.div_add_mod n d
  have hmod := Nat.mod_lt n hd
  rw [Nat.mul_comm] at hn
  have hnext : (n / d + 1) * d = n / d * d + d := Nat.succ_mul _ _
  unfold roundDiv
  split
  · next hdown =>
    simp only [Bool.or_eq_true, Bool.and_eq_true, decide_eq_true_eq, beq_iff_eq] at hdown
    omega
  · next hup =>
    simp only [Bool.or_eq_true, Bool.and_eq_true, decide_eq_true_eq, beq_iff_eq, not_or] at hup
    omega

/-- A natural number that is at most a half away from another number, and less than a half if it is
odd. -/
structure Rounds (u : ℚ) (s : Nat) : Prop where
  le_add_half : (s : ℚ) ≤ u + 1 / 2
  sub_half_le : u ≤ s + 1 / 2
  inside : s % 2 = 1 → (s : ℚ) < u + 1 / 2 ∧ u < s + 1 / 2

theorem rounds_roundDiv (hd : 0 < d) : Rounds (n / d) (roundDiv n d) := by
  obtain ⟨hlow, hhigh, hinside⟩ := roundDiv_near (n := n) hd
  have hk : (0 : ℚ) < 2 * d := by exact_mod_cast Nat.mul_pos two_pos hd
  have hne : (d : ℚ) ≠ 0 := by exact_mod_cast hd.ne'
  -- Each side of the comparisons is the numerator of a quotient by `2 * d`.
  have hnum : ((2 * n + d : Nat) : ℚ) = (n / d + 1 / 2) * (2 * d) := by
    push_cast
    field_simp
  have hnear : ((2 * n : Nat) : ℚ) = n / d * (2 * d) := by
    push_cast
    field_simp
  have hround : ((2 * (roundDiv n d * d) : Nat) : ℚ) = roundDiv n d * (2 * d) := by
    push_cast
    ring
  have hnext : ((2 * (roundDiv n d * d) + d : Nat) : ℚ) = (roundDiv n d + 1 / 2) * (2 * d) := by
    push_cast
    ring
  constructor
  · exact (le_iff_of_scaled hk hround hnum).mp hlow
  · exact (le_iff_of_scaled hk hnear hnext).mp hhigh
  · intro hodd
    exact ⟨(lt_iff_of_scaled hk hround hnum).mp (hinside hodd).1,
      (lt_iff_of_scaled hk hnear hnext).mp (hinside hodd).2⟩

theorem inUnits_pos (num : Nat) (h : 0 < den) (e : Int) : 0 < (inUnits num den e).2 :=
  Nat.mul_pos h (powRatio_pos 2 (by decide) e).1

theorem inUnits_eq (num : Nat) (h : 0 < den) (e : Int) :
    ((inUnits num den e).1 : ℚ) / (inUnits num den e).2 = num / den / 2 ^ e := by
  have hratio := powRatio_eq 2 (by decide) e
  have hpos : ((powRatio 2 e).2 : ℚ) ≠ 0 := by
    exact_mod_cast (powRatio_pos 2 (by decide) e).2.ne'
  have hden : (den : ℚ) ≠ 0 := by exact_mod_cast h.ne'
  have hplace : (2 : ℚ) ^ e ≠ 0 := zpow_ne_zero e two_ne_zero
  change ((num * (powRatio 2 e).2 : Nat) : ℚ) / ((den * (powRatio 2 e).1 : Nat) : ℚ) = _
  push_cast
  rw [hratio]
  push_cast
  field_simp

/-- A quotient above zero between powers of two. -/
theorem log2_bounds (hnum : num ≠ 0) (hden : 0 < den) :
    (2 : ℚ) ^ ((num.log2 : Int) - den.log2 - 1) ≤ num / den ∧
      (num / den : ℚ) < 2 ^ ((num.log2 : Int) - den.log2 + 1) := by
  have hnumLow : (2 : ℚ) ^ num.log2 ≤ num := by exact_mod_cast Nat.log2_self_le hnum
  have hnumHigh : (num : ℚ) < 2 ^ (num.log2 + 1) := by exact_mod_cast Nat.lt_log2_self
  have hdenLow : (2 : ℚ) ^ den.log2 ≤ den := by exact_mod_cast Nat.log2_self_le hden.ne'
  have hdenHigh : (den : ℚ) < 2 ^ (den.log2 + 1) := by exact_mod_cast Nat.lt_log2_self
  have hpos : (0 : ℚ) < den := by exact_mod_cast hden
  constructor
  · rw [le_div_iff₀ hpos]
    calc (2 : ℚ) ^ ((num.log2 : Int) - den.log2 - 1) * den
        ≤ 2 ^ ((num.log2 : Int) - den.log2 - 1) * 2 ^ (den.log2 + 1) := by gcongr
      _ = 2 ^ num.log2 := by
        rw [← zpow_natCast, ← zpow_natCast, ← zpow_add₀ two_ne_zero]
        congr 1
        push_cast
        ring
      _ ≤ num := hnumLow
  · rw [div_lt_iff₀ hpos]
    calc (num : ℚ) < 2 ^ (num.log2 + 1) := hnumHigh
      _ = 2 ^ ((num.log2 : Int) - den.log2 + 1) * 2 ^ den.log2 := by
        rw [← zpow_natCast, ← zpow_natCast, ← zpow_add₀ two_ne_zero]
        congr 1
        push_cast
        ring
      _ ≤ 2 ^ ((num.log2 : Int) - den.log2 + 1) * den := by gcongr

/-- At this exponent a number has at most 53 bits before the point, and fewer only at the least
exponent. -/
structure IsUnit (v : ℚ) (e : Int) : Prop where
  least : -1074 ≤ e
  lt : v < 2 ^ 53 * 2 ^ e
  full : 2 ^ 52 * 2 ^ e ≤ v ∨ e = -1074

theorem isUnit_max (hlow : 2 ^ 52 * 2 ^ e ≤ v) (hhigh : v < 2 ^ 53 * 2 ^ e) :
    IsUnit v (max e (-1074)) := by
  constructor
  · exact le_max_right e (-1074)
  · have hle : (2 : ℚ) ^ e ≤ 2 ^ max e (-1074) :=
      zpow_le_zpow_right₀ one_le_two (le_max_left e (-1074))
    exact lt_of_lt_of_le hhigh (mul_le_mul_of_nonneg_left hle (by norm_num))
  · rcases le_total (-1074) e with h | h
    · exact .inl (by rwa [max_eq_left h])
    · exact .inr (max_eq_right h)

theorem isUnit_unitExponent (hnum : num ≠ 0) (hden : 0 < den) :
    IsUnit (num / den) (unitExponent num den) := by
  obtain ⟨hlow, hhigh⟩ := log2_bounds hnum hden
  have hpow (k : Nat) (e : Int) : (2 : ℚ) ^ k * 2 ^ e = 2 ^ (k + e) := by
    rw [← zpow_natCast, ← zpow_add₀ two_ne_zero]
  unfold unitExponent
  dsimp only
  generalize hestimate : (num.log2 : Int) - den.log2 - 53 = estimate
  have hunit := inUnits_eq num hden estimate
  have hpos := inUnits_pos num hden estimate
  generalize inUnits num den estimate = units at hunit hpos
  have hfew : units.1 < units.2 * Nat.pow 2 53 ↔ (num / den : ℚ) < 2 ^ 53 * 2 ^ estimate := by
    have hplace : (0 : ℚ) < 2 ^ estimate := zpow_pos two_pos _
    rw [← div_lt_iff₀ hplace, ← hunit, div_lt_iff₀ (by exact_mod_cast hpos), mul_comm units.2]
    exact_mod_cast Iff.rfl
  -- The estimate leaves 53 or 54 bits.
  split
  · next h =>
    refine isUnit_max ?_ (hfew.mp h)
    rwa [hpow, show ((52 : Nat) : Int) + estimate = num.log2 - den.log2 - 1 by omega]
  · next h =>
    refine isUnit_max ?_ ?_
    · rw [hfew, not_lt, hpow] at h
      rwa [hpow, show ((52 : Nat) : Int) + (estimate + 1) = (53 : Nat) + estimate by omega]
    · rwa [hpow, show ((53 : Nat) : Int) + (estimate + 1) = num.log2 - den.log2 + 1 by omega]

theorem ofParts?_eq_some (h : ofParts? s e = some x) : x.significand = s ∧ x.exponent = e := by
  unfold ofParts? at h
  split at h
  · cases h
    exact ⟨rfl, rfl⟩
  · cases h

theorem ofParts?_eq_none (hs : s < 2 ^ 53) (hleast : -1074 ≤ e)
    (hfull : 2 ^ 52 ≤ s ∨ e = -1074) (h : ofParts? s e = none) : 971 < e := by
  unfold ofParts? at h
  split at h
  · cases h
  · next hnot =>
    by_contra hle
    exact hnot ⟨hs, hleast, by omega, hfull⟩

/-- A number of units that is rounded to the significand of a float at this unit. -/
theorem roundsTo_of_rounds (hv : 0 ≤ v) (hunit : IsUnit v x.exponent)
    (h : Rounds (v / 2 ^ x.exponent) x.significand) : RoundsTo v x := by
  have hpos := x.quarterPlace_pos
  have hfull : 2 ^ 52 ≤ v / 2 ^ x.exponent ∨ x.exponent = -1074 := by
    refine hunit.full.imp (fun hfull => ?_) id
    rwa [le_div_iff₀ (zpow_pos two_pos _)]
  have hunits : 0 ≤ v / 2 ^ x.exponent := div_nonneg hv (zpow_pos two_pos _).le
  have hquarters : v = 4 * (v / 2 ^ x.exponent) * x.quarterPlace := by
    rw [place_eq]
    field_simp
  obtain ⟨hlow, hhigh, hinside⟩ := h
  generalize v / 2 ^ x.exponent = u at *
  have hends : x.lowQuarters + 2 = 4 * x.significand ∨
      (x.lowQuarters = 0 ∧ x.significand = 0) ∨
      (x.lowQuarters + 1 = 4 * x.significand ∧ x.significand = 2 ^ 52 ∧ x.exponent ≠ -1074) := by
    unfold lowQuarters
    split
    · next hbound =>
      have hsignificand : x.significand = 2 ^ 52 := hbound.1
      omega
    · omega
  have hstart : (x.lowQuarters : ℚ) ≤ 4 * u ∧
      (x.significand % 2 = 1 → (x.lowQuarters : ℚ) < 4 * u) := by
    rcases hends with hend | ⟨hend, hzero⟩ | ⟨hend, hsignificand, hexponent⟩
    · have hcast : (x.lowQuarters : ℚ) + 2 = 4 * x.significand := by exact_mod_cast hend
      exact ⟨by linarith, fun hodd => by linarith [(hinside hodd).1]⟩
    · rw [hend, Nat.cast_zero]
      exact ⟨by linarith, fun hodd => by omega⟩
    · -- A power of two is not rounded up to, as it has all bits.
      have hcast : (x.lowQuarters : ℚ) + 1 = 4 * 2 ^ 52 := by
        rw [hsignificand] at hend
        exact_mod_cast hend
      have hall := hfull.resolve_right hexponent
      exact ⟨by linarith, fun _ => by linarith⟩
  rw [hquarters]
  constructor
  · exact mul_le_mul_of_nonneg_right hstart.1 hpos.le
  · exact mul_le_mul_of_nonneg_right (by rw [highQuarters_eq]; linarith) hpos.le
  · intro hodd
    exact ⟨mul_lt_mul_of_pos_right (hstart.2 hodd) hpos,
      mul_lt_mul_of_pos_right (by rw [highQuarters_eq]; linarith [(hinside hodd).2]) hpos⟩

/-- A number of units that is rounded to one bit more. -/
theorem roundsTo_of_carry (hunit : IsUnit v e) (h : Rounds (v / 2 ^ e) (2 ^ 53))
    (hx : x.significand = 2 ^ 52) (he : x.exponent = e + 1) : RoundsTo v x := by
  have hplace : (2 : ℚ) ^ e = 2 * x.quarterPlace := by
    rw [← half_place_eq, he, add_sub_cancel_right]
  have hpos := x.quarterPlace_pos
  have hleast := hunit.least
  have hlow : x.lowQuarters = 2 ^ 54 - 1 := by
    unfold lowQuarters
    rw [if_pos ⟨hx, by omega⟩, hx]
    norm_num
  have hcarry := h.le_add_half
  have hlt := hunit.lt
  rw [← sub_le_iff_le_add, le_div_iff₀ (zpow_pos two_pos e), hplace] at hcarry
  rw [hplace] at hlt
  push_cast at hcarry
  constructor
  · rw [hlow]
    push_cast
    linarith
  · rw [highQuarters_eq, hx]
    push_cast
    linarith
  · intro hodd
    omega

theorem ofRatio?_of_ne_zero (hnum : num ≠ 0) (he : unitExponent num den = e)
    (hunits : inUnits num den e = (n, d)) :
    ofRatio? num den =
      if roundDiv n d = Nat.pow 2 53 then ofParts? (Nat.pow 2 52) (e + 1)
      else ofParts? (roundDiv n d) e := by
  -- The exponent is only named from here on: to unfold it is to compute with logarithms.
  rw [ofRatio?, if_neg hnum, he]
  dsimp only
  rw [hunits]

/-- Of a number above zero the units are rounded, and what they round to is perhaps carried. -/
theorem exists_ofRatio?_eq (hnum : num ≠ 0) (hden : 0 < den) :
    ∃ e s, IsUnit (num / den) e ∧ Rounds (num / den / 2 ^ e) s ∧
      ofRatio? num den =
        if s = Nat.pow 2 53 then ofParts? (Nat.pow 2 52) (e + 1) else ofParts? s e := by
  refine ⟨_, _, isUnit_unitExponent hnum hden, ?_,
    ofRatio?_of_ne_zero hnum rfl Prod.mk.eta.symm⟩
  rw [← inUnits_eq num hden]
  exact rounds_roundDiv (inUnits_pos num hden _)

/-- A quotient lies in the interval of the float that it is rounded to. -/
theorem roundsTo_of_ofRatio? (hden : 0 < den) (h : ofRatio? num den = some x) :
    RoundsTo (num / den) x := by
  by_cases hnum : num = 0
  · subst hnum
    cases h
    rw [Nat.cast_zero, zero_div]
    exact zero_roundsTo rfl
  · obtain ⟨e, s, hunit, hround, heq⟩ := exists_ofRatio?_eq hnum hden
    rw [h] at heq
    split at heq
    · next hcarry =>
      obtain ⟨hs, he⟩ := ofParts?_eq_some heq.symm
      rw [hcarry] at hround
      exact roundsTo_of_carry hunit hround hs he
    · obtain ⟨rfl, rfl⟩ := ofParts?_eq_some heq.symm
      exact roundsTo_of_rounds (by positivity) hunit hround

theorem overflowBound_le_mul {u : ℚ} {k : Nat} (hu : (2 ^ 55 - 2) / 2 ^ k ≤ u)
    (he : 969 + k ≤ e) : overflowBound ≤ u * 2 ^ e := by
  have hplace : (2 : ℚ) ^ (969 + k) ≤ 2 ^ e := by
    exact_mod_cast zpow_le_zpow_right₀ (one_le_two (α := ℚ)) he
  have hnonneg : (0 : ℚ) ≤ (2 ^ 55 - 2) / 2 ^ k := by
    have hk : (0 : ℚ) < 2 ^ k := by positivity
    exact div_nonneg (by norm_num) hk.le
  calc overflowBound = (2 ^ 55 - 2) / 2 ^ k * 2 ^ (969 + k) := by
        rw [overflowBound_eq, pow_add]
        generalize (2 : ℚ) ^ 969 = place
        field_simp
    _ ≤ u * 2 ^ e := mul_le_mul hu hplace (by positivity) (hnonneg.trans hu)

/-- What is rounded to no float is too large for the format. -/
theorem overflowBound_le_of_ofRatio? (hden : 0 < den) (h : ofRatio? num den = none) :
    overflowBound ≤ num / den := by
  have hnum : num ≠ 0 := by
    rintro rfl
    cases h
  obtain ⟨e, s, hunit, hround, heq⟩ := exists_ofRatio?_eq hnum hden
  have hpos : (0 : ℚ) < 2 ^ e := zpow_pos two_pos e
  have hfew : (num / den / 2 ^ e : ℚ) < 2 ^ 53 := by
    rw [div_lt_iff₀ hpos]
    exact hunit.lt
  have hfull : (2 : ℚ) ^ 52 ≤ num / den / 2 ^ e ∨ e = -1074 := by
    refine hunit.full.imp (fun hfull => ?_) id
    rwa [le_div_iff₀ hpos]
  have hleast := hunit.least
  obtain ⟨hlow, hhigh, -⟩ := hround
  rw [← div_mul_cancel₀ (num / den : ℚ) hpos.ne']
  generalize (num / den / 2 ^ e : ℚ) = u at *
  rw [h] at heq
  split at heq
  · next hcarry =>
    have he := ofParts?_eq_none (by norm_num) (by omega) (.inl le_rfl) heq.symm
    rw [hcarry] at hlow
    refine overflowBound_le_mul (k := 2) ?_ (by omega)
    norm_num at hlow ⊢
    linarith
  · next hne =>
    have hs : s < 2 ^ 53 := by
      have hcast : (s : ℚ) < (2 ^ 53 + 1 : Nat) := by
        push_cast
        linarith
      exact lt_of_le_of_ne (Nat.le_of_lt_succ (by exact_mod_cast hcast)) hne
    have hbits : 2 ^ 52 ≤ s ∨ e = -1074 := by
      refine hfull.imp (fun hfull => ?_) id
      have hcast : ((2 ^ 52 : Nat) : ℚ) < (s + 1 : Nat) := by
        push_cast
        linarith
      exact Nat.le_of_lt_succ (by exact_mod_cast hcast)
    have he := ofParts?_eq_none hs hleast hbits heq.symm
    refine overflowBound_le_mul (k := 3) ?_ (by omega)
    have hall := hfull.resolve_right (by omega)
    norm_num at hall ⊢
    linarith

theorem ofRatio?_eq_some_iff (hden : 0 < den) :
    ofRatio? num den = some x ↔ RoundsTo (num / den) x := by
  constructor
  · exact roundsTo_of_ofRatio? hden
  · intro hx
    cases h : ofRatio? num den with
    | none => exact absurd hx.lt_overflowBound (not_lt.mpr (overflowBound_le_of_ofRatio? hden h))
    | some y => rw [hx.unique (roundsTo_of_ofRatio? hden h)]

theorem ofRatio?_eq_none_iff (hden : 0 < den) :
    ofRatio? num den = none ↔ overflowBound ≤ num / den := by
  constructor
  · exact overflowBound_le_of_ofRatio? hden
  · intro hle
    cases h : ofRatio? num den with
    | none => rfl
    | some x => exact absurd (roundsTo_of_ofRatio? hden h).lt_overflowBound (not_lt.mpr hle)

end TemplateSyntax.Binary64
