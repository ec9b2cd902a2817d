import TemplateSyntax.Number
import Mathlib.Algebra.Order.Field.Power
import Mathlib.Tactic.FieldSimp
import Mathlib.Tactic.Linarith
import Mathlib.Tactic.Positivity
import Mathlib.Tactic.Ring

/-!
# Floats are told apart by their shortest decimals

Around each binary number lies an interval of what is rounded to it. The shortest decimal of a
number lies in its interval, and the intervals of two numbers have nothing in common: where one
begins as another ends, the end belongs to the number with the even significand.
-/
namespace TemplateSyntax

/-- The number that a decimal stands for. -/
def Decimal.value (d : Decimal) : ℚ := d.digits * 10 ^ d.exponent

namespace Binary64
variable {x y : Binary64} {v : ℚ}

/-- A quarter of the last place of a number. -/
def quarterPlace (x : Binary64) : ℚ := 2 ^ (x.exponent - 2)

/-- What rounds to a number, with the ends of the interval if its significand is even. -/
structure RoundsTo (v : ℚ) (x : Binary64) : Prop where
  low_le : x.lowQuarters * x.quarterPlace ≤ v
  le_high : v ≤ x.highQuarters * x.quarterPlace
  inside : x.significand % 2 = 1 →
    x.lowQuarters * x.quarterPlace < v ∧ v < x.highQuarters * x.quarterPlace

theorem powRatio_pos (base : Nat) (h : 0 < base) (e : Int) :
    0 < (powRatio base e).1 ∧ 0 < (powRatio base e).2 := by
  unfold powRatio
  split
  · exact ⟨Nat.pow_pos h, one_pos⟩
  · exact ⟨one_pos, Nat.pow_pos h⟩

theorem powRatio_eq (base : Nat) (h : 0 < base) (e : Int) :
    ((powRatio base e).1 : ℚ) = base ^ e * (powRatio base e).2 := by
  have hbase : (base : ℚ) ≠ 0 := by exact_mod_cast h.ne'
  unfold powRatio
  split
  · next he =>
    obtain ⟨n, rfl⟩ := Int.eq_ofNat_of_zero_le he
    simp
  · next he =>
    obtain ⟨n, hn⟩ := Int.eq_ofNat_of_zero_le (show 0 ≤ -e by omega)
    obtain rfl : e = -n := by omega
    simp [hbase]

/-- Numbers compare as their multiples do. -/
theorem le_iff_of_scaled {a b k : ℚ} {m n : Nat} (hk : 0 < k) (hm : (m : ℚ) = a * k)
    (hn : (n : ℚ) = b * k) : m ≤ n ↔ a ≤ b := by
  rw [← Nat.cast_le (α := ℚ), hm, hn, mul_le_mul_iff_of_pos_right hk]

theorem lt_iff_of_scaled {a b k : ℚ} {m n : Nat} (hk : 0 < k) (hm : (m : ℚ) = a * k)
    (hn : (n : ℚ) = b * k) : m < n ↔ a < b := by
  rw [← Nat.cast_lt (α := ℚ), hm, hn, mul_lt_mul_iff_of_pos_right hk]

theorem roundsTo_of_readsBack {e : Int} {count : Nat}
    (h : x.readsBack ((powRatio 2 (x.exponent - 2)).1 * (powRatio 10 e).2)
      ((powRatio 10 e).1 * (powRatio 2 (x.exponent - 2)).2) count = true) :
    RoundsTo (Decimal.value ⟨count, e⟩) x := by
  have hunit := powRatio_eq 2 (by decide) (x.exponent - 2)
  have hstep := powRatio_eq 10 (by decide) e
  have hunitPos := (powRatio_pos 2 (by decide) (x.exponent - 2)).2
  have hstepPos := (powRatio_pos 10 (by decide) e).2
  generalize powRatio 2 (x.exponent - 2) = unit at *
  generalize powRatio 10 e = step at *
  -- Both sides of each comparison are counted in units of one common fraction.
  have hk : (0 : ℚ) < unit.2 * step.2 := by positivity
  have hends (n : Nat) : ((n * (unit.1 * step.2) : Nat) : ℚ) =
      n * x.quarterPlace * (unit.2 * step.2) := by
    push_cast
    rw [hunit, quarterPlace]
    push_cast
    ring
  have hvalue : ((count * (step.1 * unit.2) : Nat) : ℚ) =
      Decimal.value ⟨count, e⟩ * (unit.2 * step.2) := by
    push_cast
    rw [hstep, Decimal.value]
    push_cast
    ring
  unfold readsBack at h
  split at h
  · next heven =>
    simp only [Bool.and_eq_true, decide_eq_true_eq, le_iff_of_scaled hk (hends _) hvalue,
      le_iff_of_scaled hk hvalue (hends _)] at h
    exact ⟨h.1, h.2, fun hodd => by omega⟩
  · simp only [Bool.and_eq_true, decide_eq_true_eq, lt_iff_of_scaled hk (hends _) hvalue,
      lt_iff_of_scaled hk hvalue (hends _)] at h
    exact ⟨h.1.le, h.2.le, fun _ => h⟩

theorem readsBack_exact (h : 0 < x.significand) {quarter step count : Nat} (hquarter : 0 < quarter)
    (hcount : count * step = 4 * x.significand * quarter) :
    x.readsBack quarter step count = true := by
  have hlow : x.lowQuarters * quarter < count * step := by
    rw [hcount]
    refine Nat.mul_lt_mul_of_pos_right ?_ hquarter
    unfold lowQuarters
    split <;> omega
  have hhigh : count * step < x.highQuarters * quarter := by
    rw [hcount]
    refine Nat.mul_lt_mul_of_pos_right ?_ hquarter
    unfold highQuarters
    omega
  unfold readsBack
  split <;> simp [hlow, hhigh, hlow.le, hhigh.le]

theorem roundsTo_of_onGrid? {e : Int} {d : Decimal} (h : x.onGrid? e = some d) :
    RoundsTo d.value x := by
  unfold onGrid? at h
  dsimp only at h
  split at h
  · next hnear =>
    cases h
    exact roundsTo_of_readsBack hnear
  · -- The multiple on the other side of the number is one more or one less.
    split at h
    · split at h
      · next hother =>
        cases h
        exact roundsTo_of_readsBack hother
      · cases h
    · split at h
      · next hother =>
        cases h
        exact roundsTo_of_readsBack hother
      · cases h

theorem roundDiv_mul {n d : Nat} (hd : 0 < d) (h : d ∣ n) : roundDiv n d * d = n := by
  obtain ⟨k, rfl⟩ := h
  simp [roundDiv, hd, Nat.mul_comm]

/-- A grid that is as fine as the last place of a number holds the number. -/
theorem isSome_onGrid? (h : 0 < x.significand) {n : Nat} (hn : -(n : Int) ≤ x.exponent) :
    (x.onGrid? (-n)).isSome = true := by
  have hpos := powRatio_pos 2 (by decide) (x.exponent - 2)
  have hstep : powRatio 10 (-(n : Int)) = (1, 10 ^ n) := by
    unfold powRatio
    split
    · next hzero =>
      obtain rfl : n = 0 := by omega
      simp
    · simp
  have hunit : (powRatio 2 (x.exponent - 2)).2 ∣ 2 ^ (n + 2) := by
    unfold powRatio
    split
    · exact one_dvd _
    · exact pow_dvd_pow 2 (by omega)
  have hdvd : (powRatio 2 (x.exponent - 2)).2 ∣
      4 * x.significand * ((powRatio 2 (x.exponent - 2)).1 * 10 ^ n) := by
    have hten : 4 * x.significand * ((powRatio 2 (x.exponent - 2)).1 * 10 ^ n) =
        2 ^ (n + 2) * (x.significand * (powRatio 2 (x.exponent - 2)).1 * 5 ^ n) := by
      rw [show 10 = 2 * 5 from rfl, mul_pow, pow_add]
      ring
    rw [hten]
    exact hunit.mul_right _
  have hexact := readsBack_exact h (Nat.mul_pos hpos.1 (Nat.pow_pos (by decide)))
    (roundDiv_mul hpos.2 hdvd)
  unfold onGrid?
  simp only [hstep, one_mul]
  rw [if_pos hexact]
  rfl

theorem shortest_roundsTo (h : 0 < x.significand) : RoundsTo x.shortest.value x := by
  have hlast : (-1074 : Int) ∈ gridExponents :=
    List.mem_map.mpr ⟨1383, List.mem_range.mpr (by decide), rfl⟩
  have hfound : (gridExponents.findSome? x.onGrid?).isSome = true :=
    List.findSome?_isSome_iff.mpr ⟨_, hlast, isSome_onGrid? h x.le_exponent⟩
  obtain ⟨d, hd⟩ := Option.isSome_iff_exists.mp hfound
  obtain ⟨e, -, he⟩ := List.exists_of_findSome?_eq_some hd
  rw [shortest, hd]
  exact roundsTo_of_onGrid? he

theorem quarterPlace_pos (x : Binary64) : 0 < x.quarterPlace := zpow_pos two_pos _

theorem zero_roundsTo (h : x.significand = 0) : RoundsTo 0 x := by
  have hlow : x.lowQuarters = 0 := by simp [lowQuarters, h]
  have hhigh : 0 ≤ (x.highQuarters : ℚ) * x.quarterPlace :=
    mul_nonneg (Nat.cast_nonneg _) x.quarterPlace_pos.le
  exact ⟨by simp [hlow], hhigh, fun hodd => by omega⟩

/-- Two numbers have nothing in common if the interval of one ends before that of the other begins,
or where it begins while one of the significands is odd. -/
theorem not_roundsTo_of_le (h : x.highQuarters * x.quarterPlace ≤ y.lowQuarters * y.quarterPlace)
    (hodd : x.significand % 2 = 1 ∨ y.significand % 2 = 1 ∨
      x.highQuarters * x.quarterPlace < y.lowQuarters * y.quarterPlace)
    (hx : RoundsTo v x) (hy : RoundsTo v y) : False := by
  have hlow := hy.low_le
  have hhigh := hx.le_high
  rcases hodd with hodd | hodd | hlt
  · have hinside := (hx.inside hodd).2
    linarith
  · have hinside := (hy.inside hodd).1
    linarith
  · linarith

theorem significand_le (he : x.exponent = y.exponent) (hx : RoundsTo v x) (hy : RoundsTo v y) :
    y.significand ≤ x.significand := by
  by_contra hlt
  have hplace : x.quarterPlace = y.quarterPlace := by rw [quarterPlace, he, quarterPlace]
  have hends : x.highQuarters ≤ y.lowQuarters ∧
      (x.significand % 2 = 1 ∨ y.significand % 2 = 1 ∨ x.highQuarters < y.lowQuarters) := by
    unfold highQuarters lowQuarters
    split <;> omega
  refine not_roundsTo_of_le ?_ ?_ hx hy
  · rw [hplace]
    exact mul_le_mul_of_nonneg_right (by exact_mod_cast hends.1) y.quarterPlace_pos.le
  · rw [hplace, mul_lt_mul_iff_of_pos_right y.quarterPlace_pos, Nat.cast_lt]
    exact hends.2

theorem exponent_le_of_roundsTo (hx : RoundsTo v x) (hy : RoundsTo v y) :
    y.exponent ≤ x.exponent := by
  by_contra hlt
  have hfull : 2 ^ 52 ≤ y.significand := by
    have hleast := x.le_exponent
    exact y.full.resolve_right (by omega)
  have hlt53 : x.significand < 2 ^ 53 := x.significand_lt
  -- The last place of the greater number is at least twice as wide.
  have hends : x.highQuarters ≤ 2 * y.lowQuarters ∧
      (x.significand % 2 = 1 ∨ y.significand % 2 = 1 ∨ x.highQuarters < 2 * y.lowQuarters) := by
    unfold highQuarters lowQuarters
    have hleast := x.le_exponent
    split
    · omega
    · next hbound =>
      have hne : y.significand ≠ 2 ^ 52 := fun heq => hbound ⟨heq, by omega⟩
      omega
  have hplace : 2 * x.quarterPlace ≤ y.quarterPlace := by
    have hstep : (2 : ℚ) ^ (x.exponent - 2 + 1) ≤ 2 ^ (y.exponent - 2) :=
      zpow_le_zpow_right₀ one_le_two (by omega)
    rwa [zpow_add_one₀ two_ne_zero, mul_comm] at hstep
  have hwide : (2 * y.lowQuarters : Nat) * x.quarterPlace ≤ y.lowQuarters * y.quarterPlace := by
    calc ((2 * y.lowQuarters : Nat) : ℚ) * x.quarterPlace
        = y.lowQuarters * (2 * x.quarterPlace) := by push_cast; ring
      _ ≤ y.lowQuarters * y.quarterPlace := mul_le_mul_of_nonneg_left hplace (Nat.cast_nonneg _)
  refine not_roundsTo_of_le ?_ ?_ hx hy
  · refine le_trans ?_ hwide
    exact mul_le_mul_of_nonneg_right (by exact_mod_cast hends.1) x.quarterPlace_pos.le
  · refine hends.2.imp id (Or.imp id fun hstrict => lt_of_lt_of_le ?_ hwide)
    exact mul_lt_mul_of_pos_right (by exact_mod_cast hstrict) x.quarterPlace_pos

/-- What rounds to two numbers rounds to one. -/
theorem RoundsTo.unique (hx : RoundsTo v x) (hy : RoundsTo v y) : x = y := by
  have he : x.exponent = y.exponent :=
    le_antisymm (exponent_le_of_roundsTo hy hx) (exponent_le_of_roundsTo hx hy)
  have hm : x.significand = y.significand :=
    le_antisymm (significand_le he.symm hy hx) (significand_le he hx hy)
  cases x
  cases y
  simp_all

end Binary64
end TemplateSyntax
