/-!
# Sets of characters as ranges of code points

Character properties are tables of ranges in ascending order, so that a search can end at the first
range that lies above the character.
-/
namespace TemplateSyntax.Text

/-- Membership of a code point in ascending ranges, both ends included. -/
def inRanges (n : Nat) : List (Nat × Nat) → Bool
  | [] => false
  | (low, high) :: ranges => decide (low ≤ n) && (decide (n ≤ high) || inRanges n ranges)

/-- Each range ends before the next one starts. -/
def Ascending : List (Nat × Nat) → Prop
  | [] => True
  | (_, high) :: ranges => (∀ r ∈ ranges, high < r.1) ∧ Ascending ranges

/-- In ascending ranges the search misses nothing. -/
theorem inRanges_iff {n : Nat} {ranges : List (Nat × Nat)} (h : Ascending ranges)
    (hle : ∀ r ∈ ranges, r.1 ≤ r.2) :
    inRanges n ranges = true ↔ ∃ r ∈ ranges, r.1 ≤ n ∧ n ≤ r.2 := by
  induction ranges with
  | nil => simp [inRanges]
  | cons r ranges ih =>
    obtain ⟨low, high⟩ := r
    have hlow := hle (low, high) (by simp)
    have ih := ih h.2 (fun s hs => hle s (by simp [hs]))
    simp only [inRanges, Bool.and_eq_true, Bool.or_eq_true, decide_eq_true_eq, ih,
      List.mem_cons, exists_eq_or_imp]
    constructor
    · rintro ⟨h1, h2 | h2⟩
      · exact .inl ⟨h1, h2⟩
      · exact .inr h2
    · rintro (h1 | ⟨s, hs, h1, h2⟩)
      · exact ⟨h1.1, .inl h1.2⟩
      · have := h.1 s hs
        exact ⟨by simp at hlow; omega, .inr ⟨s, hs, h1, h2⟩⟩

end TemplateSyntax.Text
