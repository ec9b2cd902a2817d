import TemplateSyntax.Proofs.OrderedReading
import TemplateSyntax.Proofs.Session

/-!
# Nothing of the text is lost between tokens

A step of a cursor passes some blanks, which no result holds, and then the characters of its result,
a token or a fault. Steps in a row therefore cut the text up to the cursor into results that follow
each other and blanks between them, and every step to another token than the end of the source
passes at least one character.
-/
namespace TemplateSyntax
open String (utf8Len)

namespace Text

/-- A character of a text cut in two is one of the part that its offset lies in. -/
theorem mem_of_cut {before xs ys after : List Char} {x : Char}
    (h : before ++ x :: after = xs ++ ys) :
    (utf8Len before < utf8Len xs ∧ x ∈ xs) ∨
      ∃ before', before = xs ++ before' ∧ before' ++ x :: after = ys := by
  rcases List.append_eq_append_iff.mp h with ⟨zs, hx, hy⟩ | ⟨zs, hb, hy⟩
  · cases zs with
    | nil =>
      right
      exact ⟨[], by simpa using hx.symm, by simpa using hy⟩
    | cons z zs =>
      left
      obtain ⟨rfl, rfl⟩ := List.cons.inj hy
      have hpos := x.utf8Size_pos
      rw [hx, String.utf8Len_append, String.utf8Len_cons]
      exact ⟨by omega, by simp⟩
  · right
    exact ⟨zs, hb, hy.symm⟩

end Text

/-- Whether the byte at an offset is one of the span. -/
def Span.holds (s : Span) (offset : Nat) : Bool :=
  s.start.offset ≤ offset && offset < s.stop.offset

namespace Cursor

/-- Where a result stands, be it a token or a fault. -/
def resultSpan : Except Fault Lexeme → Span
  | .ok l => l.span
  | .error f => f.span

/-- Whether a result is the end of the source. -/
def isEnd : Except Fault Lexeme → Bool
  | .ok l => l.token = .endOfSource
  | .error _ => false

/-- What a step passes: blanks that only `next` skips, and the characters of its result. The cursor
then stands at the end of the result. -/
structure Passes (c : Cursor) (s : Step) (gap taken : List Char) : Prop where
  rest_eq : c.rest = gap ++ (taken ++ (c.step s).2.rest)
  blank : ∀ x ∈ gap, Text.isBlank x
  gap_eq_nil : s = .text → gap = []
  start_eq : (resultSpan (c.step s).1).start = c.position.advanceBy gap
  stop_eq : (resultSpan (c.step s).1).stop = (c.step s).2.position
  position_eq : (c.step s).2.position = c.position.advanceBy (gap ++ taken)
  /-- Whatever else than the end of the source is found takes a character, a fault too. -/
  taken_ne_nil : ∀ quotes, s = .next quotes → isEnd (c.step s).1 = false → taken ≠ []
  /-- The end of the source is empty and found only there. -/
  of_isEnd : isEnd (c.step s).1 = true → taken = [] ∧ (c.step s).2.rest = []

theorem resultSpan_next (quotes : Bool) (c : Cursor) :
    resultSpan (c.next quotes).1 = c.nextSpan quotes := by
  rw [next_eq]
  split <;> rfl

theorem isEnd_next_iff {quotes : Bool} {c : Cursor} :
    isEnd (c.next quotes).1 = true ↔ c.skipBlanks.rest = [] := by
  rw [← @nextPiece_eq_endOfSource_iff quotes, next_eq]
  split
  · next token ht => simp [isEnd, ht]
  · next cause ht => simp [isEnd, ht]

theorem passes_next (quotes : Bool) (c : Cursor) :
    c.Passes (.next quotes) (c.rest.takeWhile Text.isBlank) (c.nextPiece quotes).taken := by
  have hgap : c.rest = c.rest.takeWhile Text.isBlank ++ c.skipBlanks.rest :=
    rest_eq_append_past (List.takeWhile_prefix _)
  have htaken := c.skipBlanks_rest_eq quotes
  have hspan := c.resultSpan_next quotes
  have hcursor := c.next_snd quotes
  constructor
  case rest_eq => rw [step, hcursor, ← htaken, ← hgap]
  case blank => exact List.all_eq_true.mp List.all_takeWhile
  case gap_eq_nil => intro h; cases h
  case start_eq => rw [step, hspan]; rfl
  case stop_eq => rw [step, hspan, hcursor]; rfl
  case position_eq => rw [step, hcursor, Position.advanceBy_append]; rfl
  case taken_ne_nil =>
    intro _ _ h
    apply Piece.taken_first_ne_nil
    intro hr
    rw [step, isEnd_next_iff.mpr hr] at h
    cases h
  case of_isEnd =>
    intro h
    have hr := isEnd_next_iff.mp h
    rw [hr] at htaken
    obtain ⟨ht, hd⟩ := List.append_eq_nil_iff.mp htaken.symm
    rw [step, hcursor]
    exact ⟨ht, hd⟩

theorem passes_text (c : Cursor) : c.Passes .text [] (textRun c.rest) where
  rest_eq := c.rest_eq_textRun_append
  blank := by simp
  gap_eq_nil _ := rfl
  start_eq := rfl
  stop_eq := rfl
  position_eq := rfl
  taken_ne_nil _ h := by cases h
  of_isEnd h := by simp [step, text, isEnd] at h

theorem exists_passes (c : Cursor) (s : Step) : ∃ gap taken, c.Passes s gap taken := by
  cases s with
  | next quotes => exact ⟨_, _, c.passes_next quotes⟩
  | text => exact ⟨_, _, c.passes_text⟩

namespace Passes
variable {c : Cursor} {s : Step} {gap taken : List Char}

theorem reaches (h : c.Passes s gap taken) : c.Reaches (c.step s).2 :=
  ⟨gap ++ taken, by rw [List.append_assoc]; exact h.rest_eq, h.position_eq⟩

theorem offset_start (h : c.Passes s gap taken) :
    (resultSpan (c.step s).1).start.offset = c.position.offset + utf8Len gap := by
  rw [h.start_eq, Position.offset_advanceBy]

theorem offset_position (h : c.Passes s gap taken) :
    (c.step s).2.position.offset = c.position.offset + utf8Len gap + utf8Len taken := by
  rw [h.position_eq, Position.offset_advanceBy, String.utf8Len_append, Nat.add_assoc]

/-- A character that a step passes is a blank or in its result. -/
theorem holds (h : c.Passes s gap taken) {before after : List Char} {x : Char}
    (hr : c.rest = before ++ x :: after) (hx : Text.isBlank x = false) :
    ((resultSpan (c.step s).1).holds (c.position.offset + utf8Len before) = true ∧
        c.position.offset + utf8Len before < (c.step s).2.position.offset) ∨
      ∃ before', (c.step s).2.rest = before' ++ x :: after ∧
        c.position.offset + utf8Len before = (c.step s).2.position.offset + utf8Len before' := by
  have hstart := h.offset_start
  have hend := h.offset_position
  rcases Text.mem_of_cut (hr.symm.trans h.rest_eq) with ⟨-, hmem⟩ | ⟨zs, rfl, hz⟩
  · rw [h.blank x hmem] at hx
    cases hx
  have hlen : utf8Len (gap ++ zs) = utf8Len gap + utf8Len zs := String.utf8Len_append _ _
  rcases Text.mem_of_cut hz with ⟨hlt, -⟩ | ⟨ws, rfl, hw⟩
  · left
    simp only [Span.holds, h.stop_eq, Bool.and_eq_true, decide_eq_true_eq]
    omega
  · right
    refine ⟨ws, hw.symm, ?_⟩
    rw [hlen, String.utf8Len_append]
    omega

end Passes

/-! ## Steps in a row -/

/-- The spans of all that some steps find. -/
def spans (c : Cursor) (ss : List Step) : List Span := (c.steps ss).1.map resultSpan

@[simp] theorem spans_nil (c : Cursor) : c.spans [] = [] := rfl

@[simp] theorem spans_cons (c : Cursor) (s : Step) (ss : List Step) :
    c.spans (s :: ss) = resultSpan (c.step s).1 :: (c.step s).2.spans ss := rfl

theorem reaches_steps (c : Cursor) (ss : List Step) : c.Reaches (c.steps ss).2 := by
  induction ss generalizing c with
  | nil => exact .refl c
  | cons s ss ih =>
    obtain ⟨gap, taken, h⟩ := c.exists_passes s
    exact h.reaches.trans (ih _)

/-- What steps find lies between the cursor before them and the one behind them. -/
theorem spans_between (c : Cursor) (ss : List Step) {a : Span} (ha : a ∈ c.spans ss) :
    c.position.offset ≤ a.start.offset ∧ a.start.offset ≤ a.stop.offset ∧
      a.stop.offset ≤ (c.steps ss).2.position.offset := by
  induction ss generalizing c with
  | nil => simp at ha
  | cons s ss ih =>
    obtain ⟨gap, taken, h⟩ := c.exists_passes s
    have hstart := h.offset_start
    have hend := h.offset_position
    rw [spans_cons, List.mem_cons] at ha
    rcases ha with rfl | ha
    · have hlast := ((c.step s).2.reaches_steps ss).offset_le
      rw [h.stop_eq]
      refine ⟨by omega, by omega, hlast⟩
    · obtain ⟨hlow, hmid, hhigh⟩ := ih (c.step s).2 ha
      exact ⟨by omega, hmid, hhigh⟩

/-- Results follow each other. -/
theorem pairwise_spans (c : Cursor) (ss : List Step) : (c.spans ss).Pairwise Span.Before := by
  induction ss generalizing c with
  | nil => exact .nil
  | cons s ss ih =>
    obtain ⟨gap, taken, h⟩ := c.exists_passes s
    refine .cons ?_ (ih _)
    intro a ha
    have hlow := ((c.step s).2.spans_between ss ha).1
    rwa [← h.stop_eq] at hlow

/-- A character that is no blank is in one result if steps pass it, and in none otherwise. -/
theorem countP_holds (c : Cursor) (ss : List Step) {before after : List Char} {x : Char}
    (hr : c.rest = before ++ x :: after) (hx : Text.isBlank x = false) :
    (c.spans ss).countP (·.holds (c.position.offset + utf8Len before)) =
      if c.position.offset + utf8Len before < (c.steps ss).2.position.offset then 1 else 0 := by
  induction ss generalizing c before with
  | nil => simp [steps]
  | cons s ss ih =>
    obtain ⟨gap, taken, h⟩ := c.exists_passes s
    have hlast := ((c.step s).2.reaches_steps ss).offset_le
    rw [spans_cons, List.countP_cons]
    rcases h.holds hr hx with ⟨hin, hlt⟩ | ⟨before', hr', heq⟩
    · -- The results behind this one begin where it ends.
      have hlater : (((c.step s).2.spans ss).countP
          (·.holds (c.position.offset + utf8Len before))) = 0 := by
        rw [List.countP_eq_zero]
        intro a ha
        have hlow := ((c.step s).2.spans_between ss ha).1
        simp only [Span.holds, Bool.and_eq_true, decide_eq_true_eq]
        omega
      have hpassed := Nat.lt_of_lt_of_le hlt hlast
      rw [hlater, hin, steps, if_pos rfl, if_pos hpassed]
    · have hout : (resultSpan (c.step s).1).holds (c.position.offset + utf8Len before) = false := by
        simp only [Span.holds, h.stop_eq, Bool.and_eq_false_iff, decide_eq_false_iff_not]
        omega
      rw [hout, heq, ih (c.step s).2 hr', steps]
      simp

/-- At the end nothing moves the cursor, and `next` always finds the end of the source. -/
theorem steps_of_rest_eq_nil {c : Cursor} (h : c.rest = []) (ss : List Step) :
    c.steps ss = (ss.map fun
      | .next _ => .ok ⟨.endOfSource, .empty c.position⟩
      | .text => .ok ⟨.text "", .empty c.position⟩, c) := by
  have htext : c.text = (⟨.text "", .empty c.position⟩, c) := by
    rw [text, takeText, h]
    rfl
  induction ss with
  | nil => rfl
  | cons s ss ih =>
    cases s with
    | next quotes => simp only [steps, step, next_of_rest_eq_nil h, ih, List.map_cons]
    | text => simp only [steps, step, htext, ih, List.map_cons]

/-- The first steps of a cursor that only ever takes tokens, in modes that may change. -/
def nexts (quotes : Nat → Bool) (n : Nat) : List Step :=
  (List.range n).map fun i => .next (quotes i)

theorem nexts_succ (quotes : Nat → Bool) (n : Nat) :
    nexts quotes (n + 1) = .next (quotes 0) :: nexts (fun i => quotes (i + 1)) n := by
  simp [nexts, List.range_succ_eq_map, Function.comp_def]

/-- Taking tokens comes to the end of the source, after at most one result for each character. -/
theorem exists_isEnd (c : Cursor) (quotes : Nat → Bool) :
    ∃ n ≤ c.rest.length, (∀ r ∈ (c.steps (nexts quotes n)).1, isEnd r = false) ∧
      ∀ q, isEnd ((c.steps (nexts quotes n)).2.next q).1 = true := by
  induction hk : c.rest.length using Nat.strong_induction_on generalizing c quotes with
  | h k ih =>
    by_cases hr : c.skipBlanks.rest = []
    · exact ⟨0, Nat.zero_le _, by simp [nexts, steps], fun q => isEnd_next_iff.mpr hr⟩
    · have hfirst : isEnd (c.next (quotes 0)).1 = false := by
        rw [Bool.eq_false_iff]
        exact fun h => hr (isEnd_next_iff.mp h)
      have h := c.passes_next (quotes 0)
      have hpos := List.length_pos_iff.mpr (h.taken_ne_nil _ rfl hfirst)
      have hlen := congrArg List.length h.rest_eq
      simp only [List.length_append] at hlen
      obtain ⟨n, hn, hall, hend⟩ := ih _ (by omega) (c.step (.next (quotes 0))).2
        (fun i => quotes (i + 1)) rfl
      refine ⟨n + 1, by omega, ?_, ?_⟩
      · rw [nexts_succ, steps]
        exact List.forall_mem_cons.mpr ⟨hfirst, hall⟩
      · rw [nexts_succ, steps]
        exact hend

/-- What stands behind a character that steps have come to is still to be read. -/
theorem Reaches.passed_or_mem {c d : Cursor} (h : c.Reaches d) {before after : List Char} {x : Char}
    (hr : c.rest = before ++ x :: after) :
    c.position.offset + utf8Len before < d.position.offset ∨ x ∈ d.rest := by
  obtain ⟨taken, hd, hp⟩ := h
  rw [hp, Position.offset_advanceBy]
  rcases Text.mem_of_cut (hr.symm.trans hd) with ⟨hlt, -⟩ | ⟨before', -, hx⟩
  · left
    omega
  · right
    simp [← hx]

/-- Only blanks stand before the end of the source. -/
theorem isBlank_of_isEnd {c : Cursor} {quotes : Bool} (h : isEnd (c.next quotes).1 = true)
    {x : Char} (hx : x ∈ c.rest) : Text.isBlank x = true := by
  have hall : c.rest = c.rest.takeWhile Text.isBlank ++ c.skipBlanks.rest :=
    rest_eq_append_past (List.takeWhile_prefix _)
  rw [isEnd_next_iff.mp h, List.append_nil] at hall
  rw [hall] at hx
  exact List.all_eq_true.mp List.all_takeWhile x hx

theorem Reaches.offset_add_rest {text : String} {c : Cursor} (h : (ofText text).Reaches c) :
    c.position.offset + utf8Len c.rest = text.utf8ByteSize := by
  obtain ⟨passed, hr, hp⟩ := h
  rw [hp, Position.offset_advanceBy, ← String.utf8Len_toList, show text.toList = _ from hr,
    String.utf8Len_append]
  simp [ofText, Position.start]

/-- However a cursor is moved through a text, what it finds follows each other, the next step passes
blanks and then its own result, and each character that is no blank is in one result once the cursor
has passed it. At the end `next` finds the end of the source for ever, and taking tokens comes to it
with at most one result for each character and no character left out that is no blank. -/
theorem tokenization (text : String) (ss : List Step) :
    let start := ofText text
    let c := (start.steps ss).2
    (start.spans ss).Pairwise Span.Before ∧
    (∀ a ∈ start.spans ss, a.stop.offset ≤ c.position.offset) ∧
    start.Reaches c ∧ c.position.offset + utf8Len c.rest = text.utf8ByteSize ∧
    (∀ before x after, text.toList = before ++ x :: after → Text.isBlank x = false →
      (start.spans ss).countP (·.holds (utf8Len before)) =
        if utf8Len before < c.position.offset then 1 else 0) ∧
    (∀ s, ∃ gap taken, c.Passes s gap taken) ∧
    (c.rest = [] → ∀ ss', c.steps ss' = (ss'.map fun
      | .next _ => .ok ⟨.endOfSource, .empty c.position⟩
      | .text => .ok ⟨.text "", .empty c.position⟩, c)) ∧
    ∀ quotes, ∃ n ≤ text.length,
      (∀ r ∈ (start.steps (nexts quotes n)).1, isEnd r = false) ∧
      (∀ q, isEnd ((start.steps (nexts quotes n)).2.next q).1 = true) ∧
      ∀ before x after, text.toList = before ++ x :: after → Text.isBlank x = false →
        (start.spans (nexts quotes n)).countP (·.holds (utf8Len before)) = 1 := by
  intro start c
  have hreach : start.Reaches c := start.reaches_steps ss
  have hzero (n : Nat) : start.position.offset + n = n := Nat.zero_add n
  refine ⟨start.pairwise_spans ss, fun a ha => (start.spans_between ss ha).2.2, hreach,
    hreach.offset_add_rest, ?_, c.exists_passes, fun h ss' => steps_of_rest_eq_nil h ss', ?_⟩
  · intro before x after hr hx
    simpa only [hzero] using start.countP_holds ss hr hx
  · intro quotes
    obtain ⟨n, hn, hall, hend⟩ := start.exists_isEnd quotes
    refine ⟨n, String.length_toList ▸ hn, hall, hend, ?_⟩
    intro before x after hr hx
    have hpassed := (start.reaches_steps (nexts quotes n)).passed_or_mem hr
    have hcount := start.countP_holds (nexts quotes n) hr hx
    rcases hpassed with hlt | hmem
    · rwa [if_pos hlt, hzero] at hcount
    · rw [isBlank_of_isEnd (hend true) hmem] at hx
      cases hx

end Cursor
end TemplateSyntax
