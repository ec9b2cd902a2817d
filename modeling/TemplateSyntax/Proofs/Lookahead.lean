import TemplateSyntax.Proofs.Cursor
import Mathlib.Data.List.TakeWhile

/-!
# How far a token looks

A token ends where the next character cannot go on with it. So what is read depends on the
characters taken and on the one character behind them: any text that ends there or goes on with the
same character gives the same token.
-/
namespace TemplateSyntax

/-- The second text may stand in the place of the first behind a token: it is empty, or begins with
the same character. -/
def Continues (v v' : List Char) : Prop := v' = [] ∨ v'.head? = v.head?

namespace Continues
variable {v v' : List Char}

/-- The text may end. -/
theorem nil (v : List Char) : Continues v [] := .inl rfl

theorem eq_nil (h : Continues [] v') : v' = [] := by
  rcases h with h | h
  · exact h
  · exact List.head?_eq_none_iff.mp h

/-- Whatever stands before both texts alike does not matter. -/
theorem append (h : Continues v v') (w : List Char) : Continues (w ++ v) (w ++ v') := by
  cases w with
  | nil => exact h
  | cons c w => exact .inr rfl

theorem takeWhile_eq_nil (h : Continues v v') {p : Char → Bool} (hv : v.takeWhile p = []) :
    v'.takeWhile p = [] := by
  rcases h with rfl | h
  · rfl
  · cases v' with
    | nil => rfl
    | cons c cs =>
      cases v with
      | nil => simp at h
      | cons d ds =>
        obtain rfl : c = d := by simpa using h
        by_cases hc : p c
        · simp [hc] at hv
        · simp [hc]

end Continues

/-- A run of characters of a kind that ends before the cut ends there whatever continues it. -/
theorem takeWhile_append_eq {p : Char → Bool} {x v v' : List Char} (hx : (x ++ v).takeWhile p = x)
    (h : Continues v v') : (x ++ v').takeWhile p = x := by
  have hp : ∀ c ∈ x, p c = true := by
    intro c hc
    rw [← hx] at hc
    exact List.mem_takeWhile_imp hc
  rw [List.takeWhile_append_of_pos hp] at hx ⊢
  have hv : v.takeWhile p = [] := List.append_right_eq_self.mp hx
  rw [h.takeWhile_eq_nil hv, List.append_nil]

namespace Text.Quoted

theorem scan_ne_nil (quote : Char) {cs : List Char} (h : cs ≠ []) : scan quote cs ≠ [] := by
  unfold scan
  split
  · exact absurd rfl h
  · simp
  · simp
  · split <;> simp

/-- A literal that ends before the text does is closed, and ends there whatever follows. -/
theorem scan_append {quote : Char} {x v : List Char} (hx : scan quote (x ++ v) = x) (hv : v ≠ [])
    (v' : List Char) : scan quote (x ++ v') = x := by
  fun_induction scan quote x with
  | case1 => exact absurd hx (scan_ne_nil quote hv)
  | case2 =>
    obtain ⟨c, cs, rfl⟩ := List.exists_cons_of_ne_nil hv
    simp [scan] at hx
  | case3 c cs ih =>
    have hx' : scan quote (cs ++ v) = cs := by simpa [scan] using hx
    simp [scan, ih hx']
  | case4 cs h₁ h₂ =>
    have hb : quote ≠ '\\' := by
      rintro rfl
      cases cs with
      | nil => exact h₁ rfl rfl
      | cons d cs => exact h₂ d cs rfl rfl
    have hcs : cs = [] := by simpa [scan, hb] using hx
    simp [scan, hb, hcs]
  | case5 c cs h₁ h₂ hq ih =>
    have hb : c ≠ '\\' := by
      rintro rfl
      cases cs with
      | nil => exact h₁ rfl rfl
      | cons d cs => exact h₂ d cs rfl rfl
    have hx' : scan quote (cs ++ v) = cs := by simpa [scan, hb, hq] using hx
    simp [scan, hb, hq, ih hx']

end Text.Quoted

namespace Symbol

theorem length_spelling_le (s : Symbol) : s.spelling.toList.length ≤ 2 := by cases s <;> decide

theorem isPrefixOf_take (s : Symbol) (cs : List Char) :
    s.spelling.toList.isPrefixOf (cs.take 2) = s.spelling.toList.isPrefixOf cs := by
  rw [Bool.eq_iff_iff, List.isPrefixOf_iff_prefix, List.isPrefixOf_iff_prefix]
  constructor
  · intro h
    exact h.trans (List.take_prefix 2 cs)
  · intro h
    exact List.prefix_take_iff.mpr ⟨h, s.length_spelling_le⟩

/-- Two characters decide which symbol is written. -/
theorem match?_take (cs : List Char) : match? (cs.take 2) = match? cs := by
  simp only [match?, isPrefixOf_take]

/-- A symbol of one character is found without the character behind it. -/
theorem match?_singleton {c d : Char}
    (h : ∀ s, match? [c, d] = some s → s.spelling.toList = [c]) : match? [c] = match? [c, d] := by
  have hlong : ∀ s ∈ all.take 9, s.spelling.toList.length = 2 := by decide
  have hshort : ∀ s ∈ all.drop 9, s.spelling.toList.length = 1 := by decide
  have hsplit (cs : List Char) : match? cs =
      ((all.take 9).find? fun s => s.spelling.toList.isPrefixOf cs).or
        ((all.drop 9).find? fun s => s.spelling.toList.isPrefixOf cs) := by
    rw [← List.find?_append, List.take_append_drop]
    rfl
  have hone : ((all.take 9).find? fun s => s.spelling.toList.isPrefixOf [c]) = none := by
    refine List.find?_eq_none.mpr fun s hs hp => ?_
    have hle := (List.isPrefixOf_iff_prefix.mp hp).length_le
    have := hlong s hs
    simp at hle
    omega
  have htwo : ((all.take 9).find? fun s => s.spelling.toList.isPrefixOf [c, d]) = none := by
    rw [Option.eq_none_iff_forall_ne_some]
    intro s hs
    have hm : match? [c, d] = some s := by rw [hsplit, hs, Option.some_or]
    have := hlong s (List.mem_of_find?_eq_some hs)
    rw [h s hm] at this
    simp at this
  rw [hsplit, hsplit, hone, htwo, Option.none_or, Option.none_or]
  refine List.find?_congr fun s hs => ?_
  obtain ⟨e, he⟩ := List.length_eq_one_iff.mp (hshort s hs)
  simp [he, List.isPrefixOf]

/-- A symbol that ends before the cut is found whatever continues it. -/
theorem match?_append {c : Char} {x v v' : List Char}
    (hs : ∀ s, match? (c :: (x ++ v)) = some s → s.spelling.toList = c :: x)
    (h : Continues v v') (hv : v ≠ []) : match? (c :: (x ++ v')) = match? (c :: (x ++ v)) := by
  cases x with
  | cons d x =>
    rw [← match?_take, ← match?_take (c :: (d :: x ++ v))]
    rfl
  | nil =>
    obtain ⟨d, v, rfl⟩ := List.exists_cons_of_ne_nil hv
    rw [← match?_take (c :: ([] ++ d :: v))] at hs ⊢
    change match? (c :: v') = match? [c, d]
    rcases h with rfl | h
    · exact match?_singleton hs
    · obtain ⟨w, rfl⟩ := List.head?_eq_some_iff.mp h
      rw [← match?_take]
      rfl

end Symbol

namespace Piece
variable {x v v' : List Char}

/-- Digits with no point behind them. -/
theorem number_append_of_digits {ds : List Char} (hd : ∀ d ∈ ds, d.isDigit = true)
    (hv : v.takeWhile Char.isDigit = []) (hp : v.head? ≠ some '.') :
    number (ds ++ v) = number ds := by
  have hdrop : v.dropWhile Char.isDigit = v := by
    have h := List.takeWhile_append_dropWhile (p := Char.isDigit) (l := v)
    rwa [hv] at h
  have hnil : ds.dropWhile Char.isDigit = [] := List.dropWhile_eq_nil_iff.mpr hd
  have hself : ds.takeWhile Char.isDigit = ds := List.takeWhile_eq_self_iff.mpr hd
  unfold number
  rw [List.takeWhile_append_of_pos hd, List.dropWhile_append_of_pos hd, hv, hdrop, hnil, hself,
    List.append_nil]
  cases v with
  | nil => rfl
  | cons c cs =>
    have hc : c ≠ '.' := by simpa using hp
    split
    · next h => exact absurd (List.cons.inj h).1 hc
    · rfl

/-- Digits, a point, and more digits. -/
theorem number_append_of_point {ds fs : List Char} (hd : ∀ d ∈ ds, d.isDigit = true)
    (hf : ∀ d ∈ fs, d.isDigit = true) (hv : v.takeWhile Char.isDigit = []) :
    number (ds ++ '.' :: (fs ++ v)) = number (ds ++ '.' :: fs) := by
  have hpoint (rest : List Char) : ('.' :: rest).takeWhile Char.isDigit = [] ∧
      ('.' :: rest).dropWhile Char.isDigit = '.' :: rest := by
    constructor <;> simp [Char.isDigit]
  have hself : fs.takeWhile Char.isDigit = fs := List.takeWhile_eq_self_iff.mpr hf
  unfold number
  rw [List.takeWhile_append_of_pos hd, List.dropWhile_append_of_pos hd,
    List.takeWhile_append_of_pos hd, List.dropWhile_append_of_pos hd]
  simp only [hpoint, List.takeWhile_append_of_pos hf, hv, hself, List.append_nil]

theorem number_append (hx : (number (x ++ v)).taken = x) (h : Continues v v') :
    number (x ++ v') = number (x ++ v) := by
  have hwhole := List.takeWhile_append_dropWhile (p := Char.isDigit) (l := x ++ v)
  have hd : ∀ d ∈ (x ++ v).takeWhile Char.isDigit, d.isDigit = true := fun d hd =>
    List.mem_takeWhile_imp hd
  rw [taken_number] at hx
  generalize (x ++ v).takeWhile Char.isDigit = ds at hx hwhole hd
  split at hx
  · next rest hr =>
    have hf : ∀ d ∈ rest.takeWhile Char.isDigit, d.isDigit = true := fun d hd =>
      List.mem_takeWhile_imp hd
    have hrest : rest = rest.takeWhile Char.isDigit ++ v := by
      rw [hr, ← hx, List.append_assoc, List.cons_append] at hwhole
      exact (List.cons.inj (List.append_cancel_left hwhole)).2
    have hv : v.takeWhile Char.isDigit = [] := by
      have hself : (rest.takeWhile Char.isDigit ++ v).takeWhile Char.isDigit =
          rest.takeWhile Char.isDigit := by rw [← hrest]
      rw [List.takeWhile_append_of_pos hf] at hself
      exact List.append_right_eq_self.mp hself
    rw [← hx, List.append_assoc, List.append_assoc, List.cons_append, List.cons_append,
      number_append_of_point hd hf hv, number_append_of_point hd hf (h.takeWhile_eq_nil hv)]
  · next hpoint =>
    subst hx
    have hdrop : (ds ++ v).dropWhile Char.isDigit = v := List.append_cancel_left hwhole
    have hv : v.takeWhile Char.isDigit = [] := by
      have hself := List.takeWhile_append_dropWhile (p := Char.isDigit) (l := v)
      rw [List.dropWhile_append_of_pos hd] at hdrop
      rw [hdrop] at hself
      exact List.append_left_eq_self.mp hself
    have hp : v.head? ≠ some '.' := by
      intro hp
      obtain ⟨rest, hr⟩ := List.head?_eq_some_iff.mp hp
      exact hpoint rest (hdrop.trans hr)
    have hp' : v'.head? ≠ some '.' := by
      rcases h with h | h
      · simp [h]
      · rwa [h]
    rw [number_append_of_digits hd hv hp, number_append_of_digits hd (h.takeWhile_eq_nil hv) hp']

/-- A piece that ends before the cut is the same whatever continues it. -/
theorem first_append {quotes : Bool} (hx : (first quotes (x ++ v)).taken = x)
    (h : Continues v v') : first quotes (x ++ v') = first quotes (x ++ v) := by
  by_cases hv : v = []
  · subst hv
    rw [h.eq_nil]
  cases x with
  | nil => exact absurd hx (taken_first_ne_nil quotes (by simpa using hv))
  | cons c x =>
    simp only [List.cons_append, first] at hx ⊢
    split
    · next hq =>
      rw [if_pos hq] at hx
      have hs : Text.Quoted.scan c (x ++ v) = x := by simpa [string] using hx
      simp only [string, hs, Text.Quoted.scan_append hs hv v']
    · next hq =>
      rw [if_neg hq] at hx
      split
      · next hd =>
        rw [if_pos hd] at hx
        exact number_append (x := c :: x) hx h
      · next hd =>
        rw [if_neg hd] at hx
        split
        · next hi =>
          rw [if_pos hi] at hx
          have ht : (x ++ v).takeWhile Text.continuesIdentifier = x := by
            simpa [identifier] using hx
          simp only [identifier, ht, takeWhile_append_eq ht h]
        · next hi =>
          rw [if_neg hi] at hx
          have hs (s : Symbol) (hs : Symbol.match? (c :: (x ++ v)) = some s) :
              s.spelling.toList = c :: x := by simpa [hs] using hx
          rw [Symbol.match?_append hs h hv]

end Piece

/-! ## Text and what opens behind it -/

theorem opensTag_take (cs : List Char) : opensTag (cs.take 2) = opensTag cs := by
  have h (s : Symbol) :
      s.spelling.toList.isPrefixOf (cs.take 2) = s.spelling.toList.isPrefixOf cs :=
    Symbol.isPrefixOf_take s cs
  simp only [opensTag, h]

/-- The symbols that open a tag or a placeable. -/
def Symbol.Opens (s : Symbol) : Prop := s = .beginPut ∨ s = .beginTag

namespace Symbol.Opens
variable {s : Symbol}

/-- Both are a brace and one more character. -/
theorem spelling_eq (hs : s.Opens) : ∃ d, s.spelling.toList = ['\x7b', d] := by
  rcases hs with rfl | rfl
  · exact ⟨'\x7b', by decide⟩
  · exact ⟨'%', by decide⟩

theorem match?_append (hs : s.Opens) (rest : List Char) :
    match? (s.spelling.toList ++ rest) = some s := by
  obtain ⟨d, hd⟩ := hs.spelling_eq
  rw [← match?_take, List.take_left' (by simp [hd])]
  rcases hs with rfl | rfl <;> decide

end Symbol.Opens

/-- A tag or a placeable opens with its symbol. -/
theorem exists_of_opensTag {cs : List Char} (h : opensTag cs = true) :
    ∃ s : Symbol, s.Opens ∧ ∃ rest, cs = s.spelling.toList ++ rest := by
  simp only [opensTag, List.any_cons, List.any_nil, Bool.or_false, Bool.or_eq_true,
    List.isPrefixOf_iff_prefix] at h
  rcases h with ⟨rest, h⟩ | ⟨rest, h⟩
  · exact ⟨.beginPut, .inl rfl, rest, h.symm⟩
  · exact ⟨.beginTag, .inr rfl, rest, h.symm⟩

/-- No other token begins like a symbol. -/
theorem Piece.first_of_match? {s : Symbol} {rest : List Char}
    (h : Symbol.match? (s.spelling.toList ++ rest) = some s) (quotes : Bool) :
    Piece.first quotes (s.spelling.toList ++ rest) = ⟨s.spelling.toList, .ok (.symbol s)⟩ := by
  obtain ⟨c, cs, hc, hquote, hdigit, hname⟩ : ∃ c cs, s.spelling.toList = c :: cs ∧
      Text.Quoted.isQuote c = false ∧ c.isDigit = false ∧ Text.startsIdentifier c = false := by
    cases s <;> exact ⟨_, _, rfl, by decide, by decide, by decide⟩
  rw [hc] at h ⊢
  simp only [List.cons_append] at h ⊢
  simp [Piece.first, hquote, hdigit, hname, h, hc]

/-- Where a symbol opens a tag or a placeable, that symbol is the next token. -/
theorem Piece.first_of_opens {s : Symbol} (hs : s.Opens) (quotes : Bool) (rest : List Char) :
    Piece.first quotes (s.spelling.toList ++ rest) = ⟨s.spelling.toList, .ok (.symbol s)⟩ :=
  first_of_match? (hs.match?_append rest) quotes

namespace Cursor
variable {c : Cursor}

/-- What opens a tag or a placeable is read at once, without blanks before it. -/
theorem nextPiece_of_opensTag (quotes : Bool) (h : opensTag c.rest = true) :
    c.skipBlanks = c ∧ ∃ s : Symbol, s.Opens ∧
      c.nextPiece quotes = ⟨s.spelling.toList, .ok (.symbol s)⟩ := by
  obtain ⟨s, hs, rest, hr⟩ := exists_of_opensTag h
  obtain ⟨d, hd⟩ := hs.spelling_eq
  have hblank : Text.isBlank '\x7b' = false := by decide
  have hnone : c.rest.takeWhile Text.isBlank = [] := by simp [hr, hd, hblank]
  have hskip : c.skipBlanks = c := by rw [skipBlanks, hnone]; rfl
  refine ⟨hskip, s, hs, ?_⟩
  rw [nextPiece, hskip, hr, Piece.first_of_opens hs]

end Cursor

/-- Text ends at the same place if the two characters behind it stay the same. -/
theorem textRun_append {run y y' : List Char} (h : textRun (run ++ y) = run)
    (hy : y'.take 2 = y.take 2) : textRun (run ++ y') = run := by
  induction run with
  | nil =>
    cases y with
    | nil =>
      obtain rfl : y' = [] := by simpa using hy
      rfl
    | cons c y =>
      cases y' with
      | nil => rfl
      | cons c' y' =>
        have ho : opensTag (c :: y) = true := by
          by_contra ho
          simp [textRun, ho] at h
        have ho' : opensTag (c' :: y') = true := by
          rw [← opensTag_take, hy, opensTag_take, ho]
        simp [textRun, ho']
  | cons c run ih =>
    have htwo : (c :: (run ++ y')).take 2 = (c :: (run ++ y)).take 2 := by
      cases run with
      | cons d run => rfl
      | nil =>
        have hone : y'.take 1 = y.take 1 := by
          have := congrArg (List.take 1) hy
          simpa [List.take_take] using this
        simpa using hone
    have hopens : opensTag (c :: (run ++ y')) = opensTag (c :: (run ++ y)) := by
      rw [← opensTag_take, htwo, opensTag_take]
    rw [List.cons_append, textRun] at h ⊢
    rw [hopens]
    by_cases ho : opensTag (c :: (run ++ y)) = true
    · simp [ho] at h
    · rw [if_neg ho] at h ⊢
      rw [ih (List.cons.inj h).2]

theorem textRun_of_opensTag {v : List Char} (h : opensTag v = true) : textRun v = [] := by
  cases v with
  | nil => rfl
  | cons c v => rw [textRun, if_pos h]

/-- Text goes on with the text behind it, unless a brace at its end opens something there. -/
theorem textRun_append_of_text {w v : List Char} (hw : textRun w = w)
    (hseam : w.getLast? ≠ some '\x7b' ∨ v.head? = some ' ') :
    textRun (w ++ v) = w ++ textRun v := by
  induction w with
  | nil => rfl
  | cons c w ih =>
    have hself : ¬ opensTag (c :: w) = true := by
      intro ho
      rw [textRun_of_opensTag ho] at hw
      cases hw
    have hno : ¬ opensTag (c :: (w ++ v)) = true := by
      cases w with
      | cons d w => rwa [← opensTag_take] at hself ⊢
      | nil =>
        intro ho
        obtain ⟨s, hs, rest, hr⟩ := exists_of_opensTag ho
        rcases hseam with hlast | hblank
        · obtain ⟨d, hd⟩ := hs.spelling_eq
          rw [hd] at hr
          exact hlast (by rw [(List.cons.inj hr).1]; rfl)
        · cases v with
          | nil => cases hblank
          | cons d v =>
            obtain rfl : d = ' ' := Option.some.inj hblank
            rcases hs with rfl | rfl <;> simp [Symbol.spelling] at hr
    have hw' : textRun w = w := by
      rw [textRun, if_neg hself] at hw
      exact (List.cons.inj hw).2
    have hseam' : w.getLast? ≠ some '\x7b' ∨ v.head? = some ' ' := by
      refine hseam.imp (fun hlast => ?_) id
      cases w with
      | nil => simp
      | cons d w => rwa [List.getLast?_cons_cons] at hlast
    rw [List.cons_append, textRun, if_neg hno, ih hw' hseam', List.cons_append]

/-! ## Cuts -/

namespace Cursor
variable {c : Cursor} {w v v' : List Char}

/-- The same place before another text. -/
def before (c : Cursor) (rest : List Char) : Cursor := ⟨c.position, rest⟩

@[simp] theorem before_position (c : Cursor) (rest : List Char) :
    (c.before rest).position = c.position := rfl

@[simp] theorem before_rest (c : Cursor) (rest : List Char) : (c.before rest).rest = rest := rfl

/-- A rest that has not come to the cut still ends with what is behind the cut. -/
theorem Reaches.exists_append {d : Cursor} (h : c.Reaches d) (hc : c.rest = w ++ v)
    (hle : v.length ≤ d.rest.length) : ∃ x, d.rest = x ++ v := by
  obtain ⟨taken, hr, -⟩ := h
  have hd : d.rest <:+ w ++ v := ⟨taken, by rw [← hr, hc]⟩
  obtain ⟨x, hx⟩ := List.suffix_of_suffix_length_le (List.suffix_append w v) hd hle
  exact ⟨x, hx.symm⟩

/-- A token that ends before the cut is the same whatever continues the text there. -/
theorem next_append {quotes : Bool} (hc : c.rest = w ++ v) (h : Continues v v')
    (hle : v.length ≤ (c.behindNext quotes).rest.length) :
    ∃ x, (c.behindNext quotes).rest = x ++ v ∧
      (c.before (w ++ v')).next quotes =
        ((c.next quotes).1, (c.behindNext quotes).before (x ++ v')) := by
  obtain ⟨x, hx⟩ := (c.reaches_behindNext quotes).exists_append hc hle
  refine ⟨x, hx, ?_⟩
  -- The text is blanks, the token, and what follows it up to the cut.
  let blanks := c.rest.takeWhile Text.isBlank
  let taken := (c.nextPiece quotes).taken
  have hblanks : c.rest = blanks ++ c.skipBlanks.rest :=
    rest_eq_append_past (List.takeWhile_prefix _)
  have htaken : c.skipBlanks.rest = taken ++ (x ++ v) := by
    rw [c.skipBlanks_rest_eq quotes, hx]
  have hw : w = blanks ++ (taken ++ x) := by
    have : w ++ v = (blanks ++ (taken ++ x)) ++ v := by
      rw [← hc, hblanks, htaken]
      simp only [List.append_assoc]
    exact List.append_cancel_right this
  have hskip : (c.before (w ++ v')).skipBlanks =
      c.skipBlanks.before (taken ++ (x ++ v')) := by
    have hrun : (blanks ++ ((taken ++ x) ++ v)).takeWhile Text.isBlank = blanks := by
      rw [List.append_assoc, ← htaken, ← hblanks]
    have hrun' := takeWhile_append_eq hrun (h.append (taken ++ x))
    have htext : w ++ v' = blanks ++ ((taken ++ x) ++ v') := by rw [hw, List.append_assoc]
    simp only [skipBlanks, past, before, htext, hrun', List.drop_left]
    rw [List.append_assoc]
  have hpiece : (c.before (w ++ v')).nextPiece quotes = c.nextPiece quotes := by
    have hfirst : (Piece.first quotes (taken ++ (x ++ v))).taken = taken := by rw [← htaken]; rfl
    rw [nextPiece, hskip, before_rest, Piece.first_append hfirst (h.append x), ← htaken]
    rfl
  have hbehind : (c.before (w ++ v')).behindNext quotes =
      (c.behindNext quotes).before (x ++ v') := by
    rw [behindNext, hpiece, hskip]
    simp only [past, before, taken, List.drop_left]
    rfl
  have hspan : (c.before (w ++ v')).nextSpan quotes = c.nextSpan quotes := by
    rw [nextSpan, hskip, hbehind]
    rfl
  rw [next_eq, next_eq, hpiece, hspan, hbehind]
  split <;> rfl

/-- Text ends at the same place whatever continues the source behind a cut, if the token behind the
text ends before the cut. -/
theorem text_append (hc : c.rest = w ++ v) (hv : v ≠ [])
    (hle : v.length ≤ (c.behindText.behindNext true).rest.length) :
    ∃ y ≠ [], c.behindText.rest = y ++ v ∧ ∀ v', textRun (w ++ v') = textRun c.rest ∧
      (c.before (w ++ v')).behindText = c.behindText.before (y ++ v') := by
  have hnext := c.behindText.reaches_behindNext true
  have hopens : opensTag c.behindText.rest = true := by
    refine c.behindText_rest.resolve_left fun hnil => ?_
    have := hnext.length_le
    have := List.length_pos_iff.mpr hv
    simp only [hnil, List.length_nil] at *
    omega
  obtain ⟨hskip, s, hs, hpiece⟩ := nextPiece_of_opensTag true hopens
  obtain ⟨d, hd⟩ := hs.spelling_eq
  obtain ⟨x, hx⟩ := (c.reaches_behindText.trans hnext).exists_append hc hle
  have hrest : c.behindText.rest = s.spelling.toList ++ (x ++ v) := by
    rw [← hx]
    have := c.behindText.skipBlanks_rest_eq true
    rwa [hskip, hpiece] at this
  have hw : w = textRun c.rest ++ (s.spelling.toList ++ x) := by
    have : w ++ v = textRun c.rest ++ (s.spelling.toList ++ x) ++ v := by
      rw [← hc, List.append_assoc, List.append_assoc, ← hrest]
      exact c.rest_eq_textRun_append
    exact List.append_cancel_right this
  refine ⟨s.spelling.toList ++ x, by simp [hd], by rw [hrest, List.append_assoc], fun v' => ?_⟩
  have hrun : textRun (w ++ v') = textRun c.rest := by
    have hself : textRun (textRun c.rest ++ c.behindText.rest) = textRun c.rest := by
      rw [← rest_eq_textRun_append]
    have htwo : (s.spelling.toList ++ (x ++ v')).take 2 = c.behindText.rest.take 2 := by
      rw [hrest, hd]
      rfl
    nth_rewrite 1 [hw]
    rw [List.append_assoc, List.append_assoc]
    exact textRun_append hself htwo
  refine ⟨hrun, ?_⟩
  have hdrop : (w ++ v').drop (textRun c.rest).length = s.spelling.toList ++ x ++ v' := by
    nth_rewrite 1 [hw]
    rw [List.append_assoc, List.drop_left]
  simp only [behindText, past, before, hrun, hdrop]

end Cursor
end TemplateSyntax
