import TemplateSyntax.Proofs.Lookahead
import TemplateSyntax.Proofs.DraftLanding
import TemplateSyntax.Proofs.Terminals

/-!
# Texts that go on

What was read stays read when the text goes on with a blank or a brace: neither grows into the token
before it, except that a single brace becomes the opening of a tag or a placeable and a string that
is still open goes on. So every phrase of the grammar is found again in the longer text.
-/
namespace TemplateSyntax

/-- A text that does not grow into a token before it: it is empty, or begins with a blank or a
brace. -/
def Apart (v : List Char) : Prop := v = [] ∨ v.head? = some ' ' ∨ v.head? = some '\x7b'

namespace Apart
variable {v : List Char}

theorem nil : Apart [] := .inl rfl

theorem blank (v : List Char) : Apart (' ' :: v) := .inr (.inl rfl)

theorem takeWhile_eq_nil (h : Apart v) {p : Char → Bool} (hb : p ' ' = false)
    (ho : p '\x7b' = false) : v.takeWhile p = [] := by
  rcases h with rfl | h | h
  · rfl
  · obtain ⟨w, rfl⟩ := List.head?_eq_some_iff.mp h
    simp [hb]
  · obtain ⟨w, rfl⟩ := List.head?_eq_some_iff.mp h
    simp [ho]

theorem take_one (h : Apart v) : v.take 1 = [] ∨ v.take 1 = [' '] ∨ v.take 1 = ['\x7b'] := by
  rcases h with rfl | h | h
  · exact .inl rfl
  · obtain ⟨w, rfl⟩ := List.head?_eq_some_iff.mp h
    exact .inr (.inl rfl)
  · obtain ⟨w, rfl⟩ := List.head?_eq_some_iff.mp h
    exact .inr (.inr rfl)

end Apart

/-- A text that does not grow into a name or a number before it. -/
structure Bounds (v : List Char) : Prop where
  digit : v.takeWhile Char.isDigit = []
  point : v.head? ≠ some '.'
  name : v.takeWhile Text.continuesIdentifier = []

theorem Apart.bounds {v : List Char} (h : Apart v) : Bounds v where
  digit := h.takeWhile_eq_nil (by decide) (by decide)
  point := by
    rcases h with rfl | h | h
    · simp
    · simp [h]
    · simp [h]
  name := h.takeWhile_eq_nil (by decide) (by decide)

/-- A token that stays as it is when the text goes on behind it. -/
def Token.Firm : Token → Prop
  | symbol s => s ≠ .openBrace
  | string raw => Text.Quoted.IsLiteral raw
  | endOfSource => False
  | _ => True

theorem Text.Quoted.scan_of_closes {quote : Char} (hq : isQuote quote) {cs : List Char}
    (h : Closes quote cs) (v : List Char) : scan quote (cs ++ v) = cs := by
  have hne : quote ≠ '\\' := by
    rintro rfl
    exact absurd hq (by decide)
  induction h with
  | close => simp [scan, hne]
  | plain hb hq' _ ih => simp [scan, hb, hq', ih]
  | escape _ _ ih => simp [scan, ih]

/-- No symbol but the single brace goes on with a blank or a brace. -/
theorem Symbol.match?_apart {s : Symbol} (hs : s ≠ .openBrace) {v : List Char} (hv : Apart v) :
    match? (s.spelling.toList ++ v) = some s := by
  have htwo : match? (s.spelling.toList ++ v) =
      match? ((s.spelling.toList ++ v.take 1).take 2) := by
    rw [← match?_take]
    cases s <;> cases v <;> rfl
  rw [htwo]
  rcases hv.take_one with h | h | h
  · rw [h]
    cases s <;> decide
  · rw [h]
    cases s <;> decide
  · rw [h]
    cases s <;> first | decide | exact absurd rfl hs

namespace Piece
variable {x v : List Char}

/-- A number that is a whole text is digits, perhaps with a point and more digits. -/
theorem digits_of_number (hx : (number x).taken = x) : (∀ d ∈ x, d.isDigit = true) ∨
    ∃ ds fs, x = ds ++ '.' :: fs ∧ (∀ d ∈ ds, d.isDigit = true) ∧ ∀ d ∈ fs, d.isDigit = true := by
  rw [taken_number] at hx
  split at hx
  · next rest _ =>
    exact .inr ⟨_, _, hx.symm, fun _ hd => List.mem_takeWhile_imp hd,
      fun _ hd => List.mem_takeWhile_imp hd⟩
  · exact .inl (List.takeWhile_eq_self_iff.mp hx)

theorem number_bounds (hx : (number x).taken = x) (hv : Bounds v) :
    number (x ++ v) = number x := by
  rcases digits_of_number hx with hd | ⟨ds, fs, rfl, hd, hf⟩
  · exact number_append_of_digits hd hv.digit hv.point
  · rw [List.append_assoc, List.cons_append]
    exact number_append_of_point hd hf hv.digit

/-- A token that is a whole text is still read when the text goes on and does not grow into it. -/
theorem first_bounds {t : Token} (h : first true x = ⟨x, .ok t⟩) (hx : x ≠ []) (hv : Bounds v)
    (hstring : ∀ quote inside, x = quote :: inside → t = .string (String.ofList x) →
      Text.Quoted.isQuote quote = true → Text.Quoted.scan quote (inside ++ v) = inside)
    (hsymbol : ∀ s, t = .symbol s → Symbol.match? (s.spelling.toList ++ v) = some s) :
    first true (x ++ v) = ⟨x, .ok t⟩ := by
  obtain ⟨c, x, rfl⟩ := List.exists_cons_of_ne_nil hx
  simp only [List.cons_append, first, Bool.true_and] at h ⊢
  split
  · next hq =>
    rw [if_pos hq] at h
    obtain ⟨hx, hraw⟩ := Piece.mk.inj h
    cases hraw
    rw [hx] at hstring ⊢
    rw [string, hstring c x rfl rfl hq]
  · next hq =>
    rw [if_neg hq] at h
    split
    · next hd =>
      rw [if_pos hd] at h
      rw [← h]
      exact number_bounds (x := c :: x) (by rw [h]) hv
    · next hd =>
      rw [if_neg hd] at h
      split
      · next hi =>
        rw [if_pos hi] at h
        have hx : x.takeWhile Text.continuesIdentifier = x := by
          simpa [identifier] using congrArg Piece.taken h
        have hxv : (x ++ v).takeWhile Text.continuesIdentifier = x := by
          rw [List.takeWhile_append_of_pos (List.takeWhile_eq_self_iff.mp hx), hv.name,
            List.append_nil]
        rw [← h]
        simp only [identifier, hx, hxv]
      · next hi =>
        rw [if_neg hi] at h
        split at h
        · next s hs =>
          obtain ⟨hx, hs'⟩ := Piece.mk.inj h
          cases hs'
          have hm := hsymbol s rfl
          rw [hx] at hm
          rw [← List.cons_append, hm, ← hx]
        · cases h

/-- A firm token that is a whole text is still read when the text goes on. -/
theorem first_apart {t : Token} (h : first true x = ⟨x, .ok t⟩) (ht : t.Firm) (hv : Apart v) :
    first true (x ++ v) = ⟨x, .ok t⟩ := by
  refine first_bounds h ?_ hv.bounds ?_ ?_
  · rintro rfl
    cases h
    exact ht
  · rintro quote inside rfl rfl hq
    obtain ⟨quote', inside', hraw, hc⟩ := ht
    rw [String.toList_ofList] at hraw
    cases hraw
    exact Text.Quoted.scan_of_closes hq hc v
  · rintro s rfl
    exact Symbol.match?_apart ht hv

/-- A firm token is still read when the text goes on. -/
theorem first_extend {cs : List Char} {t : Token} (h : first true (x ++ cs) = ⟨x, .ok t⟩)
    (ht : t.Firm) (hv : Apart v) : first true (x ++ (cs ++ v)) = ⟨x, .ok t⟩ := by
  cases cs with
  | nil =>
    rw [List.append_nil] at h
    exact first_apart h ht hv
  | cons c cs =>
    have hx : (first true (x ++ c :: cs)).taken = x := by rw [h]
    have hgo : Continues (c :: cs) (c :: cs ++ v) := .inr rfl
    rw [first_append hx hgo, h]

end Piece

namespace Cursor
variable {c d : Cursor} {t : Token} {v : List Char}

/-- The same place in the text that goes on. -/
def extend (c : Cursor) (v : List Char) : Cursor := c.before (c.rest ++ v)

@[simp] theorem extend_rest (c : Cursor) (v : List Char) : (c.extend v).rest = c.rest ++ v := rfl

@[simp] theorem extend_nil (c : Cursor) : c.extend [] = c := by
  rw [extend, List.append_nil]
  rfl

theorem extend_past {taken : List Char} (h : taken <+: c.rest) :
    (c.extend v).past taken = (c.past taken).extend v := by
  obtain ⟨rest, hr⟩ := h
  simp only [past, extend, before, ← hr, List.append_assoc, List.drop_left]

/-- What stands behind blanks is read, and the cursor comes to stand behind it. -/
theorem reads_of_first {blanks taken rest : List Char} (hr : c.rest = blanks ++ (taken ++ rest))
    (hb : ∀ b ∈ blanks, Text.isBlank b = true)
    (hn : (taken ++ rest).takeWhile Text.isBlank = [])
    (hf : Piece.first true (taken ++ rest) = ⟨taken, .ok t⟩) :
    c.Reads t ((c.past blanks).past taken) := by
  have hskip : c.skipBlanks = c.past blanks := skipBlanks_of_rest hr hb hn
  have hrest : (c.past blanks).rest = taken ++ rest := by rw [past_of_rest hr]
  have hpiece : c.nextPiece true = ⟨taken, .ok t⟩ := by rw [nextPiece, hskip, hrest, hf]
  refine ⟨c.nextSpan true, ?_⟩
  rw [next_eq, behindNext, hpiece, hskip]

/-- How a token was read: behind blanks, as the first piece of what follows them. -/
theorem Reads.exists_first (h : c.Reads t d) : ∃ blanks taken,
    c.rest = blanks ++ (taken ++ d.rest) ∧ (∀ b ∈ blanks, Text.isBlank b = true) ∧
      (taken ++ d.rest).takeWhile Text.isBlank = [] ∧
      Piece.first true (taken ++ d.rest) = ⟨taken, .ok t⟩ ∧ d = (c.past blanks).past taken := by
  obtain ⟨span, h⟩ := h
  obtain ⟨ht, -, rfl⟩ := next_eq_ok h
  have hskip : c.skipBlanks.rest = c.rest.dropWhile Text.isBlank := by
    have hrest : c.rest = c.rest.takeWhile Text.isBlank ++ c.skipBlanks.rest :=
      rest_eq_append_past (List.takeWhile_prefix _)
    have hsplit := List.takeWhile_append_dropWhile (p := Text.isBlank) (l := c.rest)
    exact List.append_cancel_left (hrest.symm.trans hsplit.symm)
  have htaken := c.skipBlanks_rest_eq true
  refine ⟨c.rest.takeWhile Text.isBlank, (c.nextPiece true).taken, ?_,
    fun _ hb => List.mem_takeWhile_imp hb, ?_, ?_, rfl⟩
  · rw [← htaken, hskip, List.takeWhile_append_dropWhile]
  · rw [← htaken, hskip]
    exact List.takeWhile_eq_nil_iff.mpr (List.dropWhile_get_zero_not _ _)
  · rw [← htaken, ← ht]
    rfl

/-- A firm token is still read when the text goes on, and the cursor comes to the same place. -/
theorem Reads.extend (h : c.Reads t d) (ht : t.Firm) (hv : Apart v) :
    (c.extend v).Reads t (d.extend v) := by
  obtain ⟨blanks, taken, hr, hb, hn, hf, hd⟩ := h.exists_first
  have hne : taken ≠ [] := by
    intro hnil
    rw [hnil, List.nil_append] at hf
    by_cases hd : d.rest = []
    · rw [hd] at hf
      cases hf
      exact ht
    · exact Piece.taken_first_ne_nil true hd (by rw [hf])
  obtain ⟨a, taken, rfl⟩ := List.exists_cons_of_ne_nil hne
  have hn' : (a :: taken ++ (d.rest ++ v)).takeWhile Text.isBlank = [] := by
    by_cases ha : Text.isBlank a
    · simp [ha] at hn
    · simp [ha]
  have hr' : (c.extend v).rest = blanks ++ (a :: taken ++ (d.rest ++ v)) := by
    rw [extend_rest, hr]
    simp only [List.append_assoc, List.cons_append]
  have hplace : d.extend v = ((c.extend v).past blanks).past (a :: taken) := by
    have hblanks : blanks <+: c.rest := ⟨_, hr.symm⟩
    have htaken : a :: taken <+: (c.past blanks).rest :=
      ⟨d.rest, by rw [past, hr, List.drop_left]⟩
    rw [extend_past hblanks, extend_past htaken, ← hd]
  rw [hplace]
  exact reads_of_first hr' hb hn' (Piece.first_extend hf ht hv)

theorem ReadsSymbol.extend {s : Symbol} (h : c.ReadsSymbol s d) (hs : s ≠ .openBrace)
    (hv : Apart v) : (c.extend v).ReadsSymbol s (d.extend v) := Reads.extend h hs hv

theorem ReadsWord.extend {k : Keyword} (h : c.ReadsWord k d) (hv : Apart v) :
    (c.extend v).ReadsWord k (d.extend v) := Reads.extend h trivial hv

theorem ReadsName.extend (h : c.ReadsName d) (hv : Apart v) :
    (c.extend v).ReadsName (d.extend v) := by
  obtain ⟨name, h⟩ := h
  exact ⟨name, h.extend trivial hv⟩

/-- An opening stays where it is. -/
theorem Opens.extend {s : Symbol} (h : c.Opens s d) (hs : s ≠ .openBrace) (hv : Apart v) :
    (c.extend v).Opens s (d.extend v) :=
  ⟨h.1.trans (List.prefix_append _ _), h.2.extend hs hv⟩

/-- Text that ends before an opening ends there too when the source goes on. -/
theorem behindText_extend (h : opensTag c.behindText.rest = true) :
    (c.extend v).behindText = c.behindText.extend v := by
  obtain ⟨s, hs, rest, hr⟩ := exists_of_opensTag h
  obtain ⟨a, ha⟩ := hs.spelling_eq
  have hrun : textRun (textRun c.rest ++ (c.behindText.rest ++ v)) = textRun c.rest := by
    have hself : textRun (textRun c.rest ++ c.behindText.rest) = textRun c.rest := by
      rw [← rest_eq_textRun_append]
    refine textRun_append hself ?_
    rw [hr, ha]
    rfl
  have hsplit : (c.extend v).rest = textRun c.rest ++ (c.behindText.rest ++ v) := by
    rw [extend_rest, ← List.append_assoc, ← rest_eq_textRun_append]
  rw [behindText, hsplit, hrun, extend_past (prefix_textRun _)]
  rfl

end Cursor

section Phrases
variable {v : List Char}

theorem Operator.WrittenAs.firm {op : Operator} {t : Token} (h : op.WrittenAs t) : t.Firm := by
  cases h with
  | symbol h =>
    rintro rfl
    cases op <;> exact absurd h (by decide)
  | word _ => trivial

theorem Items.extend {item : Cursor → Cursor → Prop} (hv : Apart v)
    (hi : ∀ c d, item c d → item (c.extend v) (d.extend v)) {c d : Cursor} (h : Items item c d) :
    Items item (c.extend v) (d.extend v) := by
  induction h with
  | close h => exact .close (h.extend (by decide) hv)
  | last hx h => exact .last (hi _ _ hx) (h.extend (by decide) hv)
  | more hx hc _ ih => exact .more (hi _ _ hx) (hc.extend (by decide) hv) ih

theorem Optionally.extend {G : Cursor → Cursor → Prop}
    (hG : ∀ c d, G c d → G (c.extend v) (d.extend v)) {c d : Cursor} (h : Optionally G c d) :
    Optionally G (c.extend v) (d.extend v) := by
  rcases h with rfl | h
  · exact .inl rfl
  · exact .inr (hG c d h)

namespace Phrase

/-- The first token of a phrase is firm. -/
theorem Derives.firm {p : Phrase} {n : Nat} {c d : Cursor} (h : Derives p n c d) :
    ∃ t e, c.Reads t e ∧ t.Firm := by
  induction h with
  | number h => exact ⟨_, _, h, trivial⟩
  | string h hl => exact ⟨_, _, h, hl⟩
  | name h =>
    obtain ⟨name, h⟩ := h
    exact ⟨_, _, h, trivial⟩
  | parens ho => exact ⟨_, _, ho, nofun⟩
  | sign hs =>
    rcases hs with hs | hs
    · exact ⟨_, _, hs, nofun⟩
    · exact ⟨_, _, hs, trivial⟩
  | noArgument h => exact ⟨_, _, h, nofun⟩
  | primary _ ih => exact ih
  | member _ _ _ ih => exact ih
  | call _ _ _ ih _ => exact ih
  | term _ _ ih => exact ih
  | operand _ ih => exact ih
  | binary _ _ _ _ _ ih _ => exact ih
  | filter _ _ _ ih _ => exact ih
  | lastArgument _ _ ih => exact ih
  | argument _ _ _ ih _ => exact ih

/-- A phrase is found again when the text goes on. -/
theorem Derives.extend {p : Phrase} {n : Nat} {c d : Cursor} (h : Derives p n c d)
    (hv : Apart v) : Derives p n (c.extend v) (d.extend v) := by
  induction h with
  | number h => exact .number (h.extend trivial hv)
  | string h hl => exact .string (h.extend hl hv) hl
  | name h => exact .name (h.extend hv)
  | parens ho _ hc ih => exact .parens (ho.extend (by decide) hv) ih (hc.extend (by decide) hv)
  | primary _ ih => exact .primary ih
  | member _ hd hn ih => exact .member ih (hd.extend (by decide) hv) (hn.extend hv)
  | call _ ho _ ih iha => exact .call ih (ho.extend (by decide) hv) iha
  | term hn h ih =>
    obtain ⟨t, e, hr, ht⟩ := h.firm
    refine .term (fun f hf => hn e ?_) ih
    obtain ⟨rfl, -⟩ := (hr.extend ht hv).unique hf
    exact hr
  | sign hs _ ih =>
    refine .sign ?_ ih
    rcases hs with hs | hs
    · exact .inl (hs.extend (by decide) hv)
    · exact .inr (hs.extend hv)
  | operand _ ih => exact .operand ih
  | binary _ ht hop hb _ ihl ihr => exact .binary ihl (ht.extend hop.firm hv) hop hb ihr
  | filter _ hb _ ihl iht => exact .filter ihl (hb.extend (by decide) hv) iht
  | noArgument h => exact .noArgument (h.extend (by decide) hv)
  | lastArgument _ h ih => exact .lastArgument ih (h.extend (by decide) hv)
  | argument _ hc _ ih ihs => exact .argument ih (hc.extend (by decide) hv) ihs

end Phrase

variable {n : Nat} {c d : Cursor}

theorem Expression.Spans.extend (h : Spans n c d) (hv : Apart v) :
    Spans n (c.extend v) (d.extend v) := by
  obtain ⟨pending, h⟩ := h
  exact ⟨pending, h.extend hv⟩

theorem Expression.SpansArguments.extend (h : SpansArguments n c d) (hv : Apart v) :
    SpansArguments n (c.extend v) (d.extend v) := by
  obtain ⟨m, e, hn, ho, ha⟩ := h
  exact ⟨m, e.extend v, hn, ho.extend (by decide) hv, ha.extend hv⟩

theorem SpansNames.extend (h : SpansNames c d) (hv : Apart v) :
    SpansNames (c.extend v) (d.extend v) := by
  induction h with
  | one h => exact .one (h.extend hv)
  | more _ hc hn ih => exact .more ih (hc.extend (by decide) hv) (hn.extend hv)

theorem SpansFilters.extend (h : SpansFilters n c d) (hv : Apart v) :
    SpansFilters n (c.extend v) (d.extend v) := by
  induction h with
  | none => exact .none
  | more _ hb ht ih => exact .more ih (hb.extend (by decide) hv) (ht.extend hv)

theorem SpansPlaceable.extend (h : SpansPlaceable n c d) (hv : Apart v) :
    SpansPlaceable n (c.extend v) (d.extend v) := by
  obtain ⟨pending, e, f, he, hf, hd⟩ := h
  exact ⟨pending, e.extend v, f.extend v, he.extend hv, hf.extend hv, hd.extend (by decide) hv⟩

theorem SpansLast.extend (h : SpansLast n c d) (hv : Apart v) :
    SpansLast n (c.extend v) (d.extend v) := by
  obtain ⟨e, he, hd⟩ := h
  exact ⟨e.extend v, he.extend hv, hd.extend (by decide) hv⟩

theorem SpansLoopHead.extend (h : SpansLoopHead n c d) (hv : Apart v) :
    SpansLoopHead n (c.extend v) (d.extend v) := by
  obtain ⟨e, f, g, h, he, hf, hg, hc, hd⟩ := h
  refine ⟨e.extend v, f.extend v, g.extend v, h.extend v, he.extend hv, hf.extend hv, hg.extend hv,
    hc.extend ?_, hd.extend (by decide) hv⟩
  rintro g h ⟨k, hk, hh⟩
  exact ⟨k.extend v, hk.extend hv, hh.extend hv⟩

theorem SpansAssignment.extend (h : SpansAssignment n c d) (hv : Apart v) :
    SpansAssignment n (c.extend v) (d.extend v) := by
  obtain ⟨e, f, he, hf, hd⟩ := h
  exact ⟨e.extend v, f.extend v, he.extend hv, hf.extend (by decide) hv, hd.extend hv⟩

theorem SpansParameter.extend (h : SpansParameter n c d) (hv : Apart v) :
    SpansParameter n (c.extend v) (d.extend v) := by
  obtain ⟨e, he, hd⟩ := h
  refine ⟨e.extend v, he.extend hv, hd.extend ?_⟩
  rintro e d ⟨f, hf, hd⟩
  exact ⟨f.extend v, hf.extend (by decide) hv, hd.extend hv⟩

theorem SpansMacroHead.extend (h : SpansMacroHead n c d) (hv : Apart v) :
    SpansMacroHead n (c.extend v) (d.extend v) := by
  obtain ⟨e, f, g, he, hf, hg, hd⟩ := h
  exact ⟨e.extend v, f.extend v, g.extend v, he.extend hv, hf.extend (by decide) hv,
    hg.extend hv fun _ _ h => h.extend hv, hd.extend (by decide) hv⟩

theorem SpansCallHead.extend (h : SpansCallHead n c d) (hv : Apart v) :
    SpansCallHead n (c.extend v) (d.extend v) := by
  obtain ⟨e, f, he, hf, hd⟩ := h
  exact ⟨e.extend v, f.extend v, he.extend hv, hf.extend fun _ _ h => h.extend hv,
    hd.extend (by decide) hv⟩

theorem SpansBlockHead.extend {name : String} (h : SpansBlockHead name c d) (hv : Apart v) :
    SpansBlockHead name (c.extend v) (d.extend v) := by
  obtain ⟨e, he, hd⟩ := h
  exact ⟨e.extend v, he.extend trivial hv, hd.extend (by decide) hv⟩

theorem SpansBlockEnd.extend {name : String} (h : SpansBlockEnd name c d) (hv : Apart v) :
    SpansBlockEnd name (c.extend v) (d.extend v) := by
  obtain ⟨e, he, hd⟩ := h
  exact ⟨e.extend v, he.extend fun _ _ h => h.extend trivial hv, hd.extend (by decide) hv⟩

end Phrases

namespace Passage
variable {p : Passage} {n k : Nat} {c d : Cursor} {v : List Char}

/-- What is left of a passage when the text goes on. Contents that end in text are found up to where
that text begins, since it may go on too. -/
def Extends (v : List Char) : Passage → (levels parents : Nat) → Cursor → Cursor → Prop
  | contents, n, k, c, d => ∃ e, (d = e ∨ d = e.behindText) ∧
    Derives .contents n k (c.extend v) (e.extend v)
  | p, n, k, c, d => Derives p n k (c.extend v) (d.extend v)

/-- Contents before an opening. -/
theorem Extends.opens {s : Symbol} {e : Cursor} (h : Extends v .contents n k c d)
    (ho : d.Opens s e) (hs : s.Opens) (hv : Apart v) :
    Derives .contents n k (c.extend v) (d.extend v) ∧ (d.extend v).Opens s (e.extend v) := by
  have hbrace : s ≠ .openBrace := by
    rcases hs with rfl | rfl <;> decide
  refine ⟨?_, ho.extend hbrace hv⟩
  obtain ⟨f, rfl | rfl, hf⟩ := h
  · exact hf
  · have hopens : opensTag f.behindText.rest = true := by
      rcases f.behindText_rest with hnil | hopens
      · have := ho.1
        rw [hnil, List.prefix_nil] at this
        exact absurd this s.spelling_ne_nil
      · exact hopens
    rw [← Cursor.behindText_extend hopens]
    exact .text hf

/-- A passage is found again when the text goes on. -/
theorem Derives.extend (h : Derives p n k c d) (hv : Apart v) : Extends v p n k c d := by
  induction h with
  | @nothing _ c => exact ⟨c, .inl rfl, .nothing⟩
  | text _ ih =>
    obtain ⟨e, rfl | rfl, he⟩ := ih
    · exact ⟨_, .inr rfl, he⟩
    · exact ⟨e, .inr e.behindText_behindText, he⟩
  | placeable _ ho hp ih =>
    obtain ⟨hc, ho⟩ := ih.opens ho (.inl rfl) hv
    exact ⟨_, .inl rfl, .placeable hc ho (hp.extend hv)⟩
  | tag _ ho _ ih iht =>
    obtain ⟨hc, ho⟩ := ih.opens ho (.inr rfl) hv
    exact ⟨_, .inl rfl, .tag hc ho iht⟩
  | body _ ho hw ih =>
    obtain ⟨hc, ho⟩ := ih.opens ho (.inr rfl) hv
    exact .body hc ho (hw.extend hv)
  | arm _ ih => exact .arm ih
  | elifArm _ hx _ ih ihb => exact .elifArm ih (hx.extend hv) ihb
  | ifTag hw hx _ hc ih =>
    exact .ifTag (hw.extend hv) (hx.extend hv) ih (hc.extend (by decide) hv)
  | ifElseTag hw hx _ he _ hc ihm iha =>
    exact .ifElseTag (hw.extend hv) (hx.extend hv) ihm (he.extend (by decide) hv) iha
      (hc.extend (by decide) hv)
  | forTag hw hx _ hc ih =>
    exact .forTag (hw.extend hv) (hx.extend hv) ih (hc.extend (by decide) hv)
  | forElseTag hw hx _ he _ hc ihm iha =>
    exact .forElseTag (hw.extend hv) (hx.extend hv) ihm (he.extend (by decide) hv) iha
      (hc.extend (by decide) hv)
  | setTag hw hx => exact .setTag (hw.extend hv) (hx.extend hv)
  | macroTag hw hx _ hc ih =>
    exact .macroTag (hw.extend hv) (hx.extend hv) ih (hc.extend (by decide) hv)
  | callTag hw hx _ hc ih =>
    exact .callTag (hw.extend hv) (hx.extend hv) ih (hc.extend (by decide) hv)
  | filterTag hw hx _ hc ih =>
    exact .filterTag (hw.extend hv) (hx.extend hv) ih (hc.extend (by decide) hv)
  | blockTag hw hx _ hc ih => exact .blockTag (hw.extend hv) (hx.extend hv) ih (hc.extend hv)
  | extendsTag hw hx => exact .extendsTag (hw.extend hv) (hx.extend hv)

end Passage
end TemplateSyntax
