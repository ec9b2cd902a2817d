import TemplateSyntax.Proofs.EditedTexts
import TemplateSyntax.Proofs.Spelling
import TemplateSyntax.Proofs.Splitting

/-!
# Other layouts of a source

The layout of a source can be changed in two ways: blanks may be added between the tokens of
placeables and tags, and texts may be replaced by others. A token is found again in the new layout,
as no blank goes on with the token before it, and what opens behind a text still opens there.
-/
namespace TemplateSyntax

/-! ## Tokens before blanks -/

section Blanks
variable {b : Char} (hb : Text.isBlank b = true) (w : List Char)
include hb

/-- A blank goes on with no name and no number. -/
theorem bounds_blank : Bounds (b :: w) where
  digit := by
    have hdigit : b.isDigit = false := by
      simpa using Text.forall_isBlank (p := fun c => !c.isDigit) (by decide) hb
    simp [hdigit]
  point := by
    have hpoint : b ≠ '.' := by
      simpa using Text.forall_isBlank (p := fun c => c != '.') (by decide) hb
    simpa using hpoint
  name := by
    have hname : Text.continuesIdentifier b = false := by
      simpa using
        Text.forall_isBlank (p := fun c => !Text.continuesIdentifier c) (by decide +kernel) hb
    simp [hname]

theorem Symbol.match?_blank (s : Symbol) : match? (s.spelling.toList ++ b :: w) = some s := by
  have htwo : match? (s.spelling.toList ++ b :: w) =
      match? ((s.spelling.toList ++ [b]).take 2) := by
    rw [← match?_take]
    cases s <;> rfl
  have hfound := Text.forall_isBlank
    (p := fun c => decide (match? ((s.spelling.toList ++ [c]).take 2) = some s))
    (by cases s <;> decide +kernel) hb
  rw [htwo, of_decide_eq_true hfound]

/-- A token that does not end its text is still read when a blank stands behind it. -/
theorem Piece.first_blank {x v : List Char} {t : Token} (h : first true (x ++ v) = ⟨x, .ok t⟩)
    (hx : x ≠ []) (hv : v ≠ []) : first true (x ++ b :: w) = ⟨x, .ok t⟩ := by
  have hself : first true x = ⟨x, .ok t⟩ := by
    have hend := first_append (by rw [h]) (.nil v)
    rwa [List.append_nil, h] at hend
  refine first_bounds hself hx (bounds_blank hb w) ?_ fun s _ => Symbol.match?_blank hb w s
  rintro quote inside rfl - hq
  refine Text.Quoted.scan_append ?_ hv _
  simpa [first, hq, string] using congrArg Piece.taken h

end Blanks

namespace Symbol

/-- The symbol that closes what a symbol opens. -/
def closer : Symbol → Symbol
  | .beginPut => .endPut
  | _ => .endTag

/-- The symbols that close a tag or a placeable. -/
def Closes (s : Symbol) : Prop := s = .endPut ∨ s = .endTag

end Symbol

/-- Whatever stands behind a symbol that closes a tag or a placeable, that symbol is read. -/
theorem Piece.first_of_closes {s : Symbol} (hs : s.Closes) (rest : List Char) :
    first true (s.spelling.toList ++ rest) = ⟨s.spelling.toList, .ok (.symbol s)⟩ := by
  refine first_of_match? ?_ true
  rw [← Symbol.match?_take, List.take_left' (by rcases hs with rfl | rfl <;> decide)]
  rcases hs with rfl | rfl <;> decide

/-! ## Texts in the place of others -/

/-- A text that may stand in the place of another: it is not empty, and nothing opens in it or
with what stands behind it. -/
structure FreeText (run : List Char) : Prop where
  nonempty : run ≠ []
  put : ¬ Symbol.beginPut.spelling.toList <:+: run
  tag : ¬ Symbol.beginTag.spelling.toList <:+: run
  brace : run.getLast? ≠ some '\x7b'

/-- A text in which nothing opens is all text. -/
theorem textRun_eq_self {run : List Char} (hput : ¬ Symbol.beginPut.spelling.toList <:+: run)
    (htag : ¬ Symbol.beginTag.spelling.toList <:+: run) : textRun run = run := by
  induction run with
  | nil => rfl
  | cons c run ih =>
    have hself : ¬ opensTag (c :: run) = true := by
      intro ho
      obtain ⟨s, hs, rest, hrest⟩ := exists_of_opensTag ho
      rcases hs with rfl | rfl
      · exact hput ⟨[], rest, hrest.symm⟩
      · exact htag ⟨[], rest, hrest.symm⟩
    rw [textRun, if_neg hself, ih (fun h => hput (h.trans (List.suffix_cons c run).isInfix))
      fun h => htag (h.trans (List.suffix_cons c run).isInfix)]

/-- How a source can be laid out anew. What takes the place of a text, or of the blanks before a
token, may depend on where they stand. -/
structure Layout where
  text : Edit
  blanks : Position → List Char → List Char
  /-- A text stays as it is, or what takes its place is a text there too. -/
  text_eq_or_free (p : Position) (run : String) : text p run = run ∨ FreeText (text p run).toList
  /-- Blanks take the place of blanks. -/
  isBlank_of_mem (p : Position) {w : List Char} (hw : ∀ b ∈ w, Text.isBlank b = true) :
    ∀ b ∈ blanks p w, Text.isBlank b = true
  /-- Where blanks stand, some are left. -/
  eq_nil_of_blanks (p : Position) {w : List Char} (h : blanks p w = []) : w = []

namespace Cursor
variable {layout : Layout} {c d : Cursor}

/-- The text that takes the place of the text that stands next. Where there is none, none comes. -/
def editedText (layout : Layout) (c : Cursor) : List Char :=
  if textRun c.rest = [] then []
  else (layout.text c.position (String.ofList (textRun c.rest))).toList

theorem editedText_eq_nil_iff : c.editedText layout = [] ↔ textRun c.rest = [] := by
  unfold editedText
  split
  · next h => simp [h]
  · next h =>
    rcases layout.text_eq_or_free c.position (String.ofList (textRun c.rest)) with hsame | hfree
    · simp [hsame, h]
    · simp [hfree.nonempty, h]

/-- It ends where the text that it replaces ends: at the end, or where the same symbol opens. -/
theorem textRun_editedText (layout : Layout) {v : List Char}
    (hv : v = [] ∧ c.behindText.rest = [] ∨
      ∃ s : Symbol, s.Opens ∧ s.spelling.toList <+: v ∧ s.spelling.toList <+: c.behindText.rest) :
    textRun (c.editedText layout ++ v) = c.editedText layout := by
  have htext : textRun v = [] := by
    rcases hv with ⟨rfl, -⟩ | ⟨s, hs, hprefix, -⟩
    · rfl
    · refine textRun_of_opensTag
        (List.any_eq_true.mpr ⟨s, ?_, List.isPrefixOf_iff_prefix.mpr hprefix⟩)
      rcases hs with rfl | rfl <;> simp
  unfold editedText
  split
  · exact htext
  · rcases layout.text_eq_or_free c.position (String.ofList (textRun c.rest)) with hsame | hfree
    · rw [hsame, String.toList_ofList]
      refine textRun_append (y := c.behindText.rest) ?_ ?_
      · rw [← c.rest_eq_textRun_append]
      · rcases hv with ⟨rfl, hnil⟩ | ⟨s, hs, ⟨x, rfl⟩, ⟨y, hy⟩⟩
        · rw [hnil]
        · obtain ⟨d, hd⟩ := hs.spelling_eq
          rw [← hy, hd]
          rfl
    · rw [textRun_append_of_text (textRun_eq_self hfree.put hfree.tag) (.inl hfree.brace), htext,
        List.append_nil]

end Cursor

/-! ## Layouts -/

/-- The symbol that is still waited for behind a token. -/
def Token.stillOpen (t : Token) (stop : Symbol) : Option Symbol :=
  if t = .symbol stop then none else some stop

namespace Cursor

/-- The blanks that take the place of those before the next token. -/
def editedBlanks (layout : Layout) (c : Cursor) : List Char :=
  layout.blanks c.position (c.rest.takeWhile Text.isBlank)

theorem isBlank_of_mem_editedBlanks {layout : Layout} {c : Cursor} {b : Char}
    (h : b ∈ c.editedBlanks layout) : Text.isBlank b = true :=
  layout.isBlank_of_mem c.position (fun _ hb => List.mem_takeWhile_imp hb) b h

/-- What is left of a source, in another layout: in tags and placeables there are other blanks
before each token, and between them there are other texts. A tag or placeable that is open here goes
on up to the given symbol. What cannot be read stays as it is. -/
def relaid (layout : Layout) (place : Option Symbol) (c : Cursor) : List Char :=
  match place with
  | none =>
    c.editedText layout ++
      match _h : c.behindText.next true with
      | (.ok ⟨.symbol s, _⟩, d) => s.spelling.toList ++ d.relaid layout (some s.closer)
      | _ => []
  | some stop =>
    match _h : c.next true with
    | (.ok l, d) =>
      if _hl : l.token = .endOfSource then c.rest
      else c.editedBlanks layout ++
        ((c.nextPiece true).taken ++ d.relaid layout (l.token.stillOpen stop))
    | _ => c.rest
termination_by c.rest.length
decreasing_by
  · have hlt := length_lt_of_next _h fun l hl => by cases hl; simp
    have htext := c.reaches_behindText.length_le
    omega
  · exact length_lt_of_next _h fun l' hl => by cases hl; exact _hl

variable {layout : Layout} {stop : Symbol} {c c' d : Cursor} {t : Token}

theorem relaid_of_end (h : c.behindText.rest = []) :
    c.relaid layout none = c.editedText layout := by
  obtain ⟨span, hd⟩ :=
    reads_endOfSource_of_skipBlanks (c.behindText.reaches_skipBlanks.rest_eq_nil h)
  rw [relaid]
  split
  · next hn =>
    rw [hd] at hn
    cases hn
  · exact List.append_nil _

theorem relaid_of_opens {s : Symbol} (h : c.behindText.Opens s d) :
    c.relaid layout none =
      c.editedText layout ++ (s.spelling.toList ++ d.relaid layout (some s.closer)) := by
  obtain ⟨-, span, hd⟩ := h
  rw [relaid]
  split
  · next hn =>
    rw [hd] at hn
    cases hn
    rfl
  · next hn => exact absurd hd (hn _ _ _)

theorem relaid_of_reads (h : c.Reads t d) (ht : t ≠ .endOfSource) :
    c.relaid layout (some stop) = c.editedBlanks layout ++
      ((c.nextPiece true).taken ++ d.relaid layout (t.stillOpen stop)) := by
  obtain ⟨span, hd⟩ := h
  rw [relaid]
  split
  · next hn =>
    rw [hd] at hn
    cases hn
    rw [dif_neg ht]
  · next hn => exact absurd hd (hn _ _)

/-- Where no token stands the rest stays as it is. -/
theorem relaid_eq_rest (h : ∀ t d, c.Reads t d → t = .endOfSource) :
    c.relaid layout (some stop) = c.rest := by
  rw [relaid]
  split
  · next l d hn => rw [dif_pos (h l.token d ⟨l.span, hn⟩)]
  · rfl

theorem relaid_of_rest_nil (place : Option Symbol) (h : c.rest = []) :
    c.relaid layout place = [] := by
  cases place with
  | none =>
    rw [relaid_of_end (c.reaches_behindText.rest_eq_nil h), editedText, if_pos (by rw [h]; rfl)]
  | some stop =>
    rw [relaid_eq_rest fun t d hd => ?_, h]
    exact ((reads_endOfSource_of_skipBlanks (c.reaches_skipBlanks.rest_eq_nil h)).unique hd).1.symm

/-- A layout that keeps all texts and all blanks keeps the source: nothing else is replaced. -/
theorem relaid_eq_self (htext : ∀ p run, layout.text p run = run)
    (hblanks : ∀ p w, layout.blanks p w = w) (place : Option Symbol) (c : Cursor) :
    c.relaid layout place = c.rest := by
  induction hn : c.rest.length using Nat.strong_induction_on generalizing c place with
  | h n ih =>
    cases place with
    | none =>
      have hrun : c.editedText layout = textRun c.rest := by
        unfold editedText
        split
        · next hnil => exact hnil.symm
        · rw [htext, String.toList_ofList]
      rw [c.rest_eq_textRun_append, ← hrun]
      rcases c.behindText_rest with hend | hopens
      · rw [relaid_of_end hend, hend, List.append_nil]
      · obtain ⟨s, d, hs, ho⟩ := exists_opens hopens
        obtain ⟨span, hnext⟩ := ho.2
        have hlt := length_lt_of_next hnext fun l hl => by cases hl; simp
        have hle := c.reaches_behindText.length_le
        rw [relaid_of_opens ho, ih _ (by omega) _ d rfl, ho.rest_eq hs]
    | some stop =>
      by_cases h : ∀ t d, c.Reads t d → t = .endOfSource
      · exact relaid_eq_rest h
      · simp only [not_forall] at h
        obtain ⟨t, d, hr, ht⟩ := h
        obtain ⟨span, hnext⟩ := id hr
        have hlt := length_lt_of_next hnext fun l hl => by cases hl; exact ht
        have hrest : c.rest = c.rest.takeWhile Text.isBlank ++ c.skipBlanks.rest :=
          rest_eq_append_past (List.takeWhile_prefix _)
        rw [relaid_of_reads hr ht, ih _ (hn ▸ hlt) _ d rfl, editedBlanks, hblanks,
          (next_eq_ok hnext).2.2, ← c.skipBlanks_rest_eq true, ← hrest]

/-- A token that is not the end of the source is not empty. -/
theorem Reads.taken_ne_nil (h : c.Reads t d) (ht : t ≠ .endOfSource) :
    (c.nextPiece true).taken ≠ [] := by
  refine Piece.taken_first_ne_nil true fun hnil => ?_
  exact ht (h.unique (reads_endOfSource_of_skipBlanks hnil)).1

theorem Reads.first_eq (h : c.Reads t d) :
    Piece.first true ((c.nextPiece true).taken ++ d.rest) = ⟨(c.nextPiece true).taken, .ok t⟩ := by
  obtain ⟨span, h⟩ := h
  obtain ⟨ht, -, rfl⟩ := next_eq_ok h
  rw [← c.skipBlanks_rest_eq true, ← ht]
  rfl

/-- Behind a token there is the same character in the other layout, or a blank where there was
something before. -/
theorem continues_relaid (layout : Layout) (stop : Symbol) (c : Cursor) :
    Continues c.rest (c.relaid layout (some stop)) ∨
      c.rest ≠ [] ∧ ∃ b w, c.relaid layout (some stop) = b :: w ∧ Text.isBlank b = true := by
  by_cases h : ∀ t d, c.Reads t d → t = .endOfSource
  · rw [relaid_eq_rest h]
    exact .inl (.inr rfl)
  · simp only [not_forall] at h
    obtain ⟨t, d, hr, ht⟩ := h
    obtain ⟨a, as, htaken⟩ := List.exists_cons_of_ne_nil (hr.taken_ne_nil ht)
    have hrest : c.rest = c.rest.takeWhile Text.isBlank ++ c.skipBlanks.rest :=
      rest_eq_append_past (List.takeWhile_prefix _)
    rw [c.skipBlanks_rest_eq true, htaken] at hrest
    rw [relaid_of_reads hr ht]
    cases hblanks : c.editedBlanks layout with
    | cons b bs =>
      have hmem : b ∈ c.editedBlanks layout := hblanks ▸ List.mem_cons_self
      exact .inr ⟨by rw [hrest]; simp, b, _, rfl, isBlank_of_mem_editedBlanks hmem⟩
    | nil =>
      rw [layout.eq_nil_of_blanks c.position hblanks] at hrest
      refine .inl (.inr ?_)
      rw [hrest, htaken]
      rfl

/-- The same token is read in both layouts. -/
theorem Reads.relaid (hstop : stop.Closes) (h : c.Reads t d)
    (hc : c'.rest = c.relaid layout (some stop)) :
    ∃ d', c'.Reads t d' ∧ d'.rest = d.relaid layout (t.stillOpen stop) := by
  by_cases ht : t = .endOfSource
  · have hblank : c.skipBlanks.rest = [] := by
      obtain ⟨span, h⟩ := h
      exact nextPiece_eq_endOfSource_iff.mp (ht ▸ (next_eq_ok h).1)
    have hsame : c'.rest = c.rest := by
      rw [hc, relaid_eq_rest fun u e hu => (hu.unique h).1.trans ht]
    have hblank' : c'.skipBlanks.rest = [] := by
      rw [skipBlanks, past, hsame]
      exact hblank
    rw [ht, (h.unique (reads_endOfSource_of_skipBlanks hblank)).2]
    refine ⟨_, reads_endOfSource_of_skipBlanks hblank', ?_⟩
    rw [relaid_of_rest_nil _ ((c.skipBlanks_reaches_behindNext true).rest_eq_nil hblank)]
    exact (c'.skipBlanks_reaches_behindNext true).rest_eq_nil hblank'
  · rw [relaid_of_reads h ht] at hc
    have hfirst : Piece.first true ((c.nextPiece true).taken ++
        d.relaid layout (t.stillOpen stop)) = ⟨(c.nextPiece true).taken, .ok t⟩ := by
      by_cases hclose : t = .symbol stop
      · have htaken : (c.nextPiece true).taken = stop.spelling.toList := by
          have hfrom := Piece.takenFrom_first (congrArg Piece.token h.first_eq)
          rw [h.first_eq, hclose] at hfrom
          exact hfrom
        rw [htaken, hclose, Piece.first_of_closes hstop]
      · rw [Token.stillOpen, if_neg hclose]
        rcases continues_relaid layout stop d with hsame | ⟨hne, b, w, hrest, hblank⟩
        · rw [Piece.first_append (by rw [h.first_eq]) hsame, h.first_eq]
        · rw [hrest]
          exact Piece.first_blank hblank w h.first_eq (h.taken_ne_nil ht) hne
    have hstart : ((c.nextPiece true).taken ++
        d.relaid layout (t.stillOpen stop)).takeWhile Text.isBlank = [] := by
      obtain ⟨a, as, htaken⟩ := List.exists_cons_of_ne_nil (h.taken_ne_nil ht)
      rw [htaken, List.cons_append] at hfirst ⊢
      by_cases ha : Text.isBlank a = true
      · rw [Piece.first_of_isBlank ha] at hfirst
        cases hfirst
      · simp [ha]
    refine ⟨_, reads_of_first hc (fun _ => isBlank_of_mem_editedBlanks) hstart hfirst, ?_⟩
    simp only [past, hc, List.drop_left]

/-- The texts end at the same place, and the same opens behind them. -/
theorem behindText_relaid (hc : c'.rest = c.relaid layout none) :
    textRun c'.rest = c.editedText layout ∧
      (c.behindText.rest = [] ∧ c'.behindText.rest = [] ∨
        ∃ s d d', s.Opens ∧ c.behindText.Opens s d ∧ c'.behindText.Opens s d' ∧
          d'.rest = d.relaid layout (some s.closer)) := by
  rcases c.behindText_rest with hend | hopens
  · have hrun := textRun_editedText layout (c := c) (v := []) (.inl ⟨rfl, hend⟩)
    rw [List.append_nil] at hrun
    rw [relaid_of_end hend] at hc
    rw [hc]
    refine ⟨hrun, .inl ⟨hend, ?_⟩⟩
    rw [behindText, hc, hrun, past, hc, List.drop_length]
  · obtain ⟨s, d, hs, ho⟩ := exists_opens hopens
    rw [relaid_of_opens ho] at hc
    have hrun := textRun_editedText layout (c := c)
      (v := s.spelling.toList ++ d.relaid layout (some s.closer))
      (.inr ⟨s, hs, List.prefix_append _ _, ho.1⟩)
    have hrest : c'.behindText.rest =
        s.spelling.toList ++ d.relaid layout (some s.closer) := by
      rw [behindText, hc, hrun, past, hc, List.drop_left]
    have hfirst := Piece.first_of_opens hs true (d.relaid layout (some s.closer))
    have hstart : (s.spelling.toList ++
        d.relaid layout (some s.closer)).takeWhile Text.isBlank = [] := by
      obtain ⟨x, hx⟩ := hs.spelling_eq
      rw [hx]
      rfl
    have hread := reads_of_first (c := c'.behindText) hrest (List.forall_mem_nil _) hstart hfirst
    rw [hc]
    refine ⟨hrun, .inr ⟨s, d, _, hs, ho, ⟨⟨_, hrest.symm⟩, hread⟩, ?_⟩⟩
    simp only [past, hrest, List.drop_left, List.length_nil, List.drop_zero]

end Cursor
end TemplateSyntax
