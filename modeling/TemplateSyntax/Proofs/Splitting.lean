import TemplateSyntax.Proofs.DraftLanding
import TemplateSyntax.Proofs.OrderedReading
import TemplateSyntax.Proofs.TagPhrases

/-!
# Splitting a source

A source can be cut into its texts, placeables and tags without reading what stands in them: text
goes up to the next opening, and a placeable or a tag goes on, token by token, up to the first
symbol that closes it. The grammar agrees, as no phrase in a placeable or tag contains such a
symbol.
-/
namespace TemplateSyntax

namespace Cursor

theorem length_lt_of_next {quotes : Bool} {c d : Cursor} {result : Except Fault Lexeme}
    (h : c.next quotes = (result, d)) (hl : ∀ l, result = .ok l → l.token ≠ .endOfSource) :
    d.rest.length < c.rest.length := by
  have hblanks := c.reaches_skipBlanks.length_le
  have hd : d = c.behindNext quotes := by rw [← c.next_snd quotes, h]
  have hend : (c.nextPiece quotes).token ≠ .ok .endOfSource := by
    intro hend
    rw [next_eq, hend] at h
    exact hl _ (Prod.mk.inj h).1.symm rfl
  have hlt := length_behindNext_lt hend
  rw [hd]
  omega

/-- The cursor behind the next symbol of this kind, or at the end of the text if there is none.
Whatever stands before it is skipped token by token, with strings as tokens. -/
def skipThrough (stop : Symbol) (c : Cursor) : Cursor :=
  match _h : c.next true with
  | (.ok l, d) =>
    if _hl : l.token = .symbol stop ∨ l.token = .endOfSource then d else d.skipThrough stop
  | (.error _, d) => d.skipThrough stop
termination_by c.rest.length
decreasing_by
  · refine length_lt_of_next _h fun l' hl => ?_
    cases hl
    exact (not_or.mp _hl).2
  · exact length_lt_of_next _h fun l hl => by cases hl

/-- The kind and the name of what a tag defines, if it begins with this word and goes on here. -/
def definedBy? (word : String) (c : Cursor) : Option (Keyword × String) :=
  match Keyword.ofSpelling? word, (c.next true).1 with
  | some .macroWord, .ok ⟨.identifier name, _⟩ => some (.macroWord, name)
  | some .blockWord, .ok ⟨.identifier name, _⟩ => some (.blockWord, name)
  | _, _ => none

/-- The kind and the name of what the tag that is open here defines. -/
def defined? (c : Cursor) : Option (Keyword × String) :=
  match c.next true with
  | (.ok ⟨.identifier word, _⟩, d) => d.definedBy? word
  | _ => none

variable {c d e : Cursor} {stop : Symbol} {t : Token}

theorem skipThrough_of_reads (h : c.Reads t d) (ht : t ≠ .symbol stop) (hend : t ≠ .endOfSource) :
    c.skipThrough stop = d.skipThrough stop := by
  obtain ⟨span, h⟩ := h
  rw [skipThrough]
  split
  · next l d' hl =>
    rw [h] at hl
    cases hl
    rw [dif_neg (by simp [ht, hend])]
  · next hl =>
    rw [h] at hl
    cases hl

theorem skipThrough_of_reads_last (h : c.Reads t d) (ht : t = .symbol stop ∨ t = .endOfSource) :
    c.skipThrough stop = d := by
  obtain ⟨span, h⟩ := h
  rw [skipThrough]
  split
  · next l d' hl =>
    rw [h] at hl
    cases hl
    rw [dif_pos ht]
  · next hl =>
    rw [h] at hl
    cases hl

theorem skipThrough_of_readsSymbol (h : c.ReadsSymbol stop d) : c.skipThrough stop = d :=
  skipThrough_of_reads_last h (.inl rfl)

theorem definedBy?_of_reads {name : String}
    (h : c.Reads (.identifier name) d) (k : Keyword) (hk : k = .macroWord ∨ k = .blockWord) :
    c.definedBy? k.spelling = some (k, name) := by
  obtain ⟨span, h⟩ := h
  rw [definedBy?, Keyword.ofSpelling?_spelling, h]
  rcases hk with rfl | rfl <;> rfl

theorem definedBy?_eq_none {word : String} {k : Keyword} (hw : word = k.spelling)
    (hk : k ≠ .macroWord ∧ k ≠ .blockWord) (c : Cursor) : c.definedBy? word = none := by
  rw [hw, definedBy?, Keyword.ofSpelling?_spelling]
  split
  · next h _ => exact absurd (Option.some.inj h) hk.1
  · next h _ => exact absurd (Option.some.inj h) hk.2
  · rfl

theorem defined?_of_reads {word : String} (h : c.Reads (.identifier word) d) :
    c.defined? = d.definedBy? word := by
  obtain ⟨span, h⟩ := h
  rw [defined?, h]

theorem reaches_skipThrough (stop : Symbol) (c : Cursor) : c.Reaches (c.skipThrough stop) := by
  fun_induction skipThrough stop c with
  | case1 c l d h hl => exact reaches_of_next h
  | case2 c l d h hl ih => exact (reaches_of_next h).trans ih
  | case3 c f d h ih =>
    have hd := c.reaches_behindNext true
    rw [← c.next_snd true, h] at hd
    exact hd.trans ih

theorem length_behindNext_lt_of_ne_nil (quotes : Bool) (h : c.rest ≠ []) :
    (c.behindNext quotes).rest.length < c.rest.length := by
  have hblanks := c.reaches_skipBlanks.length_le
  by_cases hend : (c.nextPiece quotes).token = .ok .endOfSource
  · have hnil := (c.skipBlanks_reaches_behindNext quotes).rest_eq_nil
      (nextPiece_eq_endOfSource_iff.mp hend)
    rw [hnil]
    exact List.length_pos_iff.mpr h
  · have hlt := length_behindNext_lt hend
    omega

theorem length_skipThrough_lt (stop : Symbol) (h : c.rest ≠ []) :
    (c.skipThrough stop).rest.length < c.rest.length := by
  have hlt := length_behindNext_lt_of_ne_nil true h
  rw [← c.next_snd true] at hlt
  rw [skipThrough]
  split
  · next l d hn =>
    rw [hn] at hlt
    split
    · exact hlt
    · exact Nat.lt_of_le_of_lt (d.reaches_skipThrough stop).length_le hlt
  · next d hn =>
    rw [hn] at hlt
    exact Nat.lt_of_le_of_lt (d.reaches_skipThrough stop).length_le hlt

theorem skipThrough_rest_of_reads (h : c.Reads t d) (ht : t ≠ .symbol stop) :
    (d.skipThrough stop).rest = (c.skipThrough stop).rest := by
  by_cases hend : t = .endOfSource
  · have hd : d.rest = [] := by
      obtain ⟨span, hn⟩ := h
      obtain ⟨htoken, -, rfl⟩ := next_eq_ok hn
      exact (c.skipBlanks_reaches_behindNext true).rest_eq_nil
        (nextPiece_eq_endOfSource_iff.mp (hend ▸ htoken))
    rw [skipThrough_of_reads_last h (.inr hend), hd, (d.reaches_skipThrough stop).rest_eq_nil hd]
  · rw [skipThrough_of_reads h ht hend]

end Cursor

/-! ## Parts -/

/-- A part of a source. -/
inductive Part where
  /-- Text between tags and placeables, which may be empty. -/
  | text (run : String) (span : Span)
  /-- A placeable, and where it opens. -/
  | put (start : Position)
  /-- A tag, where it opens, and the kind and the name of what it defines. -/
  | tag (start : Position) (defined : Option (Keyword × String))
  deriving DecidableEq

namespace Part

def start : Part → Position
  | text _ span => span.start
  | put p | tag p _ => p

/-- Whether the part is a text of no characters. -/
def isEmpty : Part → Bool
  | text run _ => run.isEmpty
  | _ => false

/-- A text that is not empty. -/
def text? : Part → Option (String × Span)
  | text run span => if run.isEmpty then none else some (run, span)
  | _ => none

/-- Where a placeable opens. -/
def put? : Part → Option Position
  | put p => some p
  | _ => none

/-- What a tag defines. -/
def defined? : Part → Option (Keyword × String)
  | tag _ defined => defined
  | _ => none

end Part

namespace Cursor
variable {c d e : Cursor}

/-- The text that stands next. -/
def textPart (c : Cursor) : Part :=
  .text (String.ofList (textRun c.rest)) ⟨c.position, c.behindText.position⟩

/-- The parts of what is left of a source: text, what opens behind it, and so on. -/
def parts (c : Cursor) : List Part :=
  let d := c.behindText
  c.textPart ::
    match _h : d.next true with
    | (.ok ⟨.symbol .beginPut, _⟩, e) => .put d.position :: (e.skipThrough .endPut).parts
    | (.ok ⟨.symbol .beginTag, _⟩, e) =>
      .tag d.position e.defined? :: (e.skipThrough .endTag).parts
    | _ => []
termination_by c.rest.length
decreasing_by
  all_goals
    have hlt : e.rest.length < c.behindText.rest.length :=
      length_lt_of_next _h fun l hl => by cases hl; simp
    have htext := c.reaches_behindText.length_le
    have hskip := (e.reaches_skipThrough .endPut).length_le
    have hskip' := (e.reaches_skipThrough .endTag).length_le
    omega

/-- Behind the last token the end of the source is read. -/
theorem reads_endOfSource_of_skipBlanks (h : c.skipBlanks.rest = []) :
    c.Reads .endOfSource (c.behindNext true) := by
  refine ⟨c.nextSpan true, ?_⟩
  rw [next_eq, nextPiece_eq_endOfSource_iff.mpr h]

theorem parts_of_end (h : c.behindText.rest = []) : c.parts = [c.textPart] := by
  obtain ⟨span, hend⟩ :=
    reads_endOfSource_of_skipBlanks (c.behindText.reaches_skipBlanks.rest_eq_nil h)
  rw [parts]
  split
  · next hn => rw [hend] at hn; cases hn
  · next hn => rw [hend] at hn; cases hn
  · rfl

theorem parts_of_opens_put (h : c.behindText.Opens .beginPut e) :
    c.parts = c.textPart :: .put c.behindText.position :: (e.skipThrough .endPut).parts := by
  obtain ⟨-, span, h⟩ := h
  rw [parts]
  split
  · next hn => rw [h] at hn; cases hn; rfl
  · next hn => rw [h] at hn; cases hn
  · next hn _ => exact absurd h (hn _ _)

theorem parts_of_opens_tag (h : c.behindText.Opens .beginTag e) :
    c.parts = c.textPart :: .tag c.behindText.position e.defined? ::
      (e.skipThrough .endTag).parts := by
  obtain ⟨-, span, h⟩ := h
  rw [parts]
  split
  · next hn => rw [h] at hn; cases hn
  · next hn => rw [h] at hn; cases hn; rfl
  · next hn => exact absurd h (hn _ _)

/-- The text that stands next is the last part, or something opens behind it. -/
theorem parts_cases (c : Cursor) : c.parts = [c.textPart] ∨
    ∃ (p : Part) (d : Cursor), c.parts = c.textPart :: p :: d.parts ∧
      p.start = c.behindText.position ∧
      c.behindText.position.offset < d.position.offset ∧ d.rest.length < c.rest.length := by
  rcases c.behindText_rest with hnil | hopens
  · exact .inl (parts_of_end hnil)
  · obtain ⟨s, e, hs, ho⟩ := exists_opens hopens
    obtain ⟨span, hnext⟩ := ho.2
    have hlength : e.rest.length < c.behindText.rest.length :=
      length_lt_of_next hnext fun l hl => by cases hl; simp
    have htext := c.reaches_behindText.length_le
    obtain ⟨hlo, hlt, hhi⟩ := frames_of_next hnext (by simp)
    have hbehind (stop : Symbol) :
        c.behindText.position.offset < (e.skipThrough stop).position.offset ∧
          (e.skipThrough stop).rest.length < c.rest.length := by
      have hoffset := (e.reaches_skipThrough stop).offset_le
      have hrest := (e.reaches_skipThrough stop).length_le
      omega
    rcases hs with rfl | rfl
    · exact .inr ⟨_, _, parts_of_opens_put ho, rfl, hbehind _⟩
    · exact .inr ⟨_, _, parts_of_opens_tag ho, rfl, hbehind _⟩

theorem offset_behindText (c : Cursor) (h : c.textPart.isEmpty = false) :
    c.position.offset < c.behindText.position.offset := by
  have hrun : textRun c.rest ≠ [] := by
    intro hnil
    simp [textPart, Part.isEmpty, hnil] at h
  have hlen : String.utf8Len (textRun c.rest) ≠ 0 := fun h => hrun (String.utf8Len_eq_zero.mp h)
  have hoffset : c.behindText.position.offset =
      c.position.offset + String.utf8Len (textRun c.rest) := Position.offset_advanceBy _ _
  omega

/-- Every part begins at or behind the cursor, and all parts behind one that is not empty begin
behind the start of that one. -/
theorem parts_ordered (c : Cursor) : (∀ p ∈ c.parts, c.position.offset ≤ p.start.offset) ∧
    c.parts.Pairwise fun a b => a.isEmpty = false → a.start.offset < b.start.offset := by
  induction hn : c.rest.length using Nat.strong_induction_on generalizing c with
  | h n ih =>
    have htext := c.reaches_behindText.offset_le
    have hfirst : c.textPart.start = c.position := rfl
    rcases c.parts_cases with hparts | ⟨p, d, hparts, hp, hd, hlength⟩
    · rw [hparts]
      refine ⟨?_, List.pairwise_singleton _ _⟩
      intro q hq
      rw [List.mem_singleton.mp hq, hfirst]
    · obtain ⟨hbound, hpairs⟩ := ih _ (hn ▸ hlength) d rfl
      rw [hparts]
      refine ⟨?_, .cons ?_ (.cons ?_ hpairs)⟩
      · intro q hq
        rcases List.mem_cons.mp hq with rfl | hq
        · rw [hfirst]
        · rcases List.mem_cons.mp hq with rfl | hq
          · rw [hp]
            exact htext
          · have hle := hbound q hq
            omega
      · intro q hq hempty
        have hlt := c.offset_behindText hempty
        rw [hfirst]
        rcases List.mem_cons.mp hq with rfl | hq
        · rw [hp]
          exact hlt
        · have hle := hbound q hq
          omega
      · intro q hq _
        have hle := hbound q hq
        rw [hp]
        omega

end Cursor

/-! ## What a phrase skips -/

namespace Cursor

/-- Only tokens stand between the cursors that close neither a tag nor a placeable. -/
inductive Skips : Cursor → Cursor → Prop
  | refl {c : Cursor} : Skips c c
  | head {c d e : Cursor} {t : Token} (h : c.Reads t d) (hput : t ≠ .symbol .endPut)
    (htag : t ≠ .symbol .endTag) (hend : t ≠ .endOfSource) (hs : Skips d e) : Skips c e

namespace Skips
variable {c d e : Cursor}

theorem trans (hd : Skips c d) (he : Skips d e) : Skips c e := by
  induction hd with
  | refl => exact he
  | head h hput htag hend _ ih => exact .head h hput htag hend (ih he)

theorem symbol {s : Symbol} (h : c.ReadsSymbol s d) (hput : s ≠ .endPut) (htag : s ≠ .endTag) :
    Skips c d :=
  .head h (by simpa using hput) (by simpa using htag) (by simp) .refl

theorem word {name : String} (h : c.Reads (.identifier name) d) : Skips c d :=
  .head h (by simp) (by simp) (by simp) .refl

theorem name (h : c.ReadsName d) : Skips c d := by
  obtain ⟨name, h⟩ := h
  exact word h

theorem reaches (h : Skips c d) : c.Reaches d := by
  induction h with
  | refl => exact .refl _
  | head h _ _ _ _ ih =>
    obtain ⟨span, h⟩ := h
    exact (reaches_of_next h).trans ih

theorem skipThrough_endTag (h : Skips c d) (hd : d.ReadsSymbol .endTag e) :
    c.skipThrough .endTag = e := by
  induction h with
  | refl => exact skipThrough_of_readsSymbol hd
  | head h _ htag hend _ ih => rw [skipThrough_of_reads h htag hend, ih hd]

theorem skipThrough_endPut (h : Skips c d) (hd : d.ReadsSymbol .endPut e) :
    c.skipThrough .endPut = e := by
  induction h with
  | refl => exact skipThrough_of_readsSymbol hd
  | head h hput _ hend _ ih => rw [skipThrough_of_reads h hput hend, ih hd]

theorem operator {op : Operator} {t : Token} (h : c.Reads t d) (ht : op.WrittenAs t) :
    Skips c d := by
  cases ht with
  | symbol hs =>
    refine symbol h ?_ ?_
    · rintro rfl
      cases op <;> exact absurd hs (by decide)
    · rintro rfl
      cases op <;> exact absurd hs (by decide)
  | word _ => exact word h

/-- No phrase of an expression contains a symbol that closes a tag or a placeable. -/
theorem of_derives {p : Phrase} {n : Nat} (h : p.Derives n c d) : Skips c d := by
  induction h with
  | number h => exact .head h (by simp) (by simp) (by simp) .refl
  | string h _ => exact .head h (by simp) (by simp) (by simp) .refl
  | name h => exact name h
  | parens ho _ hc ih =>
    exact (symbol ho (by decide) (by decide)).trans (ih.trans (symbol hc (by decide) (by decide)))
  | primary _ ih | term _ _ ih | operand _ ih => exact ih
  | member _ hd hn ih => exact ih.trans ((symbol hd (by decide) (by decide)).trans (name hn))
  | call _ ho _ ih iha => exact ih.trans ((symbol ho (by decide) (by decide)).trans iha)
  | sign hs _ ih =>
    rcases hs with hs | hs
    · exact (symbol hs (by decide) (by decide)).trans ih
    · exact (word hs).trans ih
  | binary _ ht hop _ _ ihl ihr => exact ihl.trans ((operator ht hop).trans ihr)
  | filter _ hb _ ihl iht => exact ihl.trans ((symbol hb (by decide) (by decide)).trans iht)
  | noArgument h => exact symbol h (by decide) (by decide)
  | lastArgument _ h ih => exact ih.trans (symbol h (by decide) (by decide))
  | argument _ hc _ iha ih => exact iha.trans ((symbol hc (by decide) (by decide)).trans ih)

theorem of_spans {n : Nat} (h : Expression.Spans n c d) : Skips c d := by
  obtain ⟨pending, h⟩ := h
  exact of_derives h

theorem of_names (h : SpansNames c d) : Skips c d := by
  induction h with
  | one h => exact name h
  | more _ hc hn ih => exact ih.trans ((symbol hc (by decide) (by decide)).trans (name hn))

theorem of_filters {n : Nat} (h : SpansFilters n c d) : Skips c d := by
  induction h with
  | none => exact .refl
  | more _ hb ht ih => exact ih.trans ((symbol hb (by decide) (by decide)).trans (of_derives ht))

theorem of_items {item : Cursor → Cursor → Prop} (hi : ∀ c d, item c d → Skips c d)
    (h : Items item c d) : Skips c d := by
  induction h with
  | close h => exact symbol h (by decide) (by decide)
  | last hx h => exact (hi _ _ hx).trans (symbol h (by decide) (by decide))
  | more hx hc _ ih => exact (hi _ _ hx).trans ((symbol hc (by decide) (by decide)).trans ih)

theorem of_optionally {G : Cursor → Cursor → Prop} (hG : ∀ c d, G c d → Skips c d)
    (h : Optionally G c d) : Skips c d := by
  rcases h with rfl | h
  · exact .refl
  · exact hG _ _ h

theorem of_parameter {n : Nat} (h : SpansParameter n c d) : Skips c d := by
  obtain ⟨e, hn, hd⟩ := h
  refine (name hn).trans (of_optionally (fun c d ⟨f, hf, hx⟩ => ?_) hd)
  exact (symbol hf (by decide) (by decide)).trans (of_spans hx)

end Skips

end Cursor

/-! ## Where tags end -/

section Ends
variable {n : Nat} {c d : Cursor}
open Cursor

theorem SpansLast.skipThrough_eq (h : SpansLast n c d) : c.skipThrough .endTag = d := by
  obtain ⟨e, he, hd⟩ := h
  exact (Skips.of_spans he).skipThrough_endTag hd

theorem SpansLoopHead.skipThrough_eq (h : SpansLoopHead n c d) : c.skipThrough .endTag = d := by
  obtain ⟨e, f, g, k, he, hf, hg, hk, hd⟩ := h
  have hcondition : Skips g k :=
    .of_optionally (fun _ _ ⟨_, hw, hx⟩ => (Skips.word hw).trans (.of_spans hx)) hk
  exact ((Skips.of_names he).trans ((Skips.word hf).trans
    ((Skips.of_spans hg).trans hcondition))).skipThrough_endTag hd

theorem SpansAssignment.skipThrough_eq (h : SpansAssignment n c d) :
    c.skipThrough .endTag = d := by
  obtain ⟨e, f, he, hf, g, hg, hd⟩ := h
  exact ((Skips.of_names he).trans ((Skips.symbol hf (by decide) (by decide)).trans
    (.of_spans hg))).skipThrough_endTag hd

theorem SpansMacroHead.skipThrough_eq (h : SpansMacroHead n c d) : c.skipThrough .endTag = d := by
  obtain ⟨e, f, g, he, hf, hg, hd⟩ := h
  exact ((Skips.name he).trans ((Skips.symbol hf (by decide) (by decide)).trans
    (.of_items (fun _ _ => .of_parameter) hg))).skipThrough_endTag hd

theorem SpansCallHead.skipThrough_eq (h : SpansCallHead n c d) : c.skipThrough .endTag = d := by
  obtain ⟨e, f, he, hf, hd⟩ := h
  have hargs : Skips e f := .of_optionally (fun _ _ ⟨_, _, _, ho, ha⟩ =>
    (Skips.symbol ho (by decide) (by decide)).trans (.of_derives ha)) hf
  exact ((Skips.name he).trans hargs).skipThrough_endTag hd

theorem SpansBlockHead.skipThrough_eq {name : String} (h : SpansBlockHead name c d) :
    c.skipThrough .endTag = d := by
  obtain ⟨e, he, hd⟩ := h
  exact (Skips.word he).skipThrough_endTag hd

theorem SpansBlockEnd.skipThrough_eq {name : String} (h : SpansBlockEnd name c d) :
    c.skipThrough .endTag = d := by
  obtain ⟨e, he, hd⟩ := h
  exact (Skips.of_optionally (fun _ _ => .word) he).skipThrough_endTag hd

theorem SpansPlaceable.skipThrough_eq (h : SpansPlaceable n c d) : c.skipThrough .endPut = d := by
  obtain ⟨pending, e, f, he, hf, hd⟩ := h
  exact ((Skips.of_derives he).trans (.of_filters hf)).skipThrough_endPut hd

end Ends
end TemplateSyntax
