import TemplateSyntax.Proofs.Levels
import TemplateSyntax.Proofs.Words

/-!
# Phrases that can be written and completed

A phrase is writable if some text is read as the phrase wherever that text stands. It is completable
at a cursor if the source can go on such that the phrase begins there. What is read of a source is
read again when the source goes on, so a phrase is completable once its unfinished part is, provided
that the rest of it is writable.
-/
namespace TemplateSyntax

open Relation (Comp)

theorem Apart.append {v w : List Char} (hv : Apart v) (hw : Apart w) : Apart (v ++ w) := by
  cases v with
  | nil => exact hw
  | cons c v => exact .inr (hv.resolve_left (List.cons_ne_nil c v))

/-- Only blanks are left. -/
def Cursor.Blank (c : Cursor) : Prop := ∀ b ∈ c.rest, Text.isBlank b = true

/-- Where a source has ended, only blanks were left. -/
theorem Cursor.Reads.blank {c d : Cursor} (h : c.Reads .endOfSource d) : c.Blank := by
  obtain ⟨blanks, taken, hrest, hblanks, -, hfirst, -⟩ := h.exists_first
  have hnil : taken ++ d.rest = [] := by
    by_contra hne
    exact Piece.token_first_ne_endOfSource true hne (by rw [hfirst])
  rw [hnil, List.append_nil] at hrest
  rw [Cursor.Blank, hrest]
  exact hblanks

/-- There is a text that is read as the phrase wherever it stands, behind any blanks and before
anything that keeps it apart. -/
def Writable (G : Cursor → Cursor → Prop) : Prop :=
  ∃ text, Apart text ∧ ∀ (c : Cursor) (blanks v : List Char),
    (∀ b ∈ blanks, Text.isBlank b = true) → Apart v → c.rest = blanks ++ (text ++ v) →
      ∃ d, G c d ∧ d.rest = v

/-- The source can go on such that the phrase stands at the cursor. -/
def Completable (G : Cursor → Cursor → Prop) (c : Cursor) : Prop :=
  ∃ text, Apart text ∧ ∀ v, Apart v → ∃ d, G (c.extend (text ++ v)) d ∧ d.rest = v

section Rules
variable {G H K : Cursor → Cursor → Prop} {c d : Cursor}

theorem Writable.mono (h : Writable G) (hGK : ∀ c d, G c d → K c d) : Writable K := by
  obtain ⟨text, ha, h⟩ := h
  refine ⟨text, ha, fun c blanks v hb hv hc => ?_⟩
  obtain ⟨d, hd, hrest⟩ := h c blanks v hb hv hc
  exact ⟨d, hGK c d hd, hrest⟩

theorem Writable.comp (hG : Writable G) (hH : Writable H) : Writable (Comp G H) := by
  obtain ⟨text, ha, hG⟩ := hG
  obtain ⟨text', ha', hH⟩ := hH
  refine ⟨text ++ text', ha.append ha', fun c blanks v hb hv hc => ?_⟩
  rw [List.append_assoc] at hc
  obtain ⟨d, hd, hrest⟩ := hG c blanks (text' ++ v) hb (ha'.append hv) hc
  obtain ⟨e, he, hrest'⟩ := hH d [] v (by simp) hv hrest
  exact ⟨e, ⟨d, hd, he⟩, hrest'⟩

/-- What is writable can be written where a source has ended. -/
theorem Writable.completable (h : Writable G) (hc : c.Blank) : Completable G c := by
  obtain ⟨text, ha, h⟩ := h
  exact ⟨text, ha, fun v hv => h _ c.rest v hc hv rfl⟩

/-- What stands before the unfinished part is found again. -/
theorem Completable.imp (h : Completable G d)
    (hGK : ∀ v, Apart v → ∀ e, G (d.extend v) e → K (c.extend v) e) : Completable K c := by
  obtain ⟨text, ha, h⟩ := h
  refine ⟨text, ha, fun v hv => ?_⟩
  obtain ⟨e, he, hrest⟩ := h v hv
  exact ⟨e, hGK _ (ha.append hv) e he, hrest⟩

theorem Completable.mono (h : Completable G c) (hGK : ∀ c d, G c d → K c d) : Completable K c :=
  h.imp fun _ _ _ he => hGK _ _ he

/-- What stands behind the unfinished part is written. -/
theorem Completable.comp (h : Completable G c) (hH : Writable H) : Completable (Comp G H) c := by
  obtain ⟨text, ha, h⟩ := h
  obtain ⟨text', ha', hH⟩ := hH
  refine ⟨text ++ text', ha.append ha', fun v hv => ?_⟩
  obtain ⟨d, hd, hrest⟩ := h (text' ++ v) (ha'.append hv)
  obtain ⟨e, he, hrest'⟩ := hH d [] v (by simp) hv hrest
  rw [List.append_assoc]
  exact ⟨e, ⟨d, hd, he⟩, hrest'⟩

end Rules

/-! ## Writable phrases -/

section Phrases
variable {n : Nat}

/-- A word is written with a blank before it. -/
theorem writable_of_writtenAs {w : Word} {cs : List Char} (hw : w.WrittenAs cs) (hvalid : w.Valid) :
    Writable fun c d => ∃ t, w.ReadAs t ∧ c.Reads t d := by
  refine ⟨' ' :: cs, .blank cs, fun c blanks v hb hv hc => ?_⟩
  have hblanks : ∀ b ∈ blanks ++ [' '], Text.isBlank b = true := by
    intro b hmem
    rcases List.mem_append.mp hmem with h | h
    · exact hb b h
    · rw [List.mem_singleton.mp h]
      decide
  have hc' : c.rest = (blanks ++ [' ']) ++ (cs ++ v) := by
    rw [hc, List.append_assoc]
    rfl
  obtain ⟨t, d, hr, ht, hrest⟩ := Cursor.exists_reads_of_writtenAs hc' hblanks hw hvalid hv
  exact ⟨d, ⟨t, ht, hr⟩, hrest⟩

theorem writable_symbol {s : Symbol} (hs : s ≠ .openBrace) :
    Writable fun c d => c.ReadsSymbol s d := by
  refine (writable_of_writtenAs (.symbol s) hs).mono fun c d h => ?_
  obtain ⟨_, rfl, h⟩ := h
  exact h

theorem writable_word (k : Keyword) : Writable fun c d => c.ReadsWord k d := by
  refine (writable_of_writtenAs (.name k.spelling) k.isIdentifier).mono fun c d h => ?_
  obtain ⟨_, rfl, h⟩ := h
  exact h

/-- Any keyword is a name. -/
theorem writable_name : Writable Cursor.ReadsName :=
  (writable_word .inWord).mono fun _ _ h => ⟨_, h⟩

theorem writable_endTag : Writable fun c d => c.ReadsSymbol .endTag d := writable_symbol (by decide)

theorem writable_closeParen : Writable fun c d => c.ReadsSymbol .closeParen d :=
  writable_symbol (by decide)

theorem writable_number : Writable fun c d => ∃ value, c.Reads (.number value) d := by
  have hzero : Piece.first true ['0'] = ⟨['0'], .ok (.number (.integer 0))⟩ := rfl
  refine (writable_of_writtenAs (.number hzero) trivial).mono fun c d h => ?_
  obtain ⟨_, rfl, h⟩ := h
  exact ⟨_, h⟩

theorem writable_term : Writable (Phrase.Derives .term n) := by
  refine writable_number.mono fun c d h => ?_
  obtain ⟨value, h⟩ := h
  exact .primary (.number h)

theorem writable_operand : Writable (Phrase.Derives .operand n) := by
  refine writable_number.mono fun c d h => ?_
  obtain ⟨value, h⟩ := h
  refine .term (fun e he => ?_) (.primary (.number h))
  cases (h.unique he).1

theorem writable_operation (bars : Bool) :
    Writable fun c d => ∃ pending, Phrase.Derives (.operation bars pending) n c d :=
  writable_operand.mono fun _ _ h => ⟨[], .operand h⟩

theorem writable_spans : Writable (Expression.Spans n) := writable_operation true

theorem writable_last : Writable (SpansLast n) := writable_spans.comp writable_endTag

theorem writable_assignment : Writable (SpansAssignment n) := by
  have hassign : Writable fun c d => c.ReadsSymbol .assign d := writable_symbol (by decide)
  have hlast : Writable (SpansLast n) := writable_last
  refine (writable_name.comp (hassign.comp hlast)).mono fun c d h => ?_
  obtain ⟨e, he, f, hf, hd⟩ := h
  exact ⟨e, f, .one he, hf, hd⟩

end Phrases

/-! ## Writable passages -/

theorem textRun_of_blank {w : List Char} (h : ∀ b ∈ w, Text.isBlank b = true) : textRun w = w := by
  induction w with
  | nil => rfl
  | cons c w ih =>
    have hno : ¬ opensTag (c :: w) = true := by
      intro ho
      obtain ⟨s, hs, rest, hr⟩ := exists_of_opensTag ho
      obtain ⟨d, hd⟩ := hs.spelling_eq
      rw [hd] at hr
      have hc := h c (by simp)
      rw [(List.cons.inj hr).1] at hc
      exact absurd hc (by decide)
    rw [textRun, if_neg hno, ih fun b hb => h b (List.mem_cons_of_mem c hb)]

/-- Text, and the tag behind it that closes a body, as far as its keyword. -/
def SpansClosing (closer : Keyword) (c d : Cursor) : Prop :=
  ∃ e, c.behindText.Opens .beginTag e ∧ e.ReadsWord closer d

/-- A tag that closes a body, as far as its keyword, with a blank before it. -/
def closingText (closer : Keyword) : List Char :=
  ' ' :: (Symbol.beginTag.spelling.toList ++ ' ' :: closer.spelling.toList)

/-- A closing tag is found behind any text, even if that ends with a brace. -/
theorem exists_spansClosing {closer : Keyword} {c : Cursor} {w v : List Char} (hw : textRun w = w)
    (hv : Apart v) (hc : c.rest = w ++ (closingText closer ++ v)) :
    ∃ d, SpansClosing closer c d ∧ d.rest = v := by
  let word := closer.spelling.toList ++ v
  let opening := Symbol.beginTag.spelling.toList ++ ' ' :: word
  have hrest : c.rest = (w ++ [' ']) ++ opening := by
    rw [hc, closingText]
    simp [opening, word]
  have hrun : textRun c.rest = w ++ [' '] := by
    have hopens : opensTag opening = true := rfl
    have hblank : textRun (' ' :: opening) = [' '] := by
      rw [textRun, textRun_of_opensTag hopens]
      rfl
    rw [hrest, List.append_assoc, textRun_append_of_text hw (.inr rfl)]
    exact congrArg (w ++ ·) hblank
  have htext : c.behindText.rest = [] ++ opening := by
    rw [Cursor.behindText, hrun, Cursor.past, hrest, List.drop_left, List.nil_append]
  have hbrace : Symbol.beginTag ≠ .openBrace := by decide
  obtain ⟨_, e, he, rfl, hword⟩ := Cursor.exists_reads_of_writtenAs htext (by simp)
    (.symbol .beginTag) hbrace (.blank word)
  have hword : e.rest = [' '] ++ word := hword
  obtain ⟨_, d, hd, rfl, hrest⟩ := Cursor.exists_reads_of_writtenAs hword
    (List.forall_mem_singleton.mpr (by decide)) (.name closer.spelling) closer.isIdentifier hv
  exact ⟨d, ⟨e, ⟨⟨_, htext.symm⟩, he⟩, hd⟩, hrest⟩

section Passages
variable {n k : Nat} {c d : Cursor}
open Passage

theorem writable_closing (closer : Keyword) : Writable (SpansClosing closer) :=
  ⟨closingText closer, .blank _, fun _ _ _ hb hv hc =>
    exists_spansClosing (textRun_of_blank hb) hv hc⟩

/-- A body may be empty. -/
theorem writable_body (n : Nat) (closer : Keyword) :
    Writable (Derives (.body closer) (n + 1) 0) := by
  refine (writable_closing closer).mono fun c d h => ?_
  obtain ⟨e, ho, hw⟩ := h
  exact .body (.text .nothing) ho hw

/-- A body, and the end of the tag that closes it. -/
def SpansClosed (closer : Keyword) (n k : Nat) : Cursor → Cursor → Prop :=
  Comp (Derives (.body closer) n k) fun c d => c.ReadsSymbol .endTag d

theorem writable_closed (n : Nat) (closer : Keyword) : Writable (SpansClosed closer (n + 1) 0) :=
  (writable_body n closer).comp writable_endTag

/-- An assignment is a tag that needs no body. -/
theorem writable_tag : Writable (Derives .tag n 0) := by
  refine ((writable_word .setWord).comp (writable_assignment (n := n))).mono fun c d h => ?_
  obtain ⟨e, hw, hx⟩ := h
  exact .setTag hw hx

/-- Contents that end with the source can be closed there. -/
theorem Passage.Derives.completable_body (h : Derives .contents n k c d) (hd : d.rest = [])
    (closer : Keyword) : Completable (Derives (.body closer) (n + 1) k) c := by
  refine ⟨closingText closer, .blank _, fun v hv => ?_⟩
  obtain ⟨e, hde, he⟩ := h.extend (Apart.append (.blank _) hv : Apart (closingText closer ++ v))
  have htext : textRun e.rest = e.rest := by
    rcases hde with rfl | rfl
    · rw [hd]
      rfl
    · have hall := e.rest_eq_textRun_append
      rw [hd, List.append_nil] at hall
      exact hall.symm
  obtain ⟨f, ⟨g, ho, hw⟩, hrest⟩ := exists_spansClosing htext hv (Cursor.extend_rest e _)
  exact ⟨f, .body (.text he) ho hw, hrest⟩

end Passages
end TemplateSyntax
