import TemplateSyntax.Proofs.BlamedBodies
import TemplateSyntax.Proofs.DepthGuard
import TemplateSyntax.Proofs.NoDrift
import TemplateSyntax.Proofs.SpanOrder
import TemplateSyntax.Proofs.TemplateSoundness
import TemplateSyntax.Proofs.UnfinishedReading

/-!
# What is reported of a fault

Whatever is called in a session, a call that fails reports a reason, a help and the name that was
given last, and it points to the part of the source that the reader has come to: to one character
that no token begins with, to one token that is not wanted, to the end of the source, or to what
begins a literal or a level. Only a second template that is extended is pointed to where it is
named.
-/
namespace TemplateSyntax

/-! ## Parts of a text -/

/-- The span cuts these characters out of the text. -/
def Span.CutsOut (s : Span) (text : String) (cs : List Char) : Prop :=
  ∃ before after, text.toList = before ++ cs ++ after ∧
    s = ⟨Position.start.advanceBy before, Position.start.advanceBy (before ++ cs)⟩

/-- Two positions of a text, in order, cut something out of it. -/
theorem Position.IsOf.cutsOut {text : String} {p q : Position} (hp : p.IsOf text)
    (hq : q.IsOf text) (hle : p.offset ≤ q.offset) : ∃ cs, (⟨p, q⟩ : Span).CutsOut text cs := by
  obtain ⟨xs, hxs, rfl⟩ := hp
  obtain ⟨ys, hys, rfl⟩ := hq
  obtain ⟨hxlen, xrest, hx⟩ := Text.exists_of_takeBytes? hxs
  obtain ⟨hylen, yrest, hy⟩ := Text.exists_of_takeBytes? hys
  have hprefix : xs <+: ys :=
    Text.prefix_of_utf8Len_le ⟨xrest, hx.symm⟩ ⟨yrest, hy.symm⟩ (by omega)
  obtain ⟨cs, rfl⟩ := hprefix
  exact ⟨cs, xs, yrest, hy, rfl⟩

namespace Cursor
variable {text : String} {c : Cursor}

theorem Reaches.cutsOut_empty (hc : (ofText text).Reaches c) :
    (Span.empty c.position).CutsOut text [] := by
  obtain ⟨before, htext, hposition⟩ := hc
  refine ⟨before, c.rest, ?_, ?_⟩
  · rw [List.append_nil]
    exact htext
  · rw [List.append_nil, hposition]
    rfl

/-- The next token is cut out of the text with what it is read from. -/
theorem Reaches.cutsOut_nextSpan (hc : (ofText text).Reaches c) :
    (c.nextSpan true).CutsOut text (c.nextPiece true).taken := by
  obtain ⟨before, htext, hposition⟩ := hc.trans c.reaches_skipBlanks
  refine ⟨before, (c.behindNext true).rest, ?_, ?_⟩
  · rw [List.append_assoc, ← c.skipBlanks_rest_eq true]
    exact htext
  · rw [Position.advanceBy_append]
    change (⟨c.skipBlanks.position, c.skipBlanks.position.advanceBy _⟩ : Span) = _
    rw [hposition]
    rfl

theorem Reaches.position_eq_of_rest (hc : (ofText text).Reaches c) (h : c.rest = []) :
    c.position = Position.start.advanceBy text.toList := by
  obtain ⟨before, htext, hposition⟩ := hc
  have hall : text.toList = before := by
    rw [h, List.append_nil] at htext
    exact htext
  rw [hposition, hall]
  rfl

theorem skipBlanks_rest (c : Cursor) : c.skipBlanks.rest = c.rest.dropWhile Text.isBlank := by
  have hrest : c.rest = c.rest.takeWhile Text.isBlank ++ c.skipBlanks.rest :=
    rest_eq_append_past (List.takeWhile_prefix _)
  have hsplit := List.takeWhile_append_dropWhile (p := Text.isBlank) (l := c.rest)
  exact List.append_cancel_left (hrest.symm.trans hsplit.symm)

theorem takeWhile_skipBlanks (c : Cursor) : c.skipBlanks.rest.takeWhile Text.isBlank = [] := by
  rw [skipBlanks_rest]
  exact List.takeWhile_eq_nil_iff.mpr (List.dropWhile_get_zero_not _ _)

/-- Behind the blanks before it, the same token is read. -/
theorem next_skipBlanks (c : Cursor) : c.skipBlanks.next true = c.next true := by
  have hskip : c.skipBlanks.skipBlanks = c.skipBlanks := by
    conv_lhs => rw [skipBlanks, takeWhile_skipBlanks]
    rfl
  simp only [Cursor.next, hskip]

end Cursor

/-! ## Characters -/

/-- No token begins with the character, and it is no blank either. -/
structure Text.BeginsNothing (c : Char) : Prop where
  notBlank : Text.isBlank c = false
  notDigit : c.isDigit = false
  /-- Underscores begin identifiers too. -/
  notName : Text.startsIdentifier c = false
  notQuote : Text.Quoted.isQuote c = false
  notSymbol : ∀ s : Symbol, s.spelling.toList.head? ≠ some c

/-- What a symbol begins with is a symbol of its own. -/
theorem Symbol.exists_singleton (s : Symbol) :
    ∃ t : Symbol, t.spelling.toList = s.spelling.toList.take 1 := by
  cases s with
  | notEqual | bang => exact ⟨.bang, by decide⟩
  | endTag | percent => exact ⟨.percent, by decide⟩
  | power | star => exact ⟨.star, by decide⟩
  | atMost | less => exact ⟨.less, by decide⟩
  | equal | assign => exact ⟨.assign, by decide⟩
  | atLeast | greater => exact ⟨.greater, by decide⟩
  | beginTag | beginPut | openBrace => exact ⟨.openBrace, by decide⟩
  | endPut | closeBrace => exact ⟨.closeBrace, by decide⟩
  | openParen => exact ⟨.openParen, by decide⟩
  | closeParen => exact ⟨.closeParen, by decide⟩
  | plus => exact ⟨.plus, by decide⟩
  | comma => exact ⟨.comma, by decide⟩
  | minus => exact ⟨.minus, by decide⟩
  | dot => exact ⟨.dot, by decide⟩
  | slash => exact ⟨.slash, by decide⟩
  | bar => exact ⟨.bar, by decide⟩

theorem Symbol.head?_ne_of_match?_eq_none {c : Char} {cs : List Char}
    (h : match? (c :: cs) = none) (s : Symbol) : s.spelling.toList.head? ≠ some c := by
  intro hs
  obtain ⟨t, ht⟩ := s.exists_singleton
  have hone : t.spelling.toList = [c] := by
    obtain ⟨a, as, ha⟩ := List.exists_cons_of_ne_nil s.spelling_ne_nil
    rw [ha] at hs ht
    rw [ht, ← Option.some.inj hs]
    rfl
  have hno := List.find?_eq_none.mp h t t.mem_all
  rw [hone] at hno
  simp at hno

/-- The character at fault is the only one that is taken, and no token begins with it. -/
theorem Piece.of_unexpectedCharacter {cs : List Char} (hcs : cs.takeWhile Text.isBlank = [])
    (h : (first true cs).token = .error .unexpectedCharacter) :
    ∃ c, (first true cs).taken = [c] ∧ Text.BeginsNothing c := by
  cases cs with
  | nil => cases h
  | cons c cs =>
    have hblank : Text.isBlank c = false := by
      by_contra hc
      simp [hc] at hcs
    simp only [first, Bool.true_and] at h ⊢
    split at h
    · cases h
    · next hquote =>
      rw [if_neg hquote]
      split at h
      · exact absurd h (by unfold number; dsimp only; split <;> simp)
      · next hdigit =>
        rw [if_neg hdigit]
        split at h
        · cases h
        · next hname =>
          rw [if_neg hname]
          split at h
          · cases h
          · next hsymbol =>
            refine ⟨c, rfl, hblank, ?_, ?_, ?_, Symbol.head?_ne_of_match?_eq_none hsymbol⟩
            · simpa using hdigit
            · simpa using hname
            · simpa using hquote

/-! ## Causes -/

namespace Cause
variable {c : Cause}

/-- The reasons that there are. -/
def reasons : List String :=
  ["unexpected token", "unexpected character", "unexpected eof", "invalid syntax"]

theorem reason_mem (c : Cause) : c.reason ∈ reasons := by
  cases c with
  | unexpected wanted found => cases found <;> simp [reason, reasons]
  | _ => simp [reason, reasons]

theorem reason_eq_character : c.reason = "unexpected character" ↔ c = .unexpectedCharacter := by
  cases c with
  | unexpected wanted found => cases found <;> simp [reason]
  | _ => simp [reason]

/-- The causes that are found where the source ends. -/
theorem reason_eq_eof : c.reason = "unexpected eof" ↔
    (∃ wanted, c = .unexpected wanted .endOfSource) ∨
      (∃ closers, c = .unclosedBody closers) ∨ c = .incomplete := by
  cases c with
  | unexpected wanted found => cases found <;> simp [reason]
  | _ => simp [reason]

/-- A token that is not wanted is not the end of the source. -/
theorem Concerns.ne_endOfSource {t : Token} (h : c.Concerns t)
    (hc : c.reason = "unexpected token") : t ≠ .endOfSource := by
  rintro rfl
  cases c with
  | unexpected wanted found =>
    obtain rfl : found = .endOfSource := h
    simp [reason] at hc
  | _ => cases h

theorem Concerns.eq_endOfSource {t : Token} (h : c.Concerns t)
    (hc : c.reason = "unexpected eof") : t = .endOfSource := by
  rcases reason_eq_eof.mp hc with ⟨wanted, rfl⟩ | ⟨closers, rfl⟩ | rfl
  · exact h.symm
  · cases h
  · cases h

/-- No other cause of a fault is worded like a second template that is extended. -/
theorem help_eq_secondParent : c.help = Cause.secondParent.help ↔ c = .secondParent := by
  refine ⟨fun h => ?_, fun h => h ▸ rfl⟩
  have hinitial : c.initial = 'a' :=
    Option.some.inj ((c.head?_help.symm.trans (by rw [h])).trans (head?_help _))
  cases c with
  | secondParent => rfl
  | tooDeep => exact absurd (show 'n' = 'a' from hinitial) (by decide)
  | numberTooLarge | unclosedString _ => exact absurd (show 't' = 'a' from hinitial) (by decide)
  | unknownEscape _ => exact absurd (show 'u' = 'a' from hinitial) (by decide)
  | _ => exact absurd (show 'e' = 'a' from hinitial) (by decide)

end Cause

/-! ## Faults -/

/-- What is reported of a call that has failed, where `t` is the session behind it. -/
structure Diagnostic.Faithful (text : String) (name : Option String) (t : Session) (e : Diagnostic)
    (span : Span) : Prop where
  reason_mem : e.reason ∈ Cause.reasons
  help_isSome : e.help.isSome = true
  name_eq : e.name = name
  span_eq : e.span = some span
  cutsOut : ∃ cs, span.CutsOut text cs
  stop_eq : e.help ≠ some Cause.secondParent.help → span.stop = t.cursor.position
  /-- A second template that is extended is shown where it is named. -/
  target : e.help = some Cause.secondParent.help →
    ∃ target, t.draft.ExtendsAgain text target ∧ span = target.span
  ended : e.reason = "unexpected eof" → span = .empty (Position.start.advanceBy text.toList)
  character : e.reason = "unexpected character" →
    ∃ c, span.CutsOut text [c] ∧ Text.BeginsNothing c
  /-- The token is found where the span begins, and reading has come to its end. -/
  token : e.reason = "unexpected token" →
    ∃ c l, (Cursor.ofText text).Reaches c ∧ c.position = span.start ∧
      c.next true = (.ok l, t.cursor) ∧ l.span = span ∧ l.token ≠ .endOfSource

namespace Draft
variable {text : String} {f : Fault} {d : Draft}

/-- Wherever the token that was found last stands, it is also found right behind its blanks. -/
theorem exists_of_found {x : Except Fault Lexeme} {r : Reader}
    (h : (Trail.ofText text).Found x r) :
    ∃ c, (Cursor.ofText text).Reaches c ∧ c.next true = (x, r.cursor) ∧
      c.position = (c.nextSpan true).start ∧ c.rest.takeWhile Text.isBlank = [] := by
  obtain ⟨n, c, hc, -, hnext⟩ := h
  have hc : (Cursor.ofText text).Reaches c := hc
  refine ⟨c.skipBlanks, hc.trans c.reaches_skipBlanks, ?_, ?_, c.takeWhile_skipBlanks⟩
  · rw [c.next_skipBlanks]
    exact hnext
  · change c.skipBlanks.position = c.skipBlanks.skipBlanks.position
    conv_rhs => rw [Cursor.skipBlanks, c.takeWhile_skipBlanks]
    rfl

theorem Blames.reaches (h : Blames text f d) : (Cursor.ofText text).Reaches d.reader.cursor := by
  cases h with
  | tooDeep h | ended h _ _ | extendsAgain h _ => exact h.2
  | token h =>
    rcases h with h | ⟨l, h, -⟩
    · obtain ⟨c, hc, hnext, -⟩ := exists_of_found h
      rw [(Cursor.next_eq_error hnext).2.2]
      exact hc.trans (c.reaches_behindNext true)
    · obtain ⟨c, hc, hnext, -⟩ := exists_of_found h
      rw [(Cursor.next_eq_ok hnext).2.2]
      exact hc.trans (c.reaches_behindNext true)

/-- A token may be released behind its fault. -/
theorem Blames.released (h : Blames text f d) : Blames text f d.released := by
  have same {d : Draft} (h : Free text d) : d.released = d := by
    obtain ⟨reader, current, enclosing, macros, blocks, parent, log⟩ := d
    obtain ⟨cursor, peeked, fetches⟩ := reader
    obtain ⟨hpeeked, -⟩ := h
    cases hpeeked
    rfl
  cases h with
  | token h => exact .token h
  | tooDeep h => rw [same h]; exact .tooDeep h
  | ended h hrest hcause => rw [same h]; exact .ended h hrest hcause
  | extendsAgain h htarget => rw [same h]; exact .extendsAgain h htarget

/-- The target of a tag that extends a template is cut out of the text. -/
theorem ExtendsAgain.cutsOut {target : Expression} (h : ExtendsAgain text d target) :
    ∃ cs, target.span.CutsOut text cs := by
  obtain ⟨-, l, r, n, hr, -, hread⟩ := h
  have hplaced : r.Placed text :=
    Reader.placed_of_reaches hr.reaches (by rw [hr.1]; exact everywhere_none)
  obtain ⟨htarget, -⟩ := places_lastExpression.ok hplaced hread
  obtain ⟨hstart, hstop⟩ := Expression.everywhere_span htarget
  obtain ⟨c, -, hrow⟩ := (Reader.row_lastExpression).ok (.inl ⟨hr.1, rfl⟩) hread
  obtain ⟨-, hfirm, -, -⟩ := hrow.mem (List.mem_singleton.mpr rfl)
  exact hstart.cutsOut hstop hfirm.1

end Draft

/-- What is to be shown of a fault for its report to be faithful. -/
structure Fault.Faithful (text : String) (t : Session) (f : Fault) : Prop where
  cutsOut : ∃ cs, f.span.CutsOut text cs
  stop_eq : f.cause ≠ .secondParent → f.span.stop = t.cursor.position
  target : f.cause = .secondParent →
    ∃ target, t.draft.ExtendsAgain text target ∧ f.span = target.span
  ended : f.cause.reason = "unexpected eof" → t.cursor.rest = [] ∧ f.span = .empty t.cursor.position
  character : f.cause = .unexpectedCharacter →
    ∃ c, f.span.CutsOut text [c] ∧ Text.BeginsNothing c
  token : f.cause.reason = "unexpected token" →
    ∃ c l, (Cursor.ofText text).Reaches c ∧ c.position = f.span.start ∧
      c.next true = (.ok l, t.cursor) ∧ l.span = f.span ∧ l.token ≠ .endOfSource

section Faults
variable {text : String} {f : Fault} {t : Session}

theorem Fault.Faithful.report (h : f.Faithful text t)
    (hreach : (Cursor.ofText text).Reaches t.cursor) (name : Option String) :
    (f.report text name).Faithful text name t f.span where
  reason_mem := f.cause.reason_mem
  help_isSome := rfl
  name_eq := rfl
  span_eq := rfl
  cutsOut := h.cutsOut
  stop_eq hhelp := by
    apply h.stop_eq
    intro hcause
    apply hhelp
    change some f.cause.help = _
    rw [hcause]
  target hhelp := h.target (Cause.help_eq_secondParent.mp (Option.some.inj hhelp))
  ended hreason := by
    obtain ⟨hrest, hspan⟩ := h.ended hreason
    rw [hspan, hreach.position_eq_of_rest hrest]
  character hreason := h.character (Cause.reason_eq_character.mp hreason)
  token := h.token

/-- A fault of the cursor: a character that begins nothing, or a number. -/
theorem Fault.faithful_of_error (h : (Trail.ofText text).Found (.error f) t.draft.reader) :
    f.Faithful text t := by
  obtain ⟨c, hc, hnext, -⟩ := Draft.exists_of_found h
  obtain ⟨hpiece, hspan, hcursor⟩ := Cursor.next_eq_error hnext
  have hcut : f.span.CutsOut text (c.nextPiece true).taken := hspan ▸ hc.cutsOut_nextSpan
  have hstop : f.span.stop = t.cursor.position := by
    change _ = t.draft.reader.cursor.position
    rw [hspan, hcursor]
    rfl
  have hcause := Piece.error_first hpiece
  constructor
  case cutsOut => exact ⟨_, hcut⟩
  case stop_eq => exact fun _ => hstop
  case target =>
    intro hsecond
    rw [hsecond] at hcause
    simp at hcause
  case ended =>
    intro hreason
    rcases hcause with hcause | hcause <;> rw [hcause] at hreason <;> simp [Cause.reason] at hreason
  case character =>
    intro hcharacter
    rw [hcharacter] at hpiece
    obtain ⟨x, htaken, hx⟩ := Piece.of_unexpectedCharacter c.takeWhile_skipBlanks hpiece
    have htaken : (c.nextPiece true).taken = [x] := htaken
    rw [htaken] at hcut
    exact ⟨x, hcut, hx⟩
  case token =>
    intro hreason
    rcases hcause with hcause | hcause <;> rw [hcause] at hreason <;> simp [Cause.reason] at hreason

/-- A token that is to blame. -/
theorem Fault.faithful_of_token {l : Lexeme}
    (h : (Trail.ofText text).Found (.ok l) t.draft.reader) (hl : f.span = l.span)
    (hconcerns : f.cause.Concerns l.token) : f.Faithful text t := by
  obtain ⟨c, hc, hnext, hstart, hblanks⟩ := Draft.exists_of_found h
  obtain ⟨hpiece, hspan, hcursor⟩ := Cursor.next_eq_ok hnext
  have hcut : f.span.CutsOut text (c.nextPiece true).taken := by
    rw [hl, hspan]
    exact hc.cutsOut_nextSpan
  have hstop : f.span.stop = t.cursor.position := by
    change _ = t.draft.reader.cursor.position
    rw [hl, hspan, hcursor]
    rfl
  constructor
  case cutsOut => exact ⟨_, hcut⟩
  case stop_eq => exact fun _ => hstop
  case target =>
    intro hsecond
    rw [hsecond] at hconcerns
    cases hconcerns
  case ended =>
    intro hreason
    have hend : (c.nextPiece true).token = .ok .endOfSource := by
      rw [hpiece, hconcerns.eq_endOfSource hreason]
    have hrest : c.rest = [] := by
      have hskip := Cursor.nextPiece_eq_endOfSource_iff.mp hend
      rw [c.skipBlanks_rest] at hskip
      rw [← List.takeWhile_append_dropWhile (p := Text.isBlank) (l := c.rest), hblanks, hskip]
      rfl
    rw [Cursor.next_of_rest_eq_nil hrest] at hnext
    obtain ⟨hlexeme, hplace⟩ := Prod.mk.inj hnext
    have hplace : c = t.cursor := hplace
    rw [hl, ← Except.ok.inj hlexeme, ← hplace]
    exact ⟨hrest, rfl⟩
  case character =>
    intro hcharacter
    rw [hcharacter] at hconcerns
    cases hconcerns
  case token =>
    intro hreason
    refine ⟨c, l, hc, ?_, hnext, hl.symm, hconcerns.ne_endOfSource hreason⟩
    rw [hl, hspan]
    exact hstart

/-- Wherever a draft has come to a fault, the report of that is faithful. -/
theorem Draft.Blames.faithful (h : Blames text f t.draft) : f.Faithful text t := by
  cases h with
  | token h =>
    rcases h with h | ⟨l, h, hl, hconcerns⟩
    · exact Fault.faithful_of_error h
    · exact Fault.faithful_of_token h hl hconcerns
  | tooDeep h =>
    exact {
      cutsOut := ⟨[], h.2.cutsOut_empty⟩
      stop_eq := fun _ => rfl
      target := nofun
      ended := fun hreason => absurd hreason (by simp [Cause.reason])
      character := nofun
      token := fun hreason => absurd hreason (by simp [Cause.reason]) }
  | ended h hrest hcause =>
    constructor
    case cutsOut => exact ⟨[], h.2.cutsOut_empty⟩
    case stop_eq => exact fun _ => rfl
    case ended => exact fun _ => ⟨hrest, rfl⟩
    all_goals
      rintro hreason
      obtain ⟨closers, rfl⟩ | rfl := hcause <;> simp [Cause.reason] at hreason
  | extendsAgain h htarget =>
    exact {
      cutsOut := htarget.cutsOut
      stop_eq := fun hcause => absurd rfl hcause
      target := fun _ => ⟨_, htarget, rfl⟩
      ended := fun hreason => absurd hreason (by simp [Cause.reason])
      character := fun hcause => absurd hcause (by simp)
      token := fun hreason => absurd hreason (by simp [Cause.reason]) }

end Faults

/-! ## Calls -/

namespace Session
variable {α : Type} {text : String} {s t : Session}

/-- The session reads the text, and stands in it. -/
def Reads (text : String) (s : Session) : Prop :=
  s.source = text ∧ (Trail.ofText text).On s.draft.reader

/-- Whatever the result reports, it is a fault that the session behind it has come to. -/
def Reports (text : String) (name : Option String) (result : Except Diagnostic α) (t : Session) :
    Prop :=
  ∀ e, result = .error e → ∃ f, e = f.report text name ∧ Draft.Blames text f t.draft

theorem reads_start (text : String) (name : Option String) : (start text name).Reads text :=
  ⟨rfl, .inl ⟨rfl, .refl _⟩⟩

theorem reads_of_free (hs : s.source = text) (h : Draft.Free text s.draft) : s.Reads text :=
  ⟨hs, .inl h⟩

theorem reports_ok (a : α) (name : Option String) : Reports text name (.ok a) t := by
  intro e he
  cases he

theorem reports_error {f : Fault} (hs : s.source = text) (h : Draft.Blames text f t.draft) :
    Reports text s.name (.error (s.report f) : Except Diagnostic α) t := by
  intro e he
  cases he
  exact ⟨f, by rw [report, hs], h⟩

/-- A call that only takes tokens. -/
theorem run_lift_reports (hs : s.Reads text) {m : ReadM α}
    (hm : (Trail.ofText text).Truthful m) :
    (s.run (liftM m)).2.Reads text ∧
      Reports text s.name (s.run (liftM m)).1 (s.run (liftM m)).2 := by
  obtain ⟨hsource, hon⟩ := hs
  have h := hm s.draft.reader hon
  cases hr : m s.draft.reader with
  | ok a r =>
    rw [hr] at h
    have hrun : (liftM m : DraftM α) s.draft = .ok a { s.draft with reader := r } := by
      rw [run_lift, hr]
    rw [run_of_ok hrun]
    exact ⟨⟨hsource, h⟩, reports_ok a _⟩
  | error f r =>
    rw [hr] at h
    have hrun : (liftM m : DraftM α) s.draft = .error f { s.draft with reader := r } := by
      rw [run_lift, hr]
    rw [run_of_error hrun]
    have hblames : Draft.Blames text f { s.draft with reader := r } := .token h.2
    exact ⟨reads_of_free hsource ⟨h.1, hblames.reaches⟩, reports_error hsource hblames⟩

theorem process_reports (hs : s.Reads text) (hc : s.Allows .process) :
    Draft.Free text s.process.2.draft ∧ s.process.2.source = text ∧
      Reports text s.name s.process.1 s.process.2 := by
  obtain ⟨hsource, hon⟩ := hs
  have hfree : Draft.Free text s.draft := by
    rcases hon with hon | ⟨l, hl, -⟩
    · exact hon
    · have hc : s.draft.reader.peeked = none := hc
      rw [hc] at hl
      cases hl
  have h := Draft.honest_readAll s.draft hfree
  cases hr : Draft.readAll s.draft with
  | ok u d =>
    rw [hr] at h
    rw [process_of_ok hr]
    exact ⟨h, hsource, reports_ok _ _⟩
  | error f d =>
    rw [hr] at h
    rw [process_of_error hr]
    exact ⟨⟨rfl, h.reaches⟩, hsource, reports_error hsource h.released⟩

/-- A source that was read through without a template coming of it is incomplete. -/
theorem generate_reports (hs : s.Reads text) (hc : s.Allows .process) :
    s.generate.2.Reads text ∧ Reports text s.name s.generate.1 s.generate.2 := by
  obtain ⟨hfree, hsource, hreports⟩ := process_reports hs hc
  cases hr : Draft.readAll s.draft with
  | error f d =>
    have hp := process_of_error hr
    rw [generate, hp]
    rw [hp] at hfree hsource hreports
    refine ⟨reads_of_free hsource hfree, fun e he => hreports e ?_⟩
    cases he
    rfl
  | ok u d =>
    have hp := process_of_ok hr
    have hrest := Draft.rest_of_readAll hc hr
    rw [hp] at hfree hsource
    rw [generate, hp]
    dsimp only
    split
    · exact ⟨reads_of_free hsource hfree, reports_ok _ _⟩
    · exact ⟨reads_of_free hsource hfree,
        reports_error hs.1 (.ended hfree hrest (.inr rfl))⟩

theorem error_of_diagnostic? {answer : Except Diagnostic α → Answer}
    (h : ∀ a, (answer (.ok a)).diagnostic? = none)
    (h' : ∀ e, (answer (.error e)).diagnostic? = some e) {result : Except Diagnostic α}
    {e : Diagnostic} (he : (answer result).diagnostic? = some e) : result = .error e := by
  cases result with
  | ok a =>
    rw [h] at he
    cases he
  | error e' =>
    rw [h'] at he
    cases he
    rfl

/-- A call keeps to the text, and reports a fault that it has come to. -/
theorem call_reports (hs : s.Reads text) {c : Call} (hc : s.Allows c) :
    (s.call c).2.Reads text ∧ ∀ e, (s.call c).1.diagnostic? = some e →
      ∃ f, e = f.report text s.name ∧ Draft.Blames text f (s.call c).2.draft := by
  cases c with
  | process =>
    obtain ⟨hfree, hsource, hreports⟩ := process_reports hs hc
    exact ⟨reads_of_free hsource hfree, fun e he =>
      hreports e (error_of_diagnostic? (fun _ => rfl) (fun _ => rfl) he)⟩
  | generate =>
    obtain ⟨hreads, hreports⟩ := generate_reports hs hc
    exact ⟨hreads, fun e he =>
      hreports e (error_of_diagnostic? (fun _ => rfl) (fun _ => rfl) he)⟩
  | expression stops =>
    obtain ⟨hreads, hreports⟩ := run_lift_reports hs (Expression.truthful_read depthLimit stops)
    exact ⟨hreads, fun e he =>
      hreports e (error_of_diagnostic? (fun _ => rfl) (fun _ => rfl) he)⟩
  | next =>
    obtain ⟨hreads, hreports⟩ := run_lift_reports hs Trail.Truthful.next
    exact ⟨hreads, fun e he =>
      hreports e (error_of_diagnostic? (fun _ => rfl) (fun _ => rfl) he)⟩
  | withName name =>
    refine ⟨hs, fun e he => ?_⟩
    cases he

/-! ## Sessions -/

/-- The session behind some calls, of which some may have failed. -/
def after (s : Session) (calls : List Call) : Session :=
  calls.foldl (fun t c => (t.call c).2) s

/-- What calls in a row answer. -/
def answers : Session → List Call → List Answer
  | _, [] => []
  | s, c :: calls => (s.call c).1 :: answers (s.call c).2 calls

/-- No call reads bodies while a token is kept back. -/
def AllowsAll : Session → List Call → Prop
  | _, [] => True
  | s, c :: calls => s.Allows c ∧ AllowsAll (s.call c).2 calls

theorem after_reads {calls : List Call} (hs : s.Reads text) (hc : s.AllowsAll calls) :
    (s.after calls).Reads text := by
  induction calls generalizing s with
  | nil => exact hs
  | cons c calls ih => exact ih (call_reports hs hc.1).1 hc.2

theorem allowsAll_append {calls more : List Call} :
    s.AllowsAll (calls ++ more) ↔ s.AllowsAll calls ∧ (s.after calls).AllowsAll more := by
  induction calls generalizing s with
  | nil => simp [AllowsAll, after]
  | cons c calls ih =>
    rw [List.cons_append, AllowsAll, ih, AllowsAll, and_assoc]
    rfl

/-! ## Names -/

/-- The name that a call gives. -/
def Call.name? : Call → Option String
  | .withName name => some name
  | _ => none

/-- The name that was given last. -/
def lastName (name : Option String) (calls : List Call) : Option String :=
  (calls.filterMap Call.name?).getLast?.or name

theorem lastName_cons (name : Option String) (c : Call) (calls : List Call) :
    lastName name (c :: calls) = lastName (c.name?.or name) calls := by
  cases c with
  | withName given =>
    change ((given :: calls.filterMap Call.name?).getLast?).or name = _
    rw [List.getLast?_cons]
    unfold lastName
    cases (calls.filterMap Call.name?).getLast? <;> rfl
  | _ => rfl

theorem call_name (s : Session) (c : Call) : (s.call c).2.name = c.name?.or s.name := by
  have hrun {α : Type} (m : DraftM α) : (s.run m).2.name = s.name := by
    unfold run
    split <;> rfl
  have hprocess : s.process.2.name = s.name := by
    rw [process_eq]
    have h := hrun Draft.readAll
    rcases hr : s.run Draft.readAll with ⟨_ | _, t⟩ <;> rw [hr] at h <;> exact h
  cases c with
  | process => exact hprocess
  | generate =>
    change s.generate.2.name = s.name
    rw [generate]
    rcases hp : s.process with ⟨_ | _, t⟩ <;> rw [hp] at hprocess
    · exact hprocess
    · dsimp only
      split <;> exact hprocess
  | expression stops => exact hrun _
  | next => exact hrun _
  | withName name => rfl

theorem after_name (s : Session) (calls : List Call) :
    (s.after calls).name = lastName s.name calls := by
  induction calls generalizing s with
  | nil => rfl
  | cons c calls ih =>
    rw [lastName_cons, ← call_name]
    exact ih _

/-- Whether a call reads on, or asks for what was read. -/
def Call.reads (c : Call) : Bool := c.name?.isNone

/-- The session without a name. -/
def nameless (s : Session) : Session := { s with name := none }

end Session

/-- The diagnostic without a name. -/
def Diagnostic.nameless (e : Diagnostic) : Diagnostic := { e with name := none }

/-- What a call that reads on answers, without the name in it. -/
def Session.Answer.nameless? : Session.Answer → Option Session.Answer
  | .processed result => some (.processed (result.mapError Diagnostic.nameless))
  | .generated result => some (.generated (result.mapError Diagnostic.nameless))
  | .read result => some (.read (result.mapError Diagnostic.nameless))
  | .taken result => some (.taken (result.mapError Diagnostic.nameless))
  | .renamed => none

namespace Session
variable {text : String} {s : Session}

theorem run_nameless {α : Type} (s : Session) (m : DraftM α) :
    s.nameless.run m = ((s.run m).1.mapError Diagnostic.nameless, (s.run m).2.nameless) := by
  have hdraft : s.nameless.draft = s.draft := rfl
  unfold run
  rw [hdraft]
  cases m s.draft <;> rfl

theorem process_nameless (s : Session) :
    s.nameless.process = (s.process.1.mapError Diagnostic.nameless, s.process.2.nameless) := by
  rw [process_eq, process_eq, run_nameless]
  rcases s.run Draft.readAll with ⟨_ | _, t⟩ <;> rfl

theorem generate_nameless (s : Session) :
    s.nameless.generate = (s.generate.1.mapError Diagnostic.nameless, s.generate.2.nameless) := by
  rw [generate, generate, process_nameless]
  rcases s.process with ⟨_ | _, t⟩
  · rfl
  · change (if t.draft.enclosing.isEmpty then _ else _) = _
    dsimp only
    split <;> rfl

/-- The name shows in what a call reports, and in nothing else. -/
theorem call_nameless (s : Session) {c : Call} (hc : c.reads = true) :
    (s.nameless.call c).1.nameless? = (s.call c).1.nameless? ∧
      (s.nameless.call c).2 = (s.call c).2.nameless := by
  have twice {α : Type} (result : Except Diagnostic α) :
      (result.mapError Diagnostic.nameless).mapError Diagnostic.nameless =
        result.mapError Diagnostic.nameless := by
    cases result <;> rfl
  cases c with
  | process => simp only [call, process_nameless, Answer.nameless?, twice, and_self]
  | generate => simp only [call, generate_nameless, Answer.nameless?, twice, and_self]
  | expression stops =>
    simp only [call, expression, run_nameless, Answer.nameless?, twice, and_self]
  | next => simp only [call, next, run_nameless, Answer.nameless?, twice, and_self]
  | withName name => cases hc

/-- A session in which no name is given comes to the same. -/
theorem answers_nameless (s : Session) (calls : List Call) :
    (s.answers calls).filterMap Answer.nameless? =
        (s.nameless.answers (calls.filter Call.reads)).filterMap Answer.nameless? ∧
      (s.after calls).nameless = s.nameless.after (calls.filter Call.reads) := by
  induction calls generalizing s with
  | nil => exact ⟨rfl, rfl⟩
  | cons c calls ih =>
    obtain ⟨hanswers, hafter⟩ := ih (s.call c).2
    by_cases hc : c.reads = true
    · obtain ⟨hanswer, hcall⟩ := s.call_nameless hc
      rw [List.filter_cons_of_pos hc]
      constructor
      · rw [answers, answers, List.filterMap_cons, List.filterMap_cons, hanswer, hcall, hanswers]
      · rw [← hcall] at hafter
        exact hafter
    · rw [List.filter_cons_of_neg hc]
      cases c with
      | withName name => exact ⟨hanswers, hafter⟩
      | process | generate | expression _ | next => exact absurd rfl hc

end Session

/-- Whatever is called in a session, as long as no bodies are read while a token is kept back: what
a call reports is faithful, under the name that was given last; and the names that are given, and
when, make no other difference to what calls answer and to what they leave. -/
theorem Session.reports_faithful (text : String) (name : Option String) (calls : List Session.Call)
    (hcalls : (Session.start text name).AllowsAll calls) :
    (∀ before c after, calls = before ++ c :: after →
      let s := (Session.start text name).after before
      ∀ e, (s.call c).1.diagnostic? = some e →
        ∃ span, e.Faithful text (lastName name before) (s.call c).2 span) ∧
    ∀ (name' : Option String) (calls' : List Session.Call),
      calls'.filter Call.reads = calls.filter Call.reads →
        ((Session.start text name').answers calls').filterMap Answer.nameless? =
            ((Session.start text name).answers calls).filterMap Answer.nameless? ∧
          ((Session.start text name').after calls').draft =
            ((Session.start text name).after calls).draft := by
  constructor
  · rintro before c after rfl s e he
    obtain ⟨hbefore, hc, -⟩ := allowsAll_append.mp hcalls
    have hreads : s.Reads text := after_reads (reads_start text name) hbefore
    obtain ⟨-, hreports⟩ := call_reports hreads hc
    obtain ⟨f, rfl, hblames⟩ := hreports e he
    have hname : s.name = lastName name before := after_name _ _
    rw [hname]
    exact ⟨f.span, hblames.faithful.report hblames.reaches _⟩
  · intro name' calls' hsame
    obtain ⟨hanswers, hafter⟩ := (start text name).answers_nameless calls
    obtain ⟨hanswers', hafter'⟩ := (start text name').answers_nameless calls'
    rw [hsame] at hanswers' hafter'
    have hstart : (start text name').nameless = (start text name).nameless := rfl
    rw [hstart] at hanswers' hafter'
    have hdraft : ((start text name').after calls').nameless.draft =
        ((start text name).after calls).nameless.draft := by rw [hafter', hafter]
    exact ⟨hanswers'.trans hanswers.symm, hdraft⟩

/-- A template extends two others: the second one is shown, under the name that was given. -/
theorem Session.reports_faithful_extends :
    let text := "\x7b% extends a %\x7d\x7b% extends b %\x7d"
    let s := (start text).after [.withName "t"]
    ∃ e span, (s.call .process).1.diagnostic? = some e ∧
      e.Faithful text (some "t") (s.call .process).2 span ∧ span = ⟨⟨26, 1, 26⟩, ⟨27, 1, 27⟩⟩ := by
  intro text s
  have hcalls : (start text).AllowsAll [.withName "t", .process] := ⟨trivial, rfl, trivial⟩
  have hspan : ((s.call .process).1.diagnostic?.bind (·.span)) =
      some ⟨⟨26, 1, 26⟩, ⟨27, 1, 27⟩⟩ := by decide +kernel
  obtain ⟨e, he, hespan⟩ := Option.bind_eq_some_iff.mp hspan
  obtain ⟨span, hfaithful⟩ :=
    (reports_faithful text none _ hcalls).1 [.withName "t"] .process [] rfl e he
  refine ⟨e, span, he, hfaithful, ?_⟩
  rw [hfaithful.span_eq] at hespan
  exact Option.some.inj hespan

end TemplateSyntax
