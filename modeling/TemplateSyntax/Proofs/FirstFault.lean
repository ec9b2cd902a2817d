import TemplateSyntax.Proofs.NoDrift
import TemplateSyntax.Proofs.TruncatedReading

/-!
# The first fault of a source

A fault is found at the first token that cannot go on with the template. Bodies are read beside a
cut like the tags in them: as long as the cut is not passed both sources give the same, and if the
shorter one ends inside a tag it fails there. So if a fault begins at the cut, the shorter source
fails because it ends.
-/
namespace TemplateSyntax
open Reader

variable {v : List Char} {p : Position}

namespace Draft
variable {levels : Nat} {body : BodyReader} {opening : Span}

/-! ## Drafts beside a cut -/

/-- The drafts stand at the same place before the cut, the second one in the shorter source, and no
token is looked at. -/
def Twin (v : List Char) (p : Position) (d d' : Draft) : Prop :=
  d.reader.peeked = none ∧ ∃ r, Reader.Twin v p d.reader r ∧ d' = { d with reader := r }

/-- How drafts stand to a cut. No reader of bodies goes on where the shorter source has ended. -/
def cutView (v : List Char) (p : Position) : CutView Draft where
  place := p
  twin := Twin v p
  ended _ := False
  past d := d.reader.peeked = none ∧ Reader.Beyond p d.reader

variable {α β : Type} {V : α → Prop}

/-- A computation on drafts beside a cut. -/
abbrev Steady (v : List Char) (p : Position) (V : α → Prop) (m : DraftM α) : Prop :=
  Bounded (cutView v p) V V m

theorem quiet (m : DraftM α) : Quiet (cutView v p) V m := fun _ h => h.elim

theorem steady_throw {f : Fault} (hf : f.Elsewhere p) :
    Steady v p V (throw f : DraftM α) := ⟨.throw hf, quiet _⟩

theorem steady_lift {m : ReadM α} (h : Bounded (Reader.cutView v p) V (fun _ => False) m)
    (hs : Settles m) : Steady v p V (liftM m : DraftM α) := by
  refine ⟨⟨?_, ?_⟩, quiet _⟩
  · rintro d _ ⟨-, r, hr, rfl⟩
    have hx := h.twin _ _ hr
    have hsettles := hs d.reader
    rw [run_lift, run_lift]
    generalize m d.reader = x, m r = x' at hx hsettles
    cases hx with
    | same ha ht => exact .same ha ⟨hsettles _ _ rfl, _, ht, rfl⟩
    | ended he =>
      cases x' with
      | ok a t => exact he.1.elim
      | error f t => exact .ended he
    | missed hm =>
      cases x with
      | ok a t => exact .missed ⟨hm.1, hsettles a t rfl, hm.2⟩
      | error f t => exact .missed hm
  · rintro d ⟨-, hd⟩
    have hx := h.past d.reader hd
    have hsettles := hs d.reader
    rw [run_lift]
    cases hr : m d.reader with
    | ok a t =>
      rw [hr] at hx
      exact ⟨hx.1, hsettles a t hr, hx.2⟩
    | error f t => rwa [hr] at hx

theorem steady_aside {m : DraftM α} (h : Aside m) : Steady v p (fun _ => True) m := by
  obtain ⟨g, hg, rfl⟩ := h
  have hreader (d : Draft) : (g d).2.reader = d.reader :=
    congrArg (fun x => x.2.reader) (hg d d.reader rfl)
  refine ⟨⟨?_, ?_⟩, quiet _⟩
  · rintro d _ ⟨hp, r, hr, rfl⟩
    have hposition : r.cursor.position = d.reader.cursor.position := by
      obtain ⟨⟨x, -, -, rfl⟩, -⟩ := hr
      rfl
    rw [run_modifyGet, run_modifyGet, hg d r hposition]
    refine .same trivial ⟨?_, r, ?_, rfl⟩
    · rwa [hreader]
    · rwa [hreader]
  · rintro d ⟨hp, hd⟩
    refine ⟨trivial, ?_, ?_⟩
    · rwa [hreader]
    · rwa [hreader]

/-- What opens a tag or a placeable is one of their two symbols. -/
def Opening (found : Option Lexeme) : Prop :=
  ∀ l, found = some l → ∃ s : Symbol, s.Opens ∧ l.token = .symbol s

theorem steady_opening (hv : v ≠ []) : Steady v p Opening Draft.opening := by
  have hfound (d : Draft) (hp : d.reader.peeked = none) :
      ∃ found t, Draft.opening d = .ok found t ∧ Opening found ∧ t.reader.peeked = none ∧
        d.reader.cursor.Reaches t.reader.cursor := by
    have hreaches (found : Option Lexeme) (t : Draft) (h : Draft.opening d = .ok found t) :=
      Ensures.ok (PieceWise.opening.reaches d.reader.cursor) (.refl _) h
    rcases opening_of_settled hp with ⟨-, h⟩ | ⟨s, hs, -, h⟩
    · exact ⟨none, _, h, fun l hl => (by cases hl), hp, hreaches _ _ h⟩
    · refine ⟨_, _, h, fun l hl => ?_, hp, hreaches _ _ h⟩
      cases hl
      exact ⟨s, hs, rfl⟩
  refine ⟨⟨?_, ?_⟩, quiet _⟩
  · rintro d _ ⟨hp, _, ⟨⟨x, hx, hposition, rfl⟩, -⟩, rfl⟩
    obtain ⟨found, t, hrun, hopening, hpt, hreach⟩ := hfound d hp
    have hsame := (local_opening (.nil v) hv).same d
      { d with reader := d.reader.before x } ⟨hp, _, ⟨x, hx, rfl⟩, by rw [List.append_nil]⟩
    rw [hrun] at hsame ⊢
    rcases hreach.cut hx hposition with ⟨hle, y, hy, hplace⟩ | ⟨-, hpast⟩
    · rcases hsame with hpast | hsame
      · exact absurd hpast (Nat.not_lt.mpr hle)
      · generalize Draft.opening { d with reader := d.reader.before x } = x' at hsame
        cases hsame with
        | ok _ hagree =>
          obtain ⟨-, r, ⟨z, hz, rfl⟩, rfl⟩ := hagree
          obtain rfl : z = y := List.append_cancel_right (hz.symm.trans hy)
          rw [List.append_nil]
          exact .same hopening ⟨hpt, _, ⟨⟨z, hz, hplace, rfl⟩, fun l h => by simp [hpt] at h⟩, rfl⟩
    · exact .missed ⟨hopening, hpt, hpast, fun l h => by simp [hpt] at h⟩
  · rintro d ⟨hp, hd⟩
    obtain ⟨found, t, hrun, hopening, hpt, taken, -, htaken⟩ := hfound d hp
    rw [hrun]
    refine ⟨hopening, hpt, ?_, fun l h => by simp [hpt] at h⟩
    have := hd.offset
    rw [htaken, Position.offset_advanceBy]
    omega

/-! ## Tags and bodies beside a cut -/

/-- A reader of bodies beside a cut, whatever words close the body. -/
def BodyReader.Steady (v : List Char) (p : Position) (body : BodyReader) : Prop :=
  ∀ closers, Draft.Steady v p (fun _ => True) (body closers)

variable (hv : v ≠ [])
include hv

theorem steady_endTag : Steady v p (fun span => span.Off p) (liftM endTag : DraftM Span) :=
  steady_lift (bounded_endTag hv) settles_endTag

theorem steady_lastExpression :
    Steady v p (fun e => e.span.Off p) (liftM (lastExpression levels) : DraftM Expression) :=
  steady_lift (bounded_lastExpression hv) settles_lastExpression

theorem steady_nextArm (hbody : body.Steady v p) (b : List (Arm Statement) × Closing) :
    Steady v p (OnStep fun _ => True) (nextArm levels body b) := by
  unfold nextArm
  dsimp only
  split
  · refine (steady_lastExpression hv).seq fun condition _ => ?_
    exact (hbody _).seq fun _ _ => .pure trivial trivial
  · exact .pure trivial trivial

theorem steady_ifTag (hb : body.PieceWise) (hbody : body.Steady v p) :
    Steady v p (fun _ => True) (ifTag levels body opening) := by
  refine (steady_lastExpression hv).seq fun condition _ => ?_
  refine (hbody _).seq fun (first, closing) _ => ?_
  refine (Bounded.loop (descends_nextArm hb) (fun b _ => steady_nextArm hv hbody b)
    trivial).seq fun (arms, closing) _ => ?_
  dsimp only
  split
  · refine (steady_endTag hv).discard.seq fun _ _ => (hbody _).seq fun _ _ => ?_
    exact (steady_endTag hv).discard.seq fun _ _ => .pure trivial trivial
  · exact (steady_endTag hv).discard.seq fun _ _ => .pure trivial trivial

theorem steady_forTag (hbody : body.Steady v p) :
    Steady v p (fun _ => True) (forTag levels body opening) := by
  refine (steady_lift (bounded_loopHead hv) settles_loopHead).seq
    fun (target, iterable, condition) _ => ?_
  refine (hbody _).seq fun (main, closing) _ => ?_
  dsimp only
  split
  · refine (steady_endTag hv).discard.seq fun _ _ => (hbody _).seq fun _ _ => ?_
    exact (steady_endTag hv).discard.seq fun _ _ => .pure trivial trivial
  · exact (steady_endTag hv).discard.seq fun _ _ => .pure trivial trivial

theorem steady_callTag (hbody : body.Steady v p) :
    Steady v p (fun _ => True) (callTag levels body opening) := by
  refine (steady_lift (bounded_callHead hv) settles_callHead).seq fun _ _ => ?_
  refine (hbody _).seq fun _ _ => ?_
  exact (steady_endTag hv).discard.seq fun _ _ => .pure trivial trivial

theorem steady_filterTag (hbody : body.Steady v p) :
    Steady v p (fun _ => True) (filterTag levels body opening) := by
  refine (steady_lastExpression hv).seq fun _ _ => (hbody _).seq fun _ _ => ?_
  exact (steady_endTag hv).discard.seq fun _ _ => .pure trivial trivial

theorem steady_blockTag (hbody : body.Steady v p) :
    Steady v p (fun _ => True) (blockTag body opening) := by
  refine (steady_lift (bounded_blockHead hv) settles_blockHead).seq fun name _ => ?_
  refine (hbody _).seq fun _ _ => ?_
  refine (steady_lift (bounded_blockEnd hv _) (settles_blockEnd _)).seq fun close _ => ?_
  exact (steady_aside (aside_define _)).seq fun _ _ => .pure trivial trivial

theorem steady_macroTag (hbody : body.Steady v p) :
    Steady v p (fun _ => True) (macroTag levels body opening) := by
  refine (steady_lift (bounded_macroHead hv) settles_macroHead).seq fun _ _ => ?_
  refine (hbody _).seq fun _ _ => (steady_endTag hv).discard.seq fun _ _ => ?_
  exact steady_aside (aside_define _)

theorem steady_extendsTag : Steady v p (fun _ => True) (extendsTag levels) := by
  refine (steady_lastExpression hv).seq fun target htarget => ?_
  refine (steady_aside (aside_setParent _)).seq fun isFirst _ => ?_
  split
  · exact .pure trivial trivial
  · exact steady_throw (.inl htarget)

theorem steady_tag (hb : body.PieceWise) (hbody : body.Steady v p) {name : Identifier}
    (hname : name.span.Off p) : Steady v p (fun _ => True) (tag levels body opening name) := by
  unfold tag
  split
  · exact (steady_ifTag hv hb hbody).seq fun _ _ => steady_aside (aside_push _)
  · exact (steady_forTag hv hbody).seq fun _ _ => steady_aside (aside_push _)
  · exact (steady_lift (bounded_setTag hv) settles_setTag).seq fun _ _ =>
      steady_aside (aside_push _)
  · exact (steady_callTag hv hbody).seq fun _ _ => steady_aside (aside_push _)
  · exact (steady_filterTag hv hbody).seq fun _ _ => steady_aside (aside_push _)
  · exact (steady_blockTag hv hbody).seq fun _ _ => steady_aside (aside_push _)
  · exact steady_macroTag hv hbody
  · exact steady_extendsTag hv
  · exact steady_throw (.inl hname)

theorem steady_piece (hb : body.PieceWise) (hbody : body.Steady v p) (closers : List Keyword) :
    Steady v p (OnStep fun _ => True) (piece levels body closers) := by
  refine (steady_opening hv).seq fun found hfound => ?_
  split
  · exact .pure trivial trivial
  · next l =>
    obtain ⟨s, hs, hl⟩ := hfound l rfl
    split
    · refine (steady_lift (bounded_placeable hv) settles_placeable).seq fun _ _ => ?_
      exact (steady_aside (aside_push _)).seq fun _ _ => .pure trivial trivial
    · refine (steady_lift (bounded_expectName hv) .expectName).seq fun name hname => ?_
      refine (steady_aside (aside_note _)).seq fun _ _ => ?_
      split
      · exact .pure trivial trivial
      · exact (steady_tag hv hb hbody hname).seq fun _ _ => .pure trivial trivial
    · -- Nothing else opens behind text.
      next hput htag =>
      rcases hs with rfl | rfl
      · exact absurd hl hput
      · exact absurd hl htag

theorem steady_content (hb : body.PieceWise) (hbody : body.Steady v p) (closers : List Keyword) :
    Steady v p (fun _ => True) (content levels body closers) :=
  .loop (descends_piece hb closers) (fun _ _ => steady_piece hv hb hbody closers) trivial

theorem steady_body (n : Nat) : (Draft.body n).Steady v p := by
  induction n with
  | zero => exact fun _ => (steady_aside aside_position).seq fun _ _ => steady_throw (.inr rfl)
  | succ n ih =>
    intro closers
    refine (steady_aside aside_openBody).seq fun _ _ => ?_
    refine (steady_content hv (pieceWise_body n) ih closers).seq fun found _ => ?_
    split
    · exact (steady_aside (aside_closeBody _)).seq fun _ _ => .pure trivial trivial
    · exact (steady_aside aside_position).seq fun _ _ => steady_throw (.inr rfl)

theorem steady_readAll : Steady v p (fun _ => True) readAll :=
  (steady_content hv (pieceWise_body _) (steady_body hv _) []).discard

end Draft

/-! ## Faults of templates -/

/-- If a fault begins at the cut, the shorter source fails because it ends. -/
theorem Draft.readAll_of_cut {text : String} {pre v : List Char} (htext : text.toList = pre ++ v)
    (hv : v ≠ []) {f : Fault} {d : Draft} (hrun : readAll (.ofText text) = .error f d)
    (hplace : ¬ f.Elsewhere (Position.start.advanceBy pre)) :
    ∃ f' d', readAll (.ofText (String.ofList pre)) = .error f' d' ∧
      f'.EndsAt (Position.start.advanceBy pre) := by
  have hstart : Twin v (Position.start.advanceBy pre) (.ofText text)
      (.ofText (String.ofList pre)) := by
    refine ⟨rfl, _, ⟨⟨pre, htext, rfl, rfl⟩, fun l h => by cases h⟩, ?_⟩
    simp only [ofText, Cursor.ofText, Reader.before, Cursor.before, String.toList_ofList]
  have hx := (steady_readAll hv).twin _ _ hstart
  rw [hrun] at hx
  generalize readAll (.ofText (String.ofList pre)) = x' at hx
  cases hx with
  | ended he =>
    cases x' with
    | ok a t => exact he.2.elim
    | error f' d' => exact ⟨f', d', rfl, he⟩
  | missed hm => exact absurd hm hplace

/-- A fault is found at the first token that cannot go on with the template: the source cut off
before the text at fault fails because it ends there. -/
theorem compile_cut {text : String} {name : Option String} {e : Diagnostic} {span : Span}
    (h : compile text name = .error e) (hspan : e.span = some span)
    (hne : span.isEmpty = false) :
    ∃ pre, Text.takeBytes? span.start.offset text.toList = some pre ∧
      ∃ e', compile (String.ofList pre) name = .error e' ∧ e'.reason = "unexpected eof" ∧
        e'.span = some (.empty span.start) := by
  have hlt : span.start.offset < span.stop.offset := by
    simp [Span.isEmpty, Span.length] at hne
    omega
  rcases compile_eq_error h with ⟨f, d, hrun, rfl⟩ | ⟨q, hq⟩
  · obtain rfl : f.span = span := Option.some.inj hspan
    -- Both ends of the text at fault are places of the source.
    obtain ⟨⟨⟨pre, hpre, hstart⟩, hstop⟩, -⟩ :=
      Ensures.error Draft.places_readAll (Session.placed_start text name) hrun
    obtain ⟨hlen, v, htext⟩ := Text.exists_of_takeBytes? hpre
    have hv : v ≠ [] := by
      rintro rfl
      obtain ⟨-, -, -, -, -, hle, -⟩ := hstop.counts
      rw [← String.utf8Len_toList, htext, List.append_nil, hlen] at hle
      omega
    have hplace : ¬ f.Elsewhere (Position.start.advanceBy pre) := by
      rintro (hoff | heq)
      · exact hoff (by rw [← hstart])
      · rw [heq] at hlt
        exact Nat.lt_irrefl _ hlt
    obtain ⟨_, d', hrun', wanted, rfl⟩ := Draft.readAll_of_cut htext hv hrun hplace
    refine ⟨pre, hpre, _, compile_of_error hrun', rfl, ?_⟩
    rw [hstart]
    rfl
  · obtain rfl : Span.empty q = span := Option.some.inj (hq.symm.trans hspan)
    exact absurd hlt (Nat.lt_irrefl _)

/-- A name of another block than the open one: without it, the closing tag is cut off. -/
theorem compile_cut_block :
    ∃ e, compile "\x7b% block a %\x7d\n\x7b% endblock b %\x7d" = .error e ∧
      e.span = some ⟨⟨26, 2, 12⟩, ⟨27, 2, 13⟩⟩ ∧
      ∃ pre, Text.takeBytes? 26 "\x7b% block a %\x7d\n\x7b% endblock b %\x7d".toList = some pre ∧
        ∃ e', compile (String.ofList pre) = .error e' ∧ e'.reason = "unexpected eof" ∧
          e'.span = some (.empty ⟨26, 2, 12⟩) := by
  have hspan : (match compile "\x7b% block a %\x7d\n\x7b% endblock b %\x7d" with
      | .ok _ => none
      | .error e => e.span) = some ⟨⟨26, 2, 12⟩, ⟨27, 2, 13⟩⟩ := by
    decide +kernel
  cases h : compile "\x7b% block a %\x7d\n\x7b% endblock b %\x7d" with
  | ok t =>
    rw [h] at hspan
    cases hspan
  | error e =>
    rw [h] at hspan
    exact ⟨e, rfl, hspan, compile_cut h hspan rfl⟩

end TemplateSyntax
