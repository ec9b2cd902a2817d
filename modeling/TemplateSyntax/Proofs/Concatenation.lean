import TemplateSyntax.Proofs.Extension
import TemplateSyntax.Proofs.MovedBodies
import TemplateSyntax.Proofs.TemplateCompleteness

/-!
# Templates in a row

Behind a template the source may go on with a tag or a placeable. Whatever was read of the template
is then read again, up to the seam: tokens do not grow, and its last text ends where it ended. From
the seam on the second part is read as it is read alone, at the shifted place and over what the
template has left in the draft.
-/
namespace TemplateSyntax

/-! ## The seam -/

namespace Draft

/-- The same draft in the source that goes on. -/
def extend (d : Draft) (v : List Char) : Draft :=
  { d with reader := d.reader.before (d.reader.cursor.rest ++ v) }

variable {n : Nat} {closers : List Keyword} {v : List Char} {s t d : Draft}

/-- The last text of a source ends before the opening that the source goes on with. -/
theorem behindText_extend (hend : s.reader.cursor.behindText.rest = [])
    (hlast : s.reader.cursor.rest.getLast? ≠ some '\x7b') (hv : opensTag v = true) :
    (s.extend v).behindText = s.behindText.extend v := by
  have hrun : textRun s.reader.cursor.rest = s.reader.cursor.rest := by
    have hall := s.reader.cursor.rest_eq_textRun_append
    rw [hend, List.append_nil] at hall
    exact hall.symm
  have hrun' : textRun (s.reader.cursor.rest ++ v) = s.reader.cursor.rest := by
    rw [textRun_append_of_text hrun (.inl hlast), textRun_of_opensTag hv, List.append_nil]
  simp only [behindText, extend, Reader.before, Cursor.before, Cursor.behindText, Cursor.past,
    hrun, hrun', List.drop_left, List.drop_length, List.nil_append]

theorem SpansPiece.extend {k : Nat} {c e : Cursor} (h : SpansPiece n k c e) (hv : Apart v) :
    SpansPiece n k (c.extend v) (e.extend v) := by
  obtain ⟨d, h⟩ := h
  have htext : (c.extend v).behindText = c.behindText.extend v := by
    refine Cursor.behindText_extend ?_
    rcases h with ⟨ho, -, -⟩ | ⟨ho, -⟩
    · exact ho.opensTag (.inl rfl)
    · exact ho.opensTag (.inr rfl)
  refine ⟨d.extend v, ?_⟩
  rw [htext]
  rcases h with ⟨ho, hx, rfl⟩ | ⟨ho, ht⟩
  · exact .inl ⟨ho.extend (by decide) hv, hx.extend hv, rfl⟩
  · exact .inr ⟨ho.extend (by decide) hv, ht.extend hv⟩

/-- What a draft has read when it has read a piece. -/
theorem pieceRead_of_piece (hp : s.reader.peeked = none) {x : ForInStep (Option Closing)}
    (h : piece n (body n) closers s = .ok x t) :
    ∃ k, t.reader.peeked = none ∧ t.parents = s.parents + k ∧
      PieceRead n closers s.reader.cursor x k t.reader.cursor := by
  have hlands : Lands (piece n (body n) closers) s.reader.cursor
      (PieceRead n closers s.reader.cursor) := lands_piece (pieceWise_body n) (sound_body n)
  obtain ⟨k, e, ⟨hpeeked, rfl⟩, hparents, hread⟩ := (hlands s.parents).ok ⟨⟨hp, rfl⟩, rfl⟩ h
  exact ⟨k, hpeeked, hparents, hread⟩

/-- A piece that was read is read again when the source goes on: the grammar finds its end at the
same place, so reading does not pass the seam. -/
theorem piece_extend (hc : ∀ w ∈ closers, w ∉ tagWords) (hv : Apart v) (hne : v ≠ [])
    (hp : s.reader.peeked = none) {b : Option Closing}
    (h : piece n (body n) closers s = .ok (.yield b) t) :
    b = none ∧ t.reader.peeked = none ∧
      piece n (body n) closers (s.extend v) = .ok (.yield none) (t.extend v) := by
  obtain ⟨k, hnone, hparents, hread⟩ := pieceRead_of_piece hp h
  have hroom : (s.extend v).parents + k ≤ 1 := by
    have hle := t.parents_le_one
    have hsame : (s.extend v).parents = s.parents := rfl
    omega
  obtain ⟨_, u, hu, ⟨_, rfl, rfl⟩, ⟨-, hcursor⟩, -⟩ :=
    passes_piece hc (SpansPiece.extend hread hv) (s.extend v) ⟨hp, rfl⟩ hroom
  have hsettled : Settled v [] (s.extend v) s := by
    refine ⟨hp, _, ⟨s.reader.cursor.rest, rfl, rfl⟩, ?_⟩
    simp only [List.append_nil]
    rfl
  rcases ((pieceWise_piece (pieceWise_body n) closers).isLocal (.nil v) hne).same _ _ hsettled with
    hpast | hsame
  · rw [hu] at hpast
    change u.reader.cursor.rest.length < v.length at hpast
    rw [hcursor, Cursor.extend_rest, List.length_append] at hpast
    omega
  · rw [hu, h] at hsame
    cases hsame with
    | ok _ hw =>
      obtain ⟨-, _, ⟨w, hw, rfl⟩, rfl⟩ := hw
      refine ⟨rfl, hnone, ?_⟩
      have hback : ({ u with reader := u.reader.before (w ++ []) } : Draft).extend v = u := by
        simp only [extend, Reader.before, Cursor.before, List.append_nil, ← hw]
      rw [hu, hback]

theorem content_eq_of_piece {body : BodyReader} (hb : body.PieceWise)
    (h : piece n body closers s = .ok (.yield none) t) :
    content n body closers s = content n body closers t := by
  have hdescends : Descends Draft.size fun _ : Option Closing => piece n body closers :=
    descends_piece hb closers
  exact (congrFun (loop_eq hdescends none) s).trans (run_bind_ok h)

/-- Contents up to the end of a source are read again when the source goes on with an opening, and
reading goes on from there. -/
theorem content_extend (hc : ∀ w ∈ closers, w ∉ tagWords) (hv : opensTag v = true)
    (hp : s.reader.peeked = none) (hlast : s.reader.cursor.rest.getLast? ≠ some '\x7b')
    (h : content n (body n) closers s = .ok none d) :
    content n (body n) closers (s.extend v) = content n (body n) closers (d.extend v) := by
  have hbody := pieceWise_body n
  obtain ⟨hapart, hne⟩ : Apart v ∧ v ≠ [] := by
    obtain ⟨symbol, hs, rest, rfl⟩ := exists_of_opensTag hv
    obtain ⟨a, ha⟩ := hs.spelling_eq
    rw [ha]
    exact ⟨.inr (.inr rfl), by simp⟩
  induction hn : s.size using Nat.strong_induction_on generalizing s with
  | h m ih =>
    have hpiece := h
    rw [content, loop_eq (descends_piece hbody closers), run_bind] at hpiece
    cases hr : piece n (body n) closers s with
    | error e t =>
      rw [hr] at hpiece
      cases hpiece
    | ok x t =>
      rw [hr] at hpiece
      cases x with
      | done found =>
        cases hpiece
        obtain ⟨-, -, -, -, hcursor, hend⟩ := pieceRead_of_piece hp hr
        rw [hcursor] at hend
        have hdone : piece n (body n) closers s = .ok (.done none) s.behindText :=
          run_bind_ok (opening_of_end ⟨hp, rfl⟩ hend)
        rw [hr] at hdone
        cases hdone
        rw [← content_behindText hbody, behindText_extend hend hlast hv]
      | yield b =>
        obtain ⟨rfl, hpeeked, hagain⟩ := piece_extend hc hapart hne hp hr
        have hsmaller : t.size < s.size := descends_piece hbody closers none s none t hr
        have hlast' : t.reader.cursor.rest.getLast? ≠ some '\x7b' := by
          obtain ⟨taken, hrest, -⟩ :=
            Ensures.ok ((pieceWise_piece hbody closers).reaches _) (.refl _) hr
          cases hrt : t.reader.cursor.rest with
          | nil => simp
          | cons c rest => rwa [hrest, hrt, List.getLast?_append_cons] at hlast
        rw [content_eq_of_piece hbody hr] at h
        rw [content_eq_of_piece hbody hagain]
        exact ih t.size (hn ▸ hsmaller) hpeeked hlast' h rfl

/-! ## Whole sources -/

/-- Where a draft has come to when its source was read up to the end. -/
theorem readAll_eq_ok {text : String} (h : readAll (.ofText text) = .ok () d) :
    content depthLimit (body depthLimit) [] (.ofText text) = .ok none d ∧
      d.reader.peeked = none ∧ d.reader.cursor = ⟨Position.start.advanceBy text.toList, []⟩ := by
  obtain ⟨found, t, ht, hdone⟩ := bind_eq_ok h
  cases hdone
  have hlands := lands_content (pieceWise_body _) (sound_body depthLimit) [] (.ofText text)
  obtain ⟨k, e, ⟨hp, rfl⟩, -, hread⟩ := (hlands 0).ok ⟨⟨rfl, rfl⟩, rfl⟩ ht
  cases found with
  | some closing => exact absurd hread.1 List.not_mem_nil
  | none =>
    refine ⟨ht, hp, ?_⟩
    obtain ⟨taken, hrest, hposition⟩ := Ensures.ok (pieceWise_readAll.reaches _) (.refl _) h
    rw [hread.2, List.append_nil] at hrest
    cases hc : d.reader.cursor with
    | mk position rest =>
      rw [hc] at hposition hread
      obtain rfl : rest = [] := hread.2
      rw [show position = _ from hposition, ← hrest]
      rfl

/-- What a draft starts with that goes on with a source of its own. -/
def Setting.behind (d : Draft) : Setting :=
  ⟨.opened .start, d.current, [], d.enclosing, d.macros, d.blocks⟩

/-- A source is read in any draft that extends nothing as it is read alone. -/
theorem readAll_moved {p : Position} {text : String} (hline : 0 < p.line)
    (hp : d.reader.peeked = none) (hcursor : d.reader.cursor = ⟨p, text.toList⟩)
    (hparent : d.parent = none) :
    MovedEnd p.shift (Shifted p (.behind d)) (readAll (.ofText text)) (readAll d) := by
  refine (mirrors_content (mirrors_body depthLimit) []).discard _ _ ?_
  refine ⟨⟨⟨Nat.one_pos, ?_⟩, hp⟩, ⟨[], rfl, ?_⟩, rfl, rfl, fun _ => rfl, fun _ => rfl, hparent⟩
  · rw [hcursor]
    exact congrArg (Cursor.mk · _) (Position.shift_start hline).symm
  · exact (congrArg (Scope.mk _ · _) (List.append_nil _)).symm

/-- Reading to the end adds statements to the outermost body and leaves all else of it alone. -/
theorem span_current {text : String} (h : readAll (.ofText text) = .ok () d) :
    d.current.span = .empty .start := by
  have hself := readAll_moved (d := .ofText text) (p := .start) Nat.one_pos rfl rfl rfl
  rw [h] at hself
  cases hself with
  | ok _ hd =>
    obtain ⟨ss, hss, -⟩ := hd.current
    rw [hss]
    rfl

/-- Two sources in a row are read in turn. -/
theorem readAll_append {a b : String} (h : readAll (.ofText a) = .ok () d)
    (hparent : d.parent = none) (hlast : a.toList.getLast? ≠ some '\x7b')
    (hb : opensTag b.toList = true) :
    MovedEnd (Position.start.advanceBy a.toList).shift
      (Shifted (.advanceBy .start a.toList) (.behind d)) (readAll (.ofText b))
      (readAll (.ofText (a ++ b))) := by
  obtain ⟨hcontent, hp, hcursor⟩ := readAll_eq_ok h
  have hextend : ofText (a ++ b) = (ofText a).extend b.toList := by
    simp only [ofText, extend, Reader.before, Cursor.ofText, Cursor.before, String.toList_append]
  have hread : readAll = content depthLimit (body depthLimit) [] >>= fun _ => pure () := rfl
  have hseam : readAll (.ofText (a ++ b)) = readAll (d.extend b.toList) := by
    rw [hextend, hread, run_bind, run_bind, content_extend (by simp) hb rfl hlast hcontent]
  have hcursor' : (d.extend b.toList).reader.cursor =
      ⟨Position.start.advanceBy a.toList, b.toList⟩ := by
    simp only [extend, Reader.before, Cursor.before, hcursor, List.nil_append]
  rw [hseam]
  exact readAll_moved (d := d.extend b.toList) (Position.line_advanceBy_pos Nat.one_pos _) hp
    hcursor' hparent

end Draft

/-- The template of two sources in a row, of which the second one is shifted: what the second one
defines replaces definitions of the first. -/
structure Template.Joined (first : Template) (f : Position → Position) (second whole : Template) :
    Prop where
  body : whole.body.body = first.body.body ++ move f second.body.body
  declared : whole.body.declared = first.body.declared ++ move f second.body.declared
  macros (name : String) : whole.macros.find? name =
    (move f (second.macros.find? name)).or (first.macros.find? name)
  blocks (name : String) : whole.blocks.find? name =
    (move f (second.blocks.find? name)).or (first.blocks.find? name)
  parent : whole.parent = move f second.parent

theorem Draft.Shifted.joined {p : Position} {d t t' : Draft} (h : Shifted p (.behind d) t t') :
    d.template.Joined p.shift t.template t'.template := by
  obtain ⟨ss, hss, hss'⟩ := h.current
  refine ⟨?_, ?_, h.macros, h.blocks, h.parent⟩
  · simp only [template, Scope.closed, hss, hss']
    rfl
  · simp only [template, Scope.closed, hss, hss']
    exact (List.append_nil _).symm

/-- Behind a template that extends nothing, a source that begins with a tag or a placeable is
compiled as it is alone. -/
theorem compile_append {a b : String} {name : Option String} {first : Template}
    (ha : compile a name = .ok first) (hparent : first.parent = none)
    (hlast : a.toList.getLast? ≠ some '\x7b') (hb : opensTag b.toList = true) :
    let shift := (Position.start.advanceBy a.toList).shift
    ((∃ whole, compile (a ++ b) name = .ok whole) ↔ ∃ second, compile b name = .ok second) ∧
    (∀ second, compile b name = .ok second → ∃ whole, compile (a ++ b) name = .ok whole ∧
      first.Joined shift second whole ∧
      whole.span = ⟨.start, Position.start.advanceBy (a ++ b).toList⟩ ∧
      whole.body.span = whole.span) ∧
    ∀ e, compile b name = .error e → ∃ e', compile (a ++ b) name = .error e' ∧
      e'.reason = e.reason ∧ e'.help = e.help ∧ e'.span = move shift e.span := by
  intro shift
  obtain ⟨d, hd, henclosing, rfl⟩ := compile_eq_ok_iff.mp ha
  have hend := Draft.readAll_append hd hparent hlast hb
  generalize hrb : Draft.readAll (.ofText b) = x, hrab : Draft.readAll (.ofText (a ++ b)) = x'
    at hend
  cases hend with
  | error f t t' =>
    have hfails : compile b name = .error (f.report b name) := compile_of_error hrb
    have hfails' : compile (a ++ b) name = .error ((move shift f).report (a ++ b) name) :=
      compile_of_error hrab
    rw [hfails, hfails']
    refine ⟨⟨nofun, nofun⟩, nofun, fun e he => ⟨_, rfl, ?_⟩⟩
    cases he
    exact ⟨rfl, rfl, rfl⟩
  | @ok u t t' ht =>
    have hsecond : compile b name = .ok t.template :=
      compile_eq_ok_iff.mpr ⟨t, hrb, ht.enclosing, rfl⟩
    have hwhole : compile (a ++ b) name = .ok t'.template :=
      compile_eq_ok_iff.mpr ⟨t', hrab, ht.enclosing'.trans henclosing, rfl⟩
    rw [hsecond, hwhole]
    refine ⟨⟨fun _ => ⟨_, rfl⟩, fun _ => ⟨_, rfl⟩⟩, fun second hs => ⟨_, rfl, ?_⟩, nofun⟩
    cases hs
    refine ⟨ht.joined, ?_, rfl⟩
    obtain ⟨-, -, hcursor⟩ := Draft.readAll_eq_ok hrab
    simp only [Draft.template, Scope.closed, Draft.span_current hrab, hcursor]
    rfl

/-- A block of the first source is defined again on the second line of the second source. -/
theorem compile_append_block :
    ∃ first second whole, compile "x\n\x7b% block m %\x7d1\x7b% endblock %\x7dy" = .ok first ∧
      first.parent = none ∧
      compile "\x7b\x7b z \x7d\x7d\n\x7b% block m %\x7d2\x7b% endblock %\x7d" = .ok second ∧
      compile ("x\n\x7b% block m %\x7d1\x7b% endblock %\x7dy" ++
        "\x7b\x7b z \x7d\x7d\n\x7b% block m %\x7d2\x7b% endblock %\x7d") = .ok whole ∧
      first.Joined (Position.shift ⟨31, 2, 29⟩) second whole := by
  obtain ⟨first, hfirst⟩ := exists_ok_of_isOk
    (x := compile "x\n\x7b% block m %\x7d1\x7b% endblock %\x7dy") (by decide +kernel)
  obtain ⟨second, hsecond⟩ := exists_ok_of_isOk
    (x := compile "\x7b\x7b z \x7d\x7d\n\x7b% block m %\x7d2\x7b% endblock %\x7d")
    (by decide +kernel)
  have hparent : first.parent = none := by
    have hnone : (compile "x\n\x7b% block m %\x7d1\x7b% endblock %\x7dy").map (·.parent) =
        .ok none := by decide +kernel
    rw [hfirst] at hnone
    exact Except.ok.inj hnone
  have hopens : opensTag
      "\x7b\x7b z \x7d\x7d\n\x7b% block m %\x7d2\x7b% endblock %\x7d".toList = true := by decide
  obtain ⟨-, hwhole, -⟩ := compile_append hfirst hparent (by decide) hopens
  obtain ⟨whole, hcompile, hjoined, -⟩ := hwhole second hsecond
  have hposition : Position.start.advanceBy
      "x\n\x7b% block m %\x7d1\x7b% endblock %\x7dy".toList = ⟨31, 2, 29⟩ := by decide
  exact ⟨first, second, whole, hfirst, hparent, hsecond, hcompile, hposition ▸ hjoined⟩

end TemplateSyntax
