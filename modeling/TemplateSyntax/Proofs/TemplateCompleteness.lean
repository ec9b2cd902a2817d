import TemplateSyntax.Proofs.TemplateSoundness

/-!
# Every template is accepted

Where a passage of the grammar reaches from one cursor to another, drafts are read from the one to
the other, as long as no second template is named to be extended. Together with soundness this says
that the texts that compile are the templates of the grammar.
-/
namespace TemplateSyntax

namespace Draft
open Passage Reader

/-- The words that a tag begins with. -/
def tagWords : List Keyword :=
  [.ifWord, .forWord, .setWord, .callWord, .filterWord, .blockWord, .macroWord, .extendsWord]

section Pieces
variable {n : Nat} {body : BodyReader} {closers : List Keyword} {c d e : Cursor} {j k : Nat}
  {Q : Option Closing → Prop}

/-- Text is read once, whether it is read alone first or with the piece that it belongs to. -/
theorem piece_behindText (s : Draft) :
    piece n body closers s.behindText = piece n body closers s := by
  have hcursor : s.behindText.reader.cursor.behindText = s.reader.cursor.behindText :=
    s.reader.cursor.behindText_behindText
  have hopening : opening s.behindText = opening s := by
    rw [run_opening, run_opening, behindText_behindText, hcursor]
  unfold piece
  rw [run_bind, run_bind, hopening]

theorem content_behindText (hp : body.PieceWise) (s : Draft) :
    content n body closers s.behindText = content n body closers s := by
  rw [content, loop_eq (descends_piece hp closers), run_bind, run_bind, piece_behindText]

/-- Contents may begin with text. -/
theorem passes_content_text (hp : body.PieceWise)
    (h : Passes (content n body closers) c.behindText k d Q) :
    Passes (content n body closers) c k d Q := by
  intro s hs hroom
  rw [← content_behindText hp]
  exact h s.behindText hs.behindText hroom

theorem passes_piece_placeable (ho : c.Opens .beginPut d) (hx : SpansPlaceable n d e) :
    Passes (piece n body closers) c 0 e fun x => ∃ b, x = .yield b ∧ b = none := by
  refine Passes.opening_bind (.inl rfl) ho fun l hl => ?_
  simp only [hl]
  refine Passes.lift_bind (passes_placeable hx l.span) settles_placeable fun x _ => ?_
  exact Passes.silent_bind (silent_push x) fun _ => Passes.pure ⟨none, rfl, rfl⟩

theorem passes_content_placeable (hp : body.PieceWise) (ho : c.Opens .beginPut d)
    (hx : SpansPlaceable n d e) {f : Cursor} (h : Passes (content n body closers) e k f Q) :
    Passes (content n body closers) c k f Q := by
  have hloop := Passes.loop_yield (descends_piece hp closers) (b := none)
    (passes_piece_placeable ho hx) (by
      rintro _ rfl
      exact h)
  rwa [Nat.zero_add] at hloop

theorem passes_piece_tag (hc : ∀ w ∈ closers, w ∉ tagWords) (ho : c.Opens .beginTag d)
    {word : Keyword} (hword : word ∈ tagWords) (hw : d.ReadsWord word e) {f : Cursor}
    (ht : ∀ opening name, name.value = word.spelling →
      Passes (tag n body opening name) e j f fun _ => True) :
    Passes (piece n body closers) c j f fun x => ∃ b, x = .yield b ∧ b = none := by
  refine Passes.opening_bind (.inr rfl) ho fun l hl => ?_
  simp only [hl]
  refine Passes.lift_bind (Reader.Passes.expectName hw) Reader.Settles.expectName
    fun name hname => Passes.silent_bind (silent_note _) fun _ => ?_
  have hnone : closers.find? (·.spelling = name.value) = none := by
    rw [List.find?_eq_none]
    intro w hmem heq
    have heq : w.spelling = word.spelling := by simpa [hname] using heq
    rw [Keyword.spelling_inj heq] at hmem
    exact hc word hmem hword
  rw [hnone]
  exact (ht _ name hname).bind fun _ _ => Passes.pure ⟨none, rfl, rfl⟩

theorem passes_content_tag (hp : body.PieceWise) (hc : ∀ w ∈ closers, w ∉ tagWords)
    (ho : c.Opens .beginTag d) {word : Keyword} (hword : word ∈ tagWords)
    (hw : d.ReadsWord word e) {f g : Cursor}
    (ht : ∀ opening name, name.value = word.spelling →
      Passes (tag n body opening name) e j f fun _ => True)
    (h : Passes (content n body closers) f k g Q) :
    Passes (content n body closers) c (j + k) g Q := by
  refine Passes.loop_yield (descends_piece hp closers) (passes_piece_tag hc ho hword hw ht) ?_
  rintro _ rfl
  exact h

theorem passes_content_closing (hp : body.PieceWise) (ho : c.Opens .beginTag d)
    {closer : Keyword} (hmem : closer ∈ closers) (hw : d.ReadsWord closer e) :
    Passes (content n body closers) c 0 e fun x =>
      ∃ closing, x = some closing ∧ closing.keyword = closer := by
  refine Passes.loop_done (descends_piece hp closers) ?_
  refine Passes.opening_bind (.inr rfl) ho fun l hl => ?_
  simp only [hl]
  refine Passes.lift_bind (Reader.Passes.expectName hw) Reader.Settles.expectName
    fun name hname => Passes.silent_bind (silent_note _) fun _ => ?_
  cases hfind : closers.find? (·.spelling = name.value) with
  | none =>
    have hno := List.find?_eq_none.mp hfind closer hmem
    simp [hname] at hno
  | some keyword =>
    have heq : keyword.spelling = closer.spelling := by simpa [hname] using List.find?_some hfind
    exact Passes.pure ⟨_, rfl, _, rfl, Keyword.spelling_inj heq⟩

/-- Contents may end with the text. -/
theorem passes_content_end (hp : body.PieceWise) (h : c.rest = []) :
    Passes (content n body closers) c 0 c fun _ => True := by
  have htext : c.behindText = c := Cursor.behindText_of_textRun (by rw [h]; rfl)
  refine Passes.loop_done (descends_piece hp closers) fun s hs _ => ?_
  have hopening : opening s = .ok none s.behindText := opening_of_end hs (by rw [htext, h])
  refine ⟨.done none, s.behindText, run_bind_ok hopening, ⟨none, rfl, trivial⟩, ?_, rfl, rfl⟩
  have hat := hs.behindText
  rwa [htext] at hat

end Pieces

/-- What the readers of a passage do: they pass it, or they go wherever the loop at its end goes
from there. -/
def Complete : Passage → Nat → Nat → Cursor → Cursor → Prop
  | .contents, n, k, c, d => ∀ closers, (∀ w ∈ closers, w ∉ tagWords) → ∀ l e Q,
    Passes (content n (body n) closers) d l e Q → Passes (content n (body n) closers) c (k + l) e Q
  | .tag, n, k, c, d => ∃ word e, word ∈ tagWords ∧ c.ReadsWord word e ∧ ∀ opening name,
    name.value = word.spelling → Passes (tag n (body n) opening name) e k d fun _ => True
  | .body closer, n, k, c, d => ∀ closers, closer ∈ closers → (∀ w ∈ closers, w ∉ tagWords) →
    Passes (body n closers) c k d fun x => x.2.keyword = closer
  | .arms closer, n, k, c, d => closer ∈ armClosers →
    ∀ (α : Type) (f : Body × Closing → List (Arm Statement) × Closing)
      (g : List (Arm Statement) × Closing → DraftM α) (l : Nat) (e : Cursor) (Q : α → Prop),
    (∀ x, (f x).2 = x.2) →
    (∀ y, y.2.keyword = closer → Passes (loop Draft.size (nextArm n (body n)) y >>= g) d l e Q) →
    Passes (body n armClosers >>= fun x => loop Draft.size (nextArm n (body n)) (f x) >>= g)
      c (k + l) e Q

section Cases
variable {n j k : Nat} {b c d e f g : Cursor} {closer : Keyword} {opening : Span}

/-- A body is opened, read, and closed again. -/
theorem complete_body (h : Complete .contents n k c d) (ho : d.Opens .beginTag e)
    (hw : e.ReadsWord closer f) : Complete (.body closer) (n + 1) k c f := by
  intro closers hmem hc s hs hroom
  have hcontent := h closers hc 0 f _ (passes_content_closing (pieceWise_body n) ho hmem hw)
  obtain ⟨s', hopen, hs', hparents', hopened⟩ : ∃ s' : Draft, openBody s = .ok () s' ∧ s'.At c ∧
      s'.parents = s.parents ∧ s'.enclosing = s.current :: s.enclosing := ⟨_, rfl, hs, rfl, rfl⟩
  obtain ⟨found, t, ht, ⟨closing, rfl, hk⟩, hat, hparents, henclosing⟩ :=
    hcontent s' hs' (by omega)
  have hclose : closeBody closing.opening.start t = .ok (t.current.closed closing.opening.start)
      { t with current := s.current, enclosing := s.enclosing } := by
    rw [closeBody, run_modifyGet, henclosing, hopened]
  have hparent : ({ t with current := s.current, enclosing := s.enclosing } : Draft).parents =
      t.parents := rfl
  refine ⟨(t.current.closed closing.opening.start, closing),
    { t with current := s.current, enclosing := s.enclosing }, ?_, hk, hat, by omega, rfl⟩
  rw [body, run_bind_ok hopen, run_bind_ok ht]
  exact run_bind_ok hclose

/-- One more arm behind an `elif`. -/
theorem complete_elifArm (h : Complete (.arms .elifWord) n j c d) (hx : SpansLast n d e)
    (hb : Complete (.body closer) n k e f) : Complete (.arms closer) n (j + k) c f := by
  intro hcloser α p q l z Q hp hq
  rw [Nat.add_assoc]
  refine h (by decide) α p q (k + l) z Q hp fun y hy => ?_
  rw [loop_eq (descends_nextArm (pieceWise_body n)), bind_assoc]
  obtain ⟨arms, closing⟩ := y
  have hnext : Passes (nextArm n (Draft.body n) (arms, closing)) d k f fun x =>
      ∃ y, x = .yield y ∧ y.2.keyword = closer := by
    unfold nextArm
    dsimp only at hy ⊢
    rw [if_pos hy]
    refine Passes.lift_bind (passes_lastExpression hx) settles_lastExpression fun _ _ => ?_
    exact (hb armClosers hcloser (by decide)).bind fun x hk => Passes.pure ⟨_, rfl, hk⟩
  refine hnext.bind fun x hx => ?_
  obtain ⟨y, rfl, hk⟩ := hx
  exact hq y hk

/-- The arms end at any keyword but `elif`. -/
theorem passes_arms_end {α : Type} {y : List (Arm Statement) × Closing}
    {q : List (Arm Statement) × Closing → DraftM α} {Q : α → Prop} (hy : y.2.keyword ≠ .elifWord)
    (h : Passes (q y) c k d Q) :
    Passes (loop Draft.size (nextArm n (Draft.body n)) y >>= q) c k d Q := by
  rw [loop_eq (descends_nextArm (pieceWise_body n)), bind_assoc]
  obtain ⟨arms, closing⟩ := y
  have hnext : nextArm n (Draft.body n) (arms, closing) = pure (.done (arms, closing)) := by
    unfold nextArm
    exact if_neg hy
  rw [hnext, pure_bind, pure_bind]
  exact h

/-- The last thing that is read of a tag is its end. -/
theorem passes_end {α : Type} {a : α} (h : c.ReadsSymbol .endTag d) :
    Passes (do discard (liftM endTag : DraftM Span); return a) c 0 d fun _ => True :=
  Passes.discard_lift_bind (passes_endTag h) settles_endTag (Passes.pure trivial)

theorem passes_ifTag (hx : SpansLast n c d) (h : Complete (.arms .endIf) n k d e)
    (hc : e.ReadsSymbol .endTag f) :
    Passes (ifTag n (Draft.body n) opening) c k f fun _ => True := by
  refine Passes.lift_bind (passes_lastExpression hx) settles_lastExpression fun condition _ => ?_
  refine h (by decide) _ (fun x => ([⟨condition, x.1.body, ⟨opening.start, x.2.span.stop⟩⟩], x.2))
    _ 0 f _ (fun _ => rfl) fun y hy => ?_
  refine passes_arms_end (by rw [hy]; decide) ?_
  dsimp only
  rw [if_neg (by rw [hy]; decide)]
  exact passes_end hc

theorem passes_ifElseTag (hx : SpansLast n c d) (h : Complete (.arms .elseWord) n j d e)
    (he : e.ReadsSymbol .endTag f) (ha : Complete (.body .endIf) n k f g)
    {i : Cursor} (hc : g.ReadsSymbol .endTag i) :
    Passes (ifTag n (Draft.body n) opening) c (j + k) i fun _ => True := by
  refine Passes.lift_bind (passes_lastExpression hx) settles_lastExpression fun condition _ => ?_
  refine h (by decide) _ (fun x => ([⟨condition, x.1.body, ⟨opening.start, x.2.span.stop⟩⟩], x.2))
    _ k i _ (fun _ => rfl) fun y hy => ?_
  refine passes_arms_end (by rw [hy]; decide) ?_
  dsimp only
  rw [if_pos hy]
  refine Passes.discard_lift_bind (passes_endTag he) settles_endTag ?_
  exact (ha [.endIf] (by decide) (by decide)).bind fun _ _ => passes_end hc

theorem passes_forTag (hx : SpansLoopHead n c d) (h : Complete (.body .endFor) n k d e)
    (hc : e.ReadsSymbol .endTag f) :
    Passes (forTag n (Draft.body n) opening) c k f fun _ => True := by
  refine Passes.lift_bind (passes_loopHead hx) settles_loopHead fun head _ => ?_
  obtain ⟨target, iterable, condition⟩ := head
  refine (h [.elseWord, .endFor] (by decide) (by decide)).bind (k := 0) fun x hk => ?_
  dsimp only
  rw [if_neg (by rw [hk]; decide)]
  exact passes_end hc

theorem passes_forElseTag (hx : SpansLoopHead n c d) (h : Complete (.body .elseWord) n j d e)
    (he : e.ReadsSymbol .endTag f) (ha : Complete (.body .endFor) n k f g)
    {i : Cursor} (hc : g.ReadsSymbol .endTag i) :
    Passes (forTag n (Draft.body n) opening) c (j + k) i fun _ => True := by
  refine Passes.lift_bind (passes_loopHead hx) settles_loopHead fun head _ => ?_
  obtain ⟨target, iterable, condition⟩ := head
  refine (h [.elseWord, .endFor] (by decide) (by decide)).bind fun x hk => ?_
  dsimp only
  rw [if_pos hk]
  refine Passes.discard_lift_bind (passes_endTag he) settles_endTag ?_
  exact (ha [.endFor] (by decide) (by decide)).bind fun _ _ => passes_end hc

theorem passes_callTag (hx : SpansCallHead n c d) (h : Complete (.body .endCall) n k d e)
    (hc : e.ReadsSymbol .endTag f) :
    Passes (callTag n (Draft.body n) opening) c k f fun _ => True :=
  Passes.lift_bind (passes_callHead hx) settles_callHead fun _ _ =>
    (h [.endCall] (by decide) (by decide)).bind fun _ _ => passes_end hc

theorem passes_filterTag (hx : SpansLast n c d) (h : Complete (.body .endFilter) n k d e)
    (hc : e.ReadsSymbol .endTag f) :
    Passes (filterTag n (Draft.body n) opening) c k f fun _ => True :=
  Passes.lift_bind (passes_lastExpression hx) settles_lastExpression fun _ _ =>
    (h [.endFilter] (by decide) (by decide)).bind fun _ _ => passes_end hc

theorem passes_blockTag {name : String} (hx : SpansBlockHead name c d)
    (h : Complete (.body .endBlock) n k d e) (hc : SpansBlockEnd name e f) :
    Passes (blockTag (Draft.body n) opening) c k f fun _ => True := by
  refine Passes.lift_bind (passes_blockHead hx) settles_blockHead fun x hname => ?_
  refine (h [.endBlock] (by decide) (by decide)).bind (k := 0) fun _ _ => ?_
  subst hname
  refine Passes.lift_bind (passes_blockEnd hc) (settles_blockEnd _) fun close _ => ?_
  exact Passes.silent_bind (silent_define _) fun _ => Passes.pure trivial

theorem passes_macroTag (hx : SpansMacroHead n c d) (h : Complete (.body .endMacro) n k d e)
    (hc : e.ReadsSymbol .endTag f) :
    Passes (macroTag n (Draft.body n) opening) c k f fun _ => True := by
  refine Passes.lift_bind (passes_macroHead hx) settles_macroHead fun head _ => ?_
  refine (h [.endMacro] (by decide) (by decide)).bind (k := 0) fun _ _ => ?_
  refine Passes.discard_lift_bind (passes_endTag hc) settles_endTag ?_
  exact Passes.silent (silent_define _)

theorem passes_extendsTag (hx : SpansLast n c d) :
    Passes (extendsTag n) c 1 d fun _ => True := by
  refine Passes.lift_bind (passes_lastExpression hx) settles_lastExpression fun target _ => ?_
  intro s hs hroom
  have hparent : s.parent.isSome = false := by
    cases hp : s.parent with
    | none => rfl
    | some old =>
      have hone : s.parents = 1 := by simp [parents, hp]
      omega
  have hset : setParent target s = .ok true { s with parent := some target } := by
    rw [run_setParent, hparent]
    rfl
  refine ⟨(), { s with parent := some target }, ?_, trivial, hs, ?_, rfl⟩
  · exact run_bind_ok hset
  · simp [parents, hparent]

/-- A tag is dispatched by its word. -/
theorem complete_tag {word : Keyword} (hw : b.ReadsWord word c) (hword : word ∈ tagWords)
    (h : ∀ (opening : Span) (name : Identifier), Keyword.ofSpelling? name.value = some word →
      Passes (tag n (Draft.body n) opening name) c k d fun _ => True) :
    Complete .tag n k b d :=
  ⟨word, c, hword, hw, fun opening name hname =>
    h opening name (Keyword.ofSpelling?_eq_some_iff.mpr hname)⟩

/-- The statement that a tag stands for is added to the body. -/
theorem passes_push {m : DraftM Statement} (h : Passes m c k d fun _ => True) :
    Passes (m >>= push) c k d fun _ => True :=
  h.bind (k := 0) fun x _ => Passes.silent (silent_push x)

end Cases

/-- The readers of every passage pass it. -/
theorem complete {p : Passage} {n k : Nat} {c d : Cursor} (h : Derives p n k c d) :
    Complete p n k c d := by
  induction h with
  | nothing =>
    intro closers _ l e Q h
    rwa [Nat.zero_add]
  | text _ ih =>
    exact fun closers hc l e Q h =>
      ih closers hc l e Q (passes_content_text (pieceWise_body _) h)
  | placeable _ ho hx ih =>
    exact fun closers hc l e Q h =>
      ih closers hc l e Q (passes_content_placeable (pieceWise_body _) ho hx h)
  | tag _ ho _ ih iht =>
    intro closers hc l e Q h
    obtain ⟨word, f, hword, hw, ht⟩ := iht
    rw [Nat.add_assoc]
    exact ih closers hc _ e Q (passes_content_tag (pieceWise_body _) hc ho hword hw ht h)
  | body _ ho hw ih => exact complete_body ih ho hw
  | arm _ ih =>
    intro hcloser α p q l e Q hp hq
    exact (ih armClosers hcloser (by decide)).bind fun x hx => hq (p x) (by rw [hp, hx])
  | elifArm _ hx _ ih ihb => exact complete_elifArm ih hx ihb
  | ifTag hw hx _ hc ih =>
    refine complete_tag hw (by decide) fun opening name hname => ?_
    simp only [tag, hname]
    exact passes_push (passes_ifTag hx ih hc)
  | ifElseTag hw hx _ he _ hc ihm iha =>
    refine complete_tag hw (by decide) fun opening name hname => ?_
    simp only [tag, hname]
    exact passes_push (passes_ifElseTag hx ihm he iha hc)
  | forTag hw hx _ hc ih =>
    refine complete_tag hw (by decide) fun opening name hname => ?_
    simp only [tag, hname]
    exact passes_push (passes_forTag hx ih hc)
  | forElseTag hw hx _ he _ hc ihm iha =>
    refine complete_tag hw (by decide) fun opening name hname => ?_
    simp only [tag, hname]
    exact passes_push (passes_forElseTag hx ihm he iha hc)
  | setTag hw hx =>
    refine complete_tag hw (by decide) fun opening name hname => ?_
    simp only [tag, hname]
    exact Passes.lift_bind (passes_setTag hx opening) settles_setTag fun x _ =>
      Passes.silent (silent_push x)
  | macroTag hw hx _ hc ih =>
    refine complete_tag hw (by decide) fun opening name hname => ?_
    simp only [tag, hname]
    exact passes_macroTag hx ih hc
  | callTag hw hx _ hc ih =>
    refine complete_tag hw (by decide) fun opening name hname => ?_
    simp only [tag, hname]
    exact passes_push (passes_callTag hx ih hc)
  | filterTag hw hx _ hc ih =>
    refine complete_tag hw (by decide) fun opening name hname => ?_
    simp only [tag, hname]
    exact passes_push (passes_filterTag hx ih hc)
  | blockTag hw hx _ hc ih =>
    refine complete_tag hw (by decide) fun opening name hname => ?_
    simp only [tag, hname]
    exact passes_push (passes_blockTag hx ih hc)
  | extendsTag hw hx =>
    refine complete_tag hw (by decide) fun opening name hname => ?_
    simp only [tag, hname]
    exact passes_extendsTag hx

/-- A piece of the grammar is read as one piece. -/
theorem passes_piece {n k : Nat} {c e : Cursor} {closers : List Keyword}
    (hc : ∀ w ∈ closers, w ∉ tagWords) (h : SpansPiece n k c e) :
    Passes (piece n (body n) closers) c k e fun x => ∃ b, x = .yield b ∧ b = none := by
  suffices hpass : Passes (piece n (body n) closers) c.behindText k e _ by
    intro s hs hroom
    rw [← piece_behindText]
    exact hpass s.behindText hs.behindText hroom
  obtain ⟨d, ⟨ho, hx, rfl⟩ | ⟨ho, ht⟩⟩ := h
  · exact passes_piece_placeable ho hx
  · obtain ⟨word, f, hword, hw, ht⟩ := complete ht
    exact passes_piece_tag hc ho hword hw ht

/-- A template is read to its end, and no body is left open. -/
theorem readAll_of_isTemplate {text : String} (h : IsTemplate text) :
    ∃ d, readAll (.ofText text) = .ok () d ∧ d.enclosing = [] := by
  obtain ⟨k, c, hc, hk, hrest⟩ := h
  have hcontent := complete hc [] (by simp) 0 c _ (passes_content_end (pieceWise_body _) hrest)
  have hstart : (Draft.ofText text).parents + (k + 0) ≤ 1 := by
    have hnone : (Draft.ofText text).parents = 0 := rfl
    omega
  obtain ⟨found, t, ht, -, -, -, henclosing⟩ := hcontent (.ofText text) ⟨rfl, rfl⟩ hstart
  exact ⟨t, run_bind_ok ht, henclosing⟩

end Draft

/-- What is wrong with a source that does not compile is a fault that its readers find. -/
theorem exists_readAll_eq_error {text : String} {name : Option String} {e : Diagnostic}
    (h : compile text name = .error e) :
    ∃ f d, Draft.readAll (.ofText text) = .error f d ∧ e = f.report text name := by
  cases hr : Draft.readAll (.ofText text) with
  | error f d =>
    rw [compile_of_error hr] at h
    cases h
    exact ⟨f, d, rfl, rfl⟩
  | ok u d =>
    obtain ⟨t, ht, henclosing⟩ := Draft.readAll_of_isTemplate (Draft.isTemplate_of_readAll hr)
    rw [compile_eq_ok_iff.mpr ⟨t, ht, henclosing, rfl⟩] at h
    cases h

/-- The texts that compile are the templates of the grammar. -/
theorem exists_compile_eq_ok_iff (text : String) (name : Option String) :
    (∃ t, compile text name = .ok t) ↔ IsTemplate text := by
  constructor
  · rintro ⟨t, ht⟩
    cases hr : Draft.readAll (.ofText text) with
    | ok a d => exact Draft.isTemplate_of_readAll hr
    | error f d =>
      rw [compile_of_error hr] at ht
      cases ht
  · intro h
    obtain ⟨d, hr, henclosing⟩ := Draft.readAll_of_isTemplate h
    have hp := Session.process_of_ok (s := Session.start text name) hr
    simp only [compile, Session.generate, hp, henclosing, List.isEmpty_nil, if_true]
    exact ⟨_, rfl⟩

end TemplateSyntax
