import TemplateSyntax.Proofs.Budget
import TemplateSyntax.Proofs.DraftLanding

/-!
# Text is read between tokens

A token that was looked at stands before the cursor, so text that is read from the cursor would
begin behind it, and a body that is opened at the cursor would start behind it. Most readers look at
tokens; but what they read of a tag always ends with a token that is taken. Routine by routine, the
calls that a plan makes of the readers of bodies and tags are shown to be made with no token kept
back, whatever is kept back when a reader of expressions is called. Where text is read in this way
it ends with the source or right before a symbol that opens a placeable or a tag, and this symbol is
the next token.
-/
namespace TemplateSyntax
open Reader Draft Plan

/-! ## Behind text -/

namespace Cursor

/-- Right here stands a symbol that opens a placeable or a tag, and however tokens are read it is
the next one. -/
def AtOpening (c : Cursor) : Prop :=
  ∃ s : Symbol, s.Opens ∧ ∀ quotes, c.next quotes =
    (.ok ⟨.symbol s, ⟨c.position, (c.past s.spelling.toList).position⟩⟩, c.past s.spelling.toList)

theorem atOpening_of_opensTag {c : Cursor} (h : opensTag c.rest = true) : c.AtOpening := by
  obtain ⟨s, hs, rest, hrest⟩ := exists_of_opensTag h
  refine ⟨s, hs, fun quotes => ?_⟩
  obtain ⟨hskip, -⟩ := nextPiece_of_opensTag quotes h
  have hpiece : c.nextPiece quotes = ⟨s.spelling.toList, .ok (.symbol s)⟩ := by
    rw [nextPiece, hskip, hrest, Piece.first_of_opens hs]
  rw [next_eq, nextSpan, behindNext, hpiece, hskip]

/-- Text stops at what opens a placeable or a tag, or with the source. -/
theorem atOpening_behindText {c : Cursor} (h : c.behindText.atEnd = false) :
    c.behindText.AtOpening := by
  refine atOpening_of_opensTag (c.behindText_rest.resolve_left fun hnil => ?_)
  simp [atEnd, hnil] at h

end Cursor

/-! ## Drafts without a token kept back -/

namespace Draft

/-- No token was looked at and not taken. -/
def Clear (d : Draft) : Prop := d.reader.peeked = none

/-- How text is read from a draft: with no token kept back, and up to the end of the source or to a
symbol that opens a placeable or a tag. -/
structure StopsAtTag (d : Draft) : Prop where
  peeked : d.reader.peeked = none
  ends : d.reader.cursor.text.2.atEnd = true → opening d = .ok none d.behindText
  /-- The next token is the symbol, and it begins where the text ends. -/
  opens : d.reader.cursor.text.2.atEnd = false → ∃ l t, opening d = .ok (some l) t ∧
    (l.token = .symbol .beginPut ∨ l.token = .symbol .beginTag) ∧
    l.span.start = d.reader.cursor.text.2.position

theorem Clear.stopsAtTag {d : Draft} (h : d.Clear) : d.StopsAtTag where
  peeked := h
  ends hend := opening_of_end ⟨h, rfl⟩ (List.isEmpty_iff.mp hend)
  opens hend := by
    rcases opening_cases h with ⟨hnil, -⟩ | ⟨symbol, l, r, hs, -, hopen, hl, hstart, -⟩
    · exact absurd ((List.isEmpty_iff.mpr hnil).symm.trans hend) (by decide)
    · exact ⟨l, _, hopen, hs.imp (fun hs => by rw [hl, hs]) (fun hs => by rw [hl, hs]), hstart⟩

end Draft

/-- Whatever reads bodies and tags keeps back no token if it succeeds. -/
theorem PieceWise.clear {α : Type} {m : DraftM α} (h : PieceWise m) :
    Ensures Clear m (fun _ => Clear) fun _ _ => True := by
  induction h with
  | pure a => exact Ensures.pure fun _ h => h
  | throw f => exact Ensures.throw fun _ _ => trivial
  | @lift α m _ hs =>
    intro d _
    rw [run_lift]
    cases hr : m d.reader with
    | ok a r => exact hs _ _ _ hr
    | error f r => trivial
  | opening =>
    intro d hd
    rcases opening_cases hd with ⟨-, hend⟩ | ⟨_, _, _, -, -, hopen, -, -, hr⟩
    · rw [hend]
      exact hd
    · rw [hopen]
      exact hr
  | aside h => exact h.keeps (P := fun r => r.peeked = none)
  | bind _ _ ihm ihf => exact Ensures.bind ihm ihf
  | loop _ b ih =>
    exact Ensures.loop_weak (I := fun _ => Clear)
      (fun b => (ih b).after fun r _ h => by cases r <;> exact h) b

/-! ## Calls between tokens -/

/-- The readers of bodies and tags. All others read expressions or parts of a tag. -/
@[simp] def Procedure.OfBodies : Procedure → Prop
  | body | tag | ifTag | forTag | callTag | filterTag | blockTag | macroTag | armLoop | pieceLoop =>
    True
  | _ => False

/-- A reader of bodies or tags keeps back no token if it succeeds. -/
theorem Routine.clear_run {α : Type} (c : Routine α) (h : c.procedure.OfBodies) :
    Ensures Clear c.run (fun _ => Clear) fun _ _ => True := by
  refine PieceWise.clear ?_
  cases c with
  | body n closers => exact pieceWise_body n closers
  | tag n opening word => exact pieceWise_tag (pieceWise_body n) word
  | ifTag n opening => exact pieceWise_ifTag (pieceWise_body n)
  | forTag n opening => exact pieceWise_forTag (pieceWise_body n)
  | callTag n opening => exact pieceWise_callTag (pieceWise_body n)
  | filterTag n opening => exact pieceWise_filterTag (pieceWise_body n)
  | blockTag n opening => exact pieceWise_blockTag (pieceWise_body n)
  | macroTag n opening => exact pieceWise_macroTag (pieceWise_body n)
  | passes p b =>
    cases p with
    | arms n => exact .loop (pieceWise_nextArm (pieceWise_body n)) b
    | pieces n closers => exact .loop (fun _ => pieceWise_piece (pieceWise_body n) closers) b
    | _ => exact h.elim
  | _ => exact h.elim

/-- Carried out from a draft with `I`, a plan ends as stated if it succeeds, and wherever it calls a
reader of bodies or tags no token is kept back. -/
structure Plan.Clears {α : Type} (I : Draft → Prop) (p : Plan α) (J : Draft → Prop) : Prop where
  ends : Ensures I p.run (fun _ => J) fun _ _ => True
  calls {d : Draft} (hd : I d) {β : Type} (c : Routine β) (t : Draft) (hc : p.Calls d c t)
    (hb : c.procedure.OfBodies) : t.Clear

/-- Nothing is known of the draft. -/
abbrev Draft.Any (_ : Draft) : Prop := True

namespace Plan.Clears
variable {α β : Type} {I J K : Draft → Prop} {p : Plan α}

theorem pure {a : α} : Clears I (pure a) I :=
  ⟨Ensures.pure fun _ h => h, fun _ _ _ _ hc => nomatch hc⟩

theorem act {m : DraftM α} (h : Ensures I m (fun _ => J) fun _ _ => True) :
    Clears I (liftM m) J where
  ends := by rwa [run_act]
  calls _ _ _ _ hc := by
    cases hc with
    | acted _ h => cases h

theorem throw {f : Fault} : Clears I (liftM (throw f : DraftM α)) J :=
  act (Ensures.throw fun _ _ => trivial)

/-- Taking tokens and looking at them may leave one that is kept back. -/
theorem read (m : ReadM α) : Clears I (liftM m) Any := by
  refine act (m := (liftM m : DraftM α)) fun d _ => ?_
  rw [run_lift]
  cases m d.reader <;> trivial

/-- Behind a token that is taken none is kept back. -/
theorem settle {m : ReadM α} (h : Settles m) : Clears I (liftM m) Clear := by
  refine act (m := (liftM m : DraftM α)) fun d _ => ?_
  rw [run_lift]
  cases hr : m d.reader with
  | ok a r => exact h _ _ _ hr
  | error f r => trivial

theorem aside {m : DraftM α} (h : Aside m) : Clears Clear (liftM m) Clear :=
  act (PieceWise.aside h).clear

theorem bind {q : Plan β} {f : β → Plan α} (hq : Clears I q J) (hf : ∀ b, Clears J (f b) K) :
    Clears I (q >>= f) K where
  ends := by
    rw [Plan.run_bind]
    exact hq.ends.bind fun b => (hf b).ends
  calls hd _ c t hc hb := by
    obtain hc | ⟨b, u, hr, hc⟩ := calls_bind hc
    · exact hq.calls hd c t hc hb
    · exact (hf b).calls (hq.ends.ok hd hr) c t hc hb

/-- It does not matter what is kept back when a reader of an expression is called. -/
theorem call (c : Routine α) (h : ¬ c.procedure.OfBodies) : Clears I (ofCall c) Any where
  ends d _ := by
    rw [run_ofCall]
    cases c.run d <;> trivial
  calls _ _ _ _ hc hb := by
    cases hc with
    | here => exact absurd hb h
    | returned _ h => cases h

/-- A reader of bodies or tags is called with no token kept back, and leaves none. -/
theorem callClear (c : Routine α) (h : c.procedure.OfBodies) :
    Clears Clear (ofCall c) Clear where
  ends := by
    rw [run_ofCall]
    exact c.clear_run h
  calls hd _ _ _ hc _ := by
    cases hc with
    | here => exact hd
    | returned _ h => cases h

theorem opened {n : Nat} {span : Span} {next : Nat → Plan α} (h : ∀ m, Clears I (next m) J) :
    Clears I (Plan.opened n span next) J := by
  cases n with
  | zero => exact throw
  | succ m => exact h m

/-! ### Parts of tags -/

section Parts
variable {n : Nat} {opening : Span}

theorem lastExpression : Clears I (Plan.lastExpression n) Clear :=
  (call (.operation n _ 0) id).bind fun _ => (settle settles_endTag).bind fun _ => pure

theorem pattern : Clears I Plan.pattern Any := by
  refine (read _).bind fun first => (read _).bind fun atComma => ?_
  split
  · exact (call (.passes .names _) id).bind fun _ => pure
  · exact pure

theorem placeable : Clears I (Plan.placeable n opening) Clear :=
  (call (.operation n _ 0) id).bind fun _ => (call (.passes (.filters n) _) id).bind fun _ =>
    (settle (.expectSymbol _)).bind fun _ => pure

theorem items {q : Repetition (List α)} (h : ¬ q.procedure.OfBodies) :
    Clears I (Plan.items q) Any :=
  (call (.passes q []) h).bind fun _ => (read _).bind fun _ => pure

theorem nextItem (h : Clears Any p Any) (found : List α) :
    Clears Any (Plan.nextItem p found) Any := by
  refine (read _).bind fun atEnd => ?_
  split
  · exact pure
  · refine h.bind fun x => (read _).bind fun atClose => ?_
    split
    · exact pure
    · exact (read _).bind fun _ => pure

theorem parameter : Clears I (Plan.parameter n) Any := by
  refine (read _).bind fun name => (read _).bind fun atAssign => ?_
  split
  · exact (read _).bind fun _ => (call (.operation n _ 0) id).bind fun _ => pure
  · exact pure

theorem setTag : Clears I (Plan.setTag n opening) Clear :=
  pattern.bind fun _ => (read _).bind fun _ => (call (.operation n _ 0) id).bind fun _ =>
    (settle (.expectSymbol _)).bind fun _ => pure

theorem extendsTag : Clears I (Plan.extendsTag n) Clear := by
  refine lastExpression.bind fun target => (aside (aside_setParent _)).bind fun first => ?_
  split
  · exact pure
  · exact throw

theorem loopCondition : Clears I (Plan.loopCondition n) Any := by
  refine (read _).bind fun atIf => ?_
  split
  · exact (read _).bind fun _ => (call (.operation n _ 0) id).bind fun _ => pure
  · exact pure

theorem callArguments : Clears I (Plan.callArguments n) Any := by
  refine (read _).bind fun atParen => ?_
  split
  · exact (call (.arguments n) id).bind fun _ => pure
  · exact pure

end Parts

/-! ### Passes -/

section Passes
variable {n : Nat} {stops : List String} {minimum : Nat} {closers : List Keyword}

theorem suffixes (e : Expression) : Clears Any ((Repetition.suffixes n).plan e) Any := by
  refine (read _).bind fun atDot => ?_
  split
  · exact (read _).bind fun _ => (read _).bind fun _ => pure
  · refine (read _).bind fun atParen => ?_
    split
    · exact (call (.arguments n) id).bind fun _ => pure
    · exact pure

theorem joints (left : Expression) :
    Clears Any ((Repetition.joints n stops minimum).plan left) Any := by
  refine (read _).bind fun l => ?_
  split
  · exact pure
  · exact (read _).bind fun _ => (call (.term n) id).bind fun _ => pure
  · exact (read _).bind fun _ => opened fun m =>
      (call (.operation m stops _) id).bind fun _ => pure

theorem names (found : List Variable × Span) : Clears Any (Repetition.names.plan found) Any := by
  refine (read _).bind fun atComma => ?_
  split
  · exact (read _).bind fun _ => (read _).bind fun _ => pure
  · exact pure

theorem filters (found : List Expression) :
    Clears Any ((Repetition.filters n).plan found) Any := by
  refine (read _).bind fun atBar => ?_
  split
  · exact (read _).bind fun _ => (call (.term n) id).bind fun _ => pure
  · exact pure

theorem arms (found : List (Arm Statement) × Closing) :
    Clears Clear ((Repetition.arms n).plan found) Clear := by
  obtain ⟨arms, closing⟩ := found
  dsimp only [Repetition.plan]
  split
  · exact lastExpression.bind fun _ => (callClear (.body n armClosers) trivial).bind fun _ => pure
  · exact pure

/-- The text of a piece is read before all else, and what stands behind it ends with a token that is
taken. -/
theorem pieces (closing : Option Closing) :
    Clears Clear ((Repetition.pieces n closers).plan closing) Clear := by
  refine (act PieceWise.opening.clear).bind fun found => ?_
  cases found with
  | none => exact pure
  | some l =>
    dsimp only
    split
    · exact placeable.bind fun s => (aside (aside_push s)).bind fun _ => pure
    · refine (settle .expectName).bind fun name => (aside (aside_note _)).bind fun _ => ?_
      split
      · exact pure
      · exact (callClear (.tag n l.span name) trivial).bind fun _ => pure
    · exact throw

/-- The passes that are still to come of a loop over parts of a tag. -/
theorem passes {p : Repetition α} {b : α} (hp : ¬ p.procedure.OfBodies)
    (h : Clears Any (p.plan b) Any) : Clears Any (Routine.passes p b).plan Any := by
  refine h.bind fun r => ?_
  cases r with
  | done b' => exact pure
  | yield b' => exact call (.passes p b') hp

/-- The same of a loop over bodies. -/
theorem passesClear {p : Repetition α} {b : α} (hp : p.procedure.OfBodies)
    (h : Clears Clear (p.plan b) Clear) : Clears Clear (Routine.passes p b).plan Clear := by
  refine h.bind fun r => ?_
  cases r with
  | done b' => exact pure
  | yield b' => exact callClear (.passes p b') hp

end Passes

/-! ### Readers -/

section Routines
variable {n : Nat} {stops : List String} {minimum : Nat} {opening : Span}

theorem operand : Clears Any (Routine.operand n).plan Any := by
  refine (read _).bind fun l => ?_
  split
  · exact call (.term n) id
  · exact (read _).bind fun _ => opened fun m =>
      (call (.operand m) id).bind fun _ => pure

theorem primary : Clears Any (Routine.primary n).plan Any := by
  refine (read _).bind fun l => ?_
  split
  · exact pure
  · exact read _
  · exact pure
  · exact opened fun m => (call (.operation m _ 0) id).bind fun _ => (read _).bind fun _ => pure
  · exact read _

theorem body {closers : List Keyword} : Clears Clear (Routine.body n closers).plan Clear := by
  cases n with
  | zero => exact (aside aside_position).bind fun _ => throw
  | succ n =>
    refine (aside aside_openBody).bind fun _ =>
      (callClear (.passes (.pieces n closers) none) trivial).bind fun closing => ?_
    cases closing with
    | some closing => exact (aside (aside_closeBody _)).bind fun _ => pure
    | none => exact (aside aside_position).bind fun _ => throw

theorem tag {word : Identifier} : Clears Clear (Routine.tag n opening word).plan Clear := by
  have pushed {q : Plan Statement} (h : Clears Clear q Clear) :
      Clears Clear (q >>= fun s => liftM (push s)) Clear :=
    h.bind fun s => aside (aside_push s)
  dsimp only [Routine.plan]
  split
  · exact pushed (callClear (.ifTag n opening) trivial)
  · exact pushed (callClear (.forTag n opening) trivial)
  · exact pushed setTag
  · exact pushed (callClear (.callTag n opening) trivial)
  · exact pushed (callClear (.filterTag n opening) trivial)
  · exact pushed (callClear (.blockTag n opening) trivial)
  · exact callClear (.macroTag n opening) trivial
  · exact extendsTag
  · exact throw

theorem ifTag : Clears Clear (Routine.ifTag n opening).plan Clear := by
  refine lastExpression.bind fun condition =>
    (callClear (.body n armClosers) trivial).bind fun (first, closing) =>
    (callClear (.passes (.arms n) _) (by simp)).bind fun (arms, closing) => ?_
  dsimp only
  split
  · exact (settle settles_endTag).bind fun _ =>
      (callClear (.body n [.endIf]) trivial).bind fun _ =>
      (settle settles_endTag).bind fun _ => pure
  · exact (settle settles_endTag).bind fun _ => pure

theorem forTag : Clears Clear (Routine.forTag n opening).plan Clear := by
  refine pattern.bind fun target => (read _).bind fun _ =>
    (call (.operation n _ 0) id).bind fun _ => loopCondition.bind fun condition =>
    (settle settles_endTag).bind fun _ =>
    (callClear (.body n [.elseWord, .endFor]) trivial).bind fun (main, closing) => ?_
  dsimp only
  split
  · exact (settle settles_endTag).bind fun _ =>
      (callClear (.body n [.endFor]) trivial).bind fun _ =>
      (settle settles_endTag).bind fun _ => pure
  · exact (settle settles_endTag).bind fun _ => pure

theorem callTag : Clears Clear (Routine.callTag n opening).plan Clear :=
  (read _).bind fun _ => callArguments.bind fun _ => (settle settles_endTag).bind fun _ =>
    (callClear (.body n [.endCall]) trivial).bind fun _ => (settle settles_endTag).bind fun _ =>
    pure

theorem filterTag : Clears Clear (Routine.filterTag n opening).plan Clear :=
  lastExpression.bind fun _ => (callClear (.body n [.endFilter]) trivial).bind fun _ =>
    (settle settles_endTag).bind fun _ => pure

theorem blockTag : Clears Clear (Routine.blockTag n opening).plan Clear :=
  (settle settles_blockHead).bind fun _ => (callClear (.body n [.endBlock]) trivial).bind fun _ =>
    (settle (settles_blockEnd _)).bind fun _ => (aside (aside_define _)).bind fun _ => pure

theorem macroTag : Clears Clear (Routine.macroTag n opening).plan Clear :=
  (read _).bind fun _ => (read _).bind fun _ => (items (q := .parameters n) id).bind fun _ =>
    (settle settles_endTag).bind fun _ => (callClear (.body n [.endMacro]) trivial).bind fun _ =>
    (settle settles_endTag).bind fun _ => aside (aside_define _)

end Routines
end Plan.Clears

namespace Routine
variable {α β : Type}

/-- What is known of the draft when a routine is called: if it reads bodies or tags, then no token
is kept back. -/
def Begins (c : Routine α) (d : Draft) : Prop := c.procedure.OfBodies → d.Clear

/-- What is known where a routine begins is known where it calls another one. -/
theorem Begins.of_calls {c : Routine α} {d : Draft} (hd : c.Begins d) {c' : Routine β} {t : Draft}
    (h : c.plan.Calls d c' t) : c'.Begins t := by
  -- a reader of expressions calls no reader of bodies, so nothing has to be known where it begins
  have anyhow {J : Draft → Prop} (hc : Clears Any c.plan J) : c'.Begins t := hc.calls trivial c' t h
  have between {J : Draft → Prop} (hb : c.procedure.OfBodies) (hc : Clears Clear c.plan J) :
      c'.Begins t := hc.calls (hd hb) c' t h
  cases c with
  | operation n stops minimum =>
    exact anyhow ((Clears.call (.operand n) id).bind fun _ => .call (.passes (.joints n _ _) _) id)
  | operand n => exact anyhow .operand
  | term n =>
    exact anyhow ((Clears.call (.primary n) id).bind fun _ => .call (.passes (.suffixes n) _) id)
  | primary n => exact anyhow .primary
  | arguments n =>
    exact anyhow ((Clears.read _).bind fun _ => .opened fun m => .items (q := .arguments m) id)
  | body n closers => exact between trivial .body
  | tag n opening word => exact between trivial .tag
  | ifTag n opening => exact between trivial .ifTag
  | forTag n opening => exact between trivial .forTag
  | callTag n opening => exact between trivial .callTag
  | filterTag n opening => exact between trivial .filterTag
  | blockTag n opening => exact between trivial .blockTag
  | macroTag n opening => exact between trivial .macroTag
  | passes p b =>
    cases p with
    | suffixes n => exact anyhow (.passes id (.suffixes b))
    | joints n stops minimum => exact anyhow (.passes id (.joints b))
    | arguments n => exact anyhow (.passes id (.nextItem (.call (.operation n _ 0) id) b))
    | parameters n => exact anyhow (.passes id (.nextItem .parameter b))
    | names => exact anyhow (.passes id (.names b))
    | filters n => exact anyhow (.passes id (.filters b))
    | arms n => exact between trivial (.passesClear trivial (.arms b))
    | pieces n closers => exact between trivial (.passesClear trivial (.pieces b))

end Routine

/-! ## Sessions -/

namespace Session
variable {s : Session}

/-- The calls that are made when all that is left is read: the one for the pieces that are left, and
those that are made by calls. -/
def Makes (s : Session) (x : Moment) : Prop :=
  Relation.ReflTransGen Moment.Calls ⟨pieces, s.draft⟩ x

/-- What is known of the draft at every call. -/
theorem Makes.begins {x : Moment} (h : s.Makes x) (hs : s.draft.Clear) :
    x.routine.Begins x.draft := by
  induction h with
  | refl => exact fun _ => hs
  | tail _ hcall ih => exact ih.of_calls hcall

theorem clear_process (hs : s.draft.Clear) : s.process.2.draft.Clear := by
  cases hr : readAll s.draft with
  | ok u d =>
    rw [process_of_ok hr]
    exact pieceWise_readAll.clear.ok hs hr
  | error f d =>
    rw [process_of_error hr]
    rfl

end Session

/-- Text is not read past a token that was looked at, and it stops at a tag. The plan of every
reader is what the reader does, so the plans tell all calls that are made while a session reads. At
each pass of a loop over pieces, whose first step reads the text, and at each call of the reader of
bodies, whose first step takes the start of the body from the cursor, no token is kept back; none is
when a call of the session returns, with or without an error. A pass reads text to the end of the
source, or finds the symbol that opens a placeable or a tag right behind it; it never meets a fault
or another token there. -/
theorem Session.text_stops_at_tags {s : Session} (hs : s.draft.reader.peeked = none) :
    (readAll = discard pieces.run ∧ ∀ {α : Type} (c : Routine α), c.plan.run = c.run) ∧
    (∀ n closers b d, s.Makes ⟨.passes (.pieces n closers) b, d⟩ → d.StopsAtTag) ∧
    (∀ n closers d, s.Makes ⟨.body n closers, d⟩ → d.reader.peeked = none) ∧
    (s.process.2.draft.reader.peeked = none ∧ s.generate.2.draft.reader.peeked = none) ∧
    ∀ c : Cursor, c.text.2.atEnd = false → c.text.2.AtOpening := by
  refine ⟨⟨rfl, Routine.run_plan⟩, fun n closers b d h => ?_, fun n closers d h => ?_,
    ⟨clear_process hs, ?_⟩, fun c => Cursor.atOpening_behindText⟩
  · exact Clear.stopsAtTag (h.begins hs trivial)
  · exact h.begins hs trivial
  · rw [reader_generate]
    exact clear_process hs

/-- Behind the condition of an `if` the end of the tag was looked at, but where the body is read
this token is taken, and the cursor stands before the text of the body. -/
theorem Session.text_stops_at_tags_if :
    (start "\x7b% if a %\x7db").draft.reader.peeked = none ∧
    ∃ n closers d, (start "\x7b% if a %\x7db").Makes ⟨.body n closers, d⟩ ∧
      d.reader.cursor.rest = ['b'] ∧ d.reader.peeked = none := by
  let text := "\x7b% if a %\x7db"
  let put : Span := ⟨⟨0, 1, 0⟩, ⟨2, 1, 2⟩⟩
  let word : Identifier := ⟨"if", ⟨⟨3, 1, 3⟩, ⟨5, 1, 5⟩⟩⟩
  let name : Variable := ⟨"a", ⟨⟨6, 1, 6⟩, ⟨7, 1, 7⟩⟩⟩
  let close : Lexeme := ⟨.symbol .endTag, ⟨⟨8, 1, 8⟩, ⟨10, 1, 10⟩⟩⟩
  have hopening : opening (.ofText text) = .ok (some ⟨.symbol .beginTag, put⟩)
      { Draft.ofText text with reader := ⟨⟨⟨2, 1, 2⟩, " if a %\x7db".toList⟩, none, 1⟩ } := by
    decide +kernel
  have hname : expectName ⟨⟨⟨2, 1, 2⟩, " if a %\x7db".toList⟩, none, 1⟩ =
      .ok word ⟨⟨⟨5, 1, 5⟩, " a %\x7db".toList⟩, none, 2⟩ := by
    decide +kernel
  have hcondition : Expression.operation (Expression.descend depthLimit) [Symbol.endTag.spelling] 0
      ⟨⟨⟨5, 1, 5⟩, " a %\x7db".toList⟩, none, 2⟩ =
      .ok (.name name) ⟨⟨⟨10, 1, 10⟩, ['b']⟩, some close, 4⟩ := by
    decide +kernel
  have hend : endTag ⟨⟨⟨10, 1, 10⟩, ['b']⟩, some close, 4⟩ =
      .ok close.span ⟨⟨⟨10, 1, 10⟩, ['b']⟩, none, 4⟩ := by
    decide +kernel
  -- the draft behind the word of the tag, where the reader of the `if` begins
  let d : Draft := { Draft.ofText text with
    reader := ⟨⟨⟨5, 1, 5⟩, " a %\x7db".toList⟩, none, 2⟩
    log := [.tag word.value word.span] }
  have htag : Moment.Calls ⟨pieces, .ofText text⟩ ⟨.tag depthLimit put word, d⟩ :=
    .acted hopening (.acted (run_lift_ok hname) (.acted rfl .here))
  have hif : Moment.Calls ⟨.tag depthLimit put word, d⟩ ⟨.ifTag depthLimit put, d⟩ := .here
  have hbody : Moment.Calls ⟨.ifTag depthLimit put, d⟩ ⟨.body depthLimit armClosers, _⟩ :=
    .returned (run_lift_ok hcondition) (.acted (run_lift_ok hend) .here)
  have hmakes : (start text).Makes ⟨.body depthLimit armClosers, _⟩ :=
    .tail (.tail (.single htag) hif) hbody
  obtain ⟨-, -, hclear, -⟩ := text_stops_at_tags (s := start text) rfl
  exact ⟨rfl, _, _, _, hmakes, rfl, hclear _ _ _ hmakes⟩

end TemplateSyntax
