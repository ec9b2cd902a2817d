import TemplateSyntax.Proofs.BlamedTokens

/-!
# Faults in bodies

A body has three more faults than its tokens. It cannot be opened when no level is left, it is not
closed when the source ends, and it names a second template to extend. The first two have no token
to blame, and are found in no text at the place that reading has come to; the last one is found in
an expression that was read before the end of its tag.
-/
namespace TemplateSyntax

/-- A cursor may stand wherever reading a text from its beginning can have come to. -/
def Trail.ofText (text : String) : Trail where
  Stands _ c := (Cursor.ofText text).Reaches c
  onward h := h.trans (Cursor.reaches_behindNext true _)

theorem Trail.Behind.reaches {text : String} {l : Lexeme} {r : Reader}
    (h : (Trail.ofText text).Behind l r) : (Cursor.ofText text).Reaches r.cursor := by
  rcases h.on with ⟨-, hreaches⟩ | ⟨l', hpeeked, -⟩
  · exact hreaches
  · rw [h.1] at hpeeked
    cases hpeeked

namespace Draft
variable {α β : Type} {text : String} {levels : Nat} {body : BodyReader} {opening : Span}

/-- The draft reads on in the text, and no token is looked at. -/
def Free (text : String) (d : Draft) : Prop :=
  d.reader.peeked = none ∧ (Cursor.ofText text).Reaches d.reader.cursor

/-- The tag that was read last names one more template to extend, and this is its target. -/
def ExtendsAgain (text : String) (d : Draft) (target : Expression) : Prop :=
  d.parent.isSome = true ∧ ∃ l r n,
    (Trail.ofText text).Behind l r ∧ l.token = .identifier Keyword.extendsWord.spelling ∧
      lastExpression n r = .ok target d.reader

/-- What a draft has come to when it fails with a fault. -/
inductive Blames (text : String) : Fault → Draft → Prop
  /-- The token that was found last is at fault. -/
  | token {f : Fault} {d : Draft} (h : (Trail.ofText text).Blames f d.reader) : Blames text f d
  /-- No level is left for a body. -/
  | tooDeep {d : Draft} (h : Free text d) :
      Blames text ⟨.tooDeep, .empty d.reader.cursor.position⟩ d
  /-- The source has ended. -/
  | ended {d : Draft} {cause : Cause} (h : Free text d) (hrest : d.reader.cursor.rest = [])
      (hcause : (∃ closers, cause = .unclosedBody closers) ∨ cause = .incomplete) :
      Blames text ⟨cause, .empty d.reader.cursor.position⟩ d
  | extendsAgain {d : Draft} {target : Expression} (h : Free text d)
      (htarget : ExtendsAgain text d target) : Blames text ⟨.secondParent, target.span⟩ d

/-- If the computation fails it has come to its fault. Otherwise it leaves no token looked at. -/
def Honest (text : String) (m : DraftM α) : Prop :=
  Ensures (Free text) m (fun _ => Free text) (Blames text)

theorem free_of_behind {l : Lexeme} {d : Draft} (h : (Trail.ofText text).Behind l d.reader) :
    Free text d := ⟨h.1, h.reaches⟩

theorem blames_of_behind {l : Lexeme} {cause : Cause} {d : Draft}
    (h : (Trail.ofText text).Behind l d.reader) (hcause : cause.Concerns l.token) :
    Blames text ⟨cause, l.span⟩ d := .token (h.rejects hcause).2

namespace Honest

theorem pure (a : α) : Honest text (pure a : DraftM α) := Ensures.pure fun _ h => h

theorem bind {m : DraftM α} {f : α → DraftM β} (hm : Honest text m)
    (hf : ∀ a, Honest text (f a)) : Honest text (m >>= f) := Ensures.bind hm hf

theorem discard {m : DraftM α} (hm : Honest text m) : Honest text (discard m : DraftM PUnit) :=
  Ensures.discard hm

theorem loop {step : β → DraftM (ForInStep β)} (h : ∀ b, Honest text (step b)) (b : β) :
    Honest text (loop Draft.size step b) :=
  Ensures.loop_weak (I := fun _ => Free text)
    (fun b => (h b).after fun r _ hd => by cases r <;> exact hd) b

theorem aside {m : DraftM α} (h : Aside m) : Honest text m :=
  h.keeps (P := fun r => r.peeked = none ∧ (Cursor.ofText text).Reaches r.cursor)

theorem lift {m : ReadM α}
    (hm : Ensures (Trail.ofText text).On m (fun _ => (Trail.ofText text).On)
      (Trail.ofText text).Blames)
    (hs : Reader.Settles m) : Honest text (liftM m : DraftM α) := by
  intro d hd
  have hon := hm d.reader (.inl hd)
  rw [run_lift]
  cases hr : m d.reader with
  | error f r =>
    rw [hr] at hon
    exact .token hon
  | ok a r =>
    rw [hr] at hon
    have hpeeked := hs _ _ _ hr
    rcases hon with hfree | ⟨l, hbefore, -⟩
    · exact hfree
    · rw [hpeeked] at hbefore
      cases hbefore

theorem truthful {m : ReadM α} (hm : (Trail.ofText text).Truthful m) (hs : Reader.Settles m) :
    Honest text (liftM m : DraftM α) :=
  lift (Ensures.mono hm (fun _ h => h) (fun _ _ h => h) fun _ _ h => h.2) hs

theorem endTag : Honest text (liftM Draft.endTag : DraftM Span) :=
  truthful truthful_endTag settles_endTag

theorem lastExpression : Honest text (liftM (lastExpression levels) : DraftM Expression) :=
  truthful truthful_lastExpression settles_lastExpression

end Honest

/-! ## Tags -/

section Tags
variable (hb : ∀ closers, Honest text (body closers)) (hp : body.PieceWise)
include hb

theorem honest_nextArm (x : List (Arm Statement) × Closing) :
    Honest text (nextArm levels body x) := by
  obtain ⟨arms, closing⟩ := x
  unfold nextArm
  dsimp only
  split
  · exact .bind .lastExpression fun _ => (hb _).bind fun _ => .pure _
  · exact .pure _

theorem honest_ifTag : Honest text (ifTag levels body opening) := by
  refine .bind .lastExpression fun _ => (hb _).bind fun _ => ?_
  refine (Honest.loop (honest_nextArm hb) _).bind fun (_, closing) => ?_
  dsimp only
  split
  · exact Honest.endTag.discard.bind fun _ => (hb _).bind fun _ =>
      Honest.endTag.discard.bind fun _ => .pure _
  · exact Honest.endTag.discard.bind fun _ => .pure _

theorem honest_forTag : Honest text (forTag levels body opening) := by
  refine (Honest.truthful truthful_loopHead settles_loopHead).bind fun _ => ?_
  refine (hb _).bind fun (_, closing) => ?_
  dsimp only
  split
  · exact Honest.endTag.discard.bind fun _ => (hb _).bind fun _ =>
      Honest.endTag.discard.bind fun _ => .pure _
  · exact Honest.endTag.discard.bind fun _ => .pure _

theorem honest_callTag : Honest text (callTag levels body opening) :=
  (Honest.truthful truthful_callHead settles_callHead).bind fun _ => (hb _).bind fun _ =>
    Honest.endTag.discard.bind fun _ => .pure _

theorem honest_filterTag : Honest text (filterTag levels body opening) :=
  .bind .lastExpression fun _ => (hb _).bind fun _ => Honest.endTag.discard.bind fun _ => .pure _

theorem honest_blockTag : Honest text (blockTag body opening) :=
  (Honest.truthful truthful_blockHead settles_blockHead).bind fun _ => (hb _).bind fun _ =>
    (Honest.lift (ensures_blockEnd _) (settles_blockEnd _)).bind fun _ =>
    (Honest.aside (aside_define _)).bind fun _ => .pure _

theorem honest_macroTag : Honest text (macroTag levels body opening) :=
  (Honest.truthful truthful_macroHead settles_macroHead).bind fun _ => (hb _).bind fun _ =>
    Honest.endTag.discard.bind fun _ => .aside (aside_define _)

omit hb in
/-- The target of a tag that extends a template is read behind the keyword of the tag. -/
theorem ensures_target {l : Lexeme} :
    Ensures (fun d => (Trail.ofText text).Behind l d.reader)
      (liftM (lastExpression levels) : DraftM Expression)
      (fun target d => Free text d ∧ ∃ r, (Trail.ofText text).Behind l r ∧
        lastExpression levels r = .ok target d.reader) (Blames text) := by
  intro d hd
  have hfree : Ends (fun _ => Free text) (Blames text)
      ((liftM (lastExpression levels) : DraftM Expression) d) :=
    Honest.lastExpression d (free_of_behind hd)
  rw [run_lift] at hfree ⊢
  cases hr : lastExpression levels d.reader with
  | error f r =>
    rw [hr] at hfree
    exact hfree
  | ok target r =>
    rw [hr] at hfree
    exact ⟨hfree, d.reader, hd, hr⟩

omit hb in
/-- A template that is extended is kept, or it is one too many. -/
theorem ensures_extendsTag {l : Lexeme} (hl : l.token = .identifier Keyword.extendsWord.spelling) :
    Ensures (fun d => (Trail.ofText text).Behind l d.reader) (extendsTag levels)
      (fun _ => Free text) (Blames text) := by
  refine ensures_target.bind fun target => ?_
  have hparent : Ensures (fun d => Free text d ∧ ∃ r, (Trail.ofText text).Behind l r ∧
      lastExpression levels r = .ok target d.reader) (setParent target)
      (fun isFirst d => Free text d ∧ (isFirst = false → ExtendsAgain text d target))
      (Blames text) := by
    rintro d ⟨hfree, r, hr, hread⟩
    rw [setParent, run_modifyGet]
    cases hsome : d.parent.isSome with
    | false => exact ⟨hfree, fun h => by cases h⟩
    | true => exact ⟨hfree, fun _ => ⟨hsome, l, r, levels, hr, hl, hread⟩⟩
  refine hparent.bind fun isFirst => ?_
  cases isFirst with
  | true => exact Ensures.pure fun _ hd => hd.1
  | false => exact Ensures.throw fun _ hd => .extendsAgain hd.1 (hd.2 rfl)

theorem ensures_tag (name : Identifier) :
    Ensures (fun d => (Trail.ofText text).Behind ⟨.identifier name.value, name.span⟩ d.reader)
      (tag levels body opening name) (fun _ => Free text) (Blames text) := by
  have hpush {m : DraftM Statement} (hm : Honest text m) :
      Ensures (fun d => (Trail.ofText text).Behind ⟨.identifier name.value, name.span⟩ d.reader)
        (m >>= push) (fun _ => Free text) (Blames text) :=
    Ensures.before (hm.bind fun _ => .aside (aside_push _)) fun _ => free_of_behind
  unfold tag
  split
  · exact hpush (honest_ifTag hb)
  · exact hpush (honest_forTag hb)
  · exact hpush (.truthful truthful_setTag settles_setTag)
  · exact hpush (honest_callTag hb)
  · exact hpush (honest_filterTag hb)
  · exact hpush (honest_blockTag hb)
  · exact Ensures.before (honest_macroTag hb) fun _ => free_of_behind
  · next hk =>
    apply ensures_extendsTag
    rw [Keyword.ofSpelling?_eq_some_iff.mp hk]
  · exact Ensures.throw fun _ hd => blames_of_behind hd rfl

/-! ## Bodies -/

omit hb in
/-- The token that opens a tag or a placeable is taken, unless the source has ended. -/
theorem honest_opening :
    Ensures (Free text) Draft.opening
      (fun found d => match found with
        | none => Free text d ∧ d.reader.cursor.rest = []
        | some l => (Trail.ofText text).Behind l d.reader) (Blames text) := by
  intro d hd
  have htext : Free text d.behindText := ⟨hd.1, hd.2.trans d.reader.cursor.reaches_behindText⟩
  have hnext := Trail.ensures_next (T := Trail.ofText text) d.behindText.reader (.inl htext)
  rw [run_opening]
  split
  · next hend => exact ⟨htext, List.isEmpty_iff.mp hend⟩
  · cases hr : Reader.next d.behindText.reader with
    | ok l r =>
      rw [hr] at hnext
      exact hnext
    | error f r =>
      rw [hr] at hnext
      exact .token hnext.2

omit hb in
theorem ensures_name {l : Lexeme} :
    Ensures (fun d => (Trail.ofText text).Behind l d.reader)
      (liftM Reader.expectName : DraftM Identifier)
      (fun name d =>
        (Trail.ofText text).Behind ⟨.identifier name.value, name.span⟩ d.reader)
      (Blames text) := by
  intro d hd
  have hname := Trail.ensures_expectName d.reader hd.on
  rw [run_lift]
  cases hr : Reader.expectName d.reader with
  | ok name r =>
    rw [hr] at hname
    exact hname
  | error f r =>
    rw [hr] at hname
    exact .token hname.2

/-- Reading goes on to the end of the source, unless a tag closes the body before. -/
def Closed (text : String) (found : Option Closing) (d : Draft) : Prop :=
  Free text d ∧ (found = none → d.reader.cursor.rest = [])

theorem ensures_piece (closers : List Keyword) :
    Ensures (Free text) (piece levels body closers)
      (OnPass (Closed text) fun _ => Free text) (Blames text) := by
  refine honest_opening.bind fun found => ?_
  cases found with
  | none => exact Ensures.pure fun _ hd => ⟨hd.1, fun _ => hd.2⟩
  | some l =>
    dsimp only
    split
    · refine Ensures.before (P := Free text) ?_ fun _ => free_of_behind
      exact Ensures.bind (Honest.truthful truthful_placeable settles_placeable) fun _ =>
        Ensures.bind (Honest.aside (aside_push _)) fun _ => Ensures.pure fun _ hd => hd
    · refine ensures_name.bind fun name => (Aside.keeps (aside_note _)).bind fun _ => ?_
      split
      · exact Ensures.pure fun _ hd => ⟨free_of_behind hd, fun h => by cases h⟩
      · exact (ensures_tag hb name).bind fun _ => Ensures.pure fun _ hd => hd
    · exact Ensures.throw fun _ hd => blames_of_behind hd rfl

include hp

theorem ensures_content (closers : List Keyword) :
    Ensures (Free text) (content levels body closers) (Closed text) (Blames text) :=
  Ensures.loop (descends_piece hp closers) (fun _ => ensures_piece hb closers) none

end Tags

theorem honest_body (n : Nat) (closers : List Keyword) : Honest text (Draft.body n closers) := by
  induction n generalizing closers with
  | zero => exact fun d hd => .tooDeep hd
  | succ n ih =>
    refine (Honest.aside aside_openBody).bind fun _ => ?_
    refine (ensures_content ih (pieceWise_body n) closers).bind fun found => ?_
    cases found with
    | some closing =>
      exact Ensures.before ((Honest.aside (aside_closeBody _)).bind fun _ => .pure _)
        fun _ hd => hd.1
    | none => exact fun d hd => .ended hd.1 (hd.2 rfl) (.inl ⟨closers, rfl⟩)

theorem honest_readAll : Honest text readAll :=
  Ensures.discard ((ensures_content (honest_body _) (pieceWise_body _) []).after fun _ _ hd => hd.1)

end Draft
end TemplateSyntax
