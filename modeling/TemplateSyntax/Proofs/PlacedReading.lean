import TemplateSyntax.Proofs.Placement
import TemplateSyntax.Proofs.Position
import TemplateSyntax.Proofs.Progress

/-!
# Readers stay in the text

Every position that a reader produces is one of the text: a cursor only advances over characters
that stand next, and spans are only made from ends of spans and from places of the cursor. The
readers are gone through one by one; each gives values and faults that are placed in the text if it
is given such.
-/
namespace TemplateSyntax

/-- Where the invariant holds the computation keeps it, and every position in its value or fault has
the property. -/
def Places {σ α : Type} [HasPositions α] (P : Position → Prop) (I : σ → Prop)
    (m : EStateM Fault σ α) : Prop :=
  Ensures I m (fun a s => Everywhere P a ∧ I s) (fun f s => Everywhere P f ∧ I s)

namespace Places
variable {σ α β : Type} [HasPositions α] [HasPositions β] {P : Position → Prop} {I : σ → Prop}

theorem pure {a : α} (h : Everywhere P a) : Places P I (pure a : EStateM Fault σ α) :=
  Ensures.pure fun _ hs => ⟨h, hs⟩

theorem throw {f : Fault} (h : Everywhere P f) : Places P I (throw f : EStateM Fault σ α) :=
  Ensures.throw fun _ hs => ⟨h, hs⟩

theorem bind {m : EStateM Fault σ α} {f : α → EStateM Fault σ β} (hm : Places P I m)
    (hf : ∀ a, Everywhere P a → Places P I (f a)) : Places P I (m >>= f) :=
  Ensures.bind hm fun a => Ensures.given (hf a)

theorem discard {m : EStateM Fault σ α} (hm : Places P I m) :
    Places P I (discard m : EStateM Fault σ PUnit) := hm.bind fun _ _ => pure trivial

theorem loop {size : σ → Nat} {step : β → EStateM Fault σ (ForInStep β)}
    (h : ∀ b, Everywhere P b → Places P I (step b)) {b : β} (hb : Everywhere P b) :
    Places P I (loop size step b) := by
  refine (Ensures.loop_weak (I := fun b s => Everywhere P b ∧ I s) (fun b => ?_) b).before
    fun s hs => ⟨hb, hs⟩
  refine Ensures.given fun hb => (h b hb).after fun r s hr => ?_
  cases r <;> exact hr

end Places

theorem Cursor.everywhere_nextSpan {text : String} {c : Cursor}
    (h : (Cursor.ofText text).Reaches c) (quotes : Bool) :
    Everywhere (Position.IsOf text) (c.nextSpan quotes) :=
  ⟨(h.trans c.reaches_skipBlanks).isOf, (h.trans (c.reaches_behindNext quotes)).isOf⟩

namespace Reader
variable {text : String} {α : Type} [HasPositions α]

/-- The reader stands in the text, and so does the token that was looked at. -/
def Placed (text : String) (r : Reader) : Prop :=
  (Cursor.ofText text).Reaches r.cursor ∧ Everywhere (Position.IsOf text) r

theorem placed_of_reaches {r : Reader} (hc : (Cursor.ofText text).Reaches r.cursor)
    (hp : Everywhere (Position.IsOf text) r.peeked) : r.Placed text := ⟨hc, hc.isOf, hp⟩

/-- A reader of the text that gives values and faults placed in it. -/
abbrev Places (text : String) (m : ReadM α) : Prop :=
  TemplateSyntax.Places (Position.IsOf text) (Placed text) m

theorem places_next : Places text next := by
  rintro r ⟨hc, -, hp⟩
  have hbehind : r.fetched.Placed text :=
    placed_of_reaches (hc.trans (r.cursor.reaches_behindNext true)) hp
  cases h : next r with
  | ok l t =>
    rcases next_eq_ok h with ⟨hl, rfl⟩ | ⟨hl, hr, rfl⟩
    · exact ⟨hp l hl, placed_of_reaches hc everywhere_none⟩
    · obtain ⟨-, hspan, -⟩ := Cursor.next_eq_ok hr
      refine ⟨?_, hbehind⟩
      change Everywhere _ l.span
      rw [hspan]
      exact Cursor.everywhere_nextSpan hc true
  | error f t =>
    obtain ⟨-, hr, rfl⟩ := next_eq_error h
    obtain ⟨-, hspan, -⟩ := Cursor.next_eq_error hr
    refine ⟨?_, hbehind⟩
    change Everywhere _ f.span
    rw [hspan]
    exact Cursor.everywhere_nextSpan hc true

theorem places_peek : Places text peek := by
  intro r hr
  have hn := places_next r hr
  rw [run_peek]
  cases h : next r with
  | ok l t =>
    rw [h] at hn
    exact ⟨hn.1, placed_of_reaches hn.2.1 (everywhere_some hn.1)⟩
  | error f t => rwa [h] at hn

theorem places_atSymbol (s : Symbol) : Places text (atSymbol s) :=
  places_peek.bind fun _ _ => .pure trivial

theorem places_atKeyword (k : Keyword) : Places text (atKeyword k) :=
  places_peek.bind fun _ _ => .pure trivial

theorem places_expectSymbol (s : Symbol) : Places text (expectSymbol s) := by
  refine places_next.bind fun l hl => ?_
  split
  · exact .pure hl
  · exact .throw hl

theorem places_expectKeyword (k : Keyword) : Places text (expectKeyword k) := by
  refine places_next.bind fun l hl => ?_
  split
  · exact .pure hl
  · exact .throw hl

theorem places_expectName : Places text expectName := by
  refine places_next.bind fun l hl => ?_
  split
  · exact .pure hl
  · exact .throw hl

theorem places_variableName : Places text variableName :=
  places_expectName.bind fun _ h => .pure h

theorem places_nextItem {item : ReadM α} (h : Places text item) {found : List α}
    (hfound : Everywhere (Position.IsOf text) found) : Places text (nextItem item found) := by
  refine (places_atSymbol _).bind fun atEnd _ => ?_
  split
  · exact .pure hfound
  · refine h.bind fun x hx => (places_atSymbol _).bind fun atClose _ => ?_
    have hmore := everywhere_append hfound (everywhere_singleton hx)
    split
    · exact .pure hmore
    · exact (places_expectSymbol _).discard.bind fun _ _ => .pure hmore

theorem places_items {item : ReadM α} (h : Places text item) : Places text (items item) :=
  (Places.loop (fun _ => places_nextItem h) everywhere_nil).bind fun _ hfound =>
    (places_expectSymbol _).bind fun _ hclose => .pure ⟨hfound, hclose⟩

end Reader

namespace Expression
variable {text : String} {deeper : Descent}

/-- Both readers of a level give expressions placed in the text. -/
structure Level.Places (text : String) (level : Level) : Prop where
  operand : Reader.Places text level.operand
  operation (stops : List String) (minimum : Nat) :
    Reader.Places text (level.operation stops minimum)

/-- Going down to the next level from a place in the text, and on with readers of that level. -/
def Descent.Places (text : String) (deeper : Descent) : Prop :=
  ∀ (span : Span), Everywhere (Position.IsOf text) span → ∀ {β : Type} [HasPositions β]
    (f : Level → ReadM β), (∀ level : Level, level.Places text → Reader.Places text (f level)) →
      Reader.Places text (deeper span >>= f)

theorem places_stringValue {span : Span} (h : Everywhere (Position.IsOf text) span)
    (raw : String) : Reader.Places text (stringValue raw span) := by
  unfold stringValue
  split
  · exact .throw h
  · split
    · exact .pure (.string h)
    · exact .throw h
    · exact .throw h

theorem places_arguments (hd : deeper.Places text) : Reader.Places text (arguments deeper) :=
  (Reader.places_expectSymbol _).bind fun span hspan =>
    hd span hspan _ fun _ h => Reader.places_items (h.operation _ _)

theorem places_primaryFrom (hd : deeper.Places text) {l : Lexeme}
    (hl : Everywhere (Position.IsOf text) l) :
    Reader.Places text (primaryFrom deeper l) := by
  unfold primaryFrom
  split
  · exact .pure (.number hl)
  · exact places_stringValue hl _
  · exact .pure (.name hl)
  · exact hd l.span hl _ fun level h => (h.operation _ _).bind fun _ hinner =>
      (Reader.places_expectSymbol _).discard.bind fun _ _ => .pure hinner
  · exact .throw hl

theorem places_primary (hd : deeper.Places text) : Reader.Places text (primary deeper) :=
  Reader.places_next.bind fun _ hl => places_primaryFrom hd hl

theorem places_nextSuffix (hd : deeper.Places text) {e : Expression}
    (he : Everywhere (Position.IsOf text) e) :
    Reader.Places text (nextSuffix deeper e) := by
  refine (Reader.places_atSymbol _).bind fun atDot _ => ?_
  split
  · refine Reader.places_next.discard.bind fun _ _ => Reader.places_variableName.bind fun p hp => ?_
    exact .pure (.member he hp (everywhere_combine (everywhere_span he) hp))
  · refine (Reader.places_atSymbol _).bind fun atParen _ => ?_
    split
    · refine (places_arguments hd).bind fun (args, close) ⟨hargs, hclose⟩ => ?_
      exact .pure (.call he hargs (everywhere_combine (everywhere_span he) hclose))
    · exact .pure he

theorem places_term (hd : deeper.Places text) : Reader.Places text (term deeper) :=
  (places_primary hd).bind fun _ he => .loop (fun _ => places_nextSuffix hd) he

theorem places_operand (hd : deeper.Places text) : Reader.Places text (operand deeper) := by
  refine Reader.places_peek.bind fun l hl => ?_
  split
  · exact places_term hd
  · refine Reader.places_next.discard.bind fun _ _ => hd l.span hl _ fun level h => ?_
    refine h.operand.bind fun e he => ?_
    exact .pure (.unary hl he (everywhere_combine hl (everywhere_span he)))

theorem places_nextJoint (hd : deeper.Places text) (stops : List String) (minimum : Nat)
    {left : Expression} (hleft : Everywhere (Position.IsOf text) left) :
    Reader.Places text (nextJoint deeper stops minimum left) := by
  refine Reader.places_peek.bind fun l hl => ?_
  split
  · exact .pure hleft
  · refine Reader.places_next.discard.bind fun _ _ => (places_term hd).bind fun e he => ?_
    exact .pure (.filter hleft he
      (everywhere_combine (everywhere_span hleft) (everywhere_span he)))
  · refine Reader.places_next.discard.bind fun _ _ => hd l.span hl _ fun level h => ?_
    refine (h.operation _ _).bind fun e he => ?_
    exact .pure (.binary hl hleft he
      (everywhere_combine (everywhere_span hleft) (everywhere_span he)))

theorem places_operation (hd : deeper.Places text) (stops : List String) (minimum : Nat) :
    Reader.Places text (operation deeper stops minimum) :=
  (places_operand hd).bind fun _ he => .loop (fun _ => places_nextJoint hd stops minimum) he

theorem places_descend (n : Nat) : (descend n).Places text := by
  induction n with
  | zero =>
    intro span hspan _ _ f _
    rw [descend_zero_bind]
    exact .throw hspan
  | succ n ih =>
    intro span _ _ _ f hf
    rw [descend_succ_bind]
    exact hf _ ⟨places_operand ih, places_operation ih⟩

theorem places_read (n : Nat) (stops : List String) : Reader.Places text (read n stops) :=
  places_operation (places_descend n) stops 0

theorem places_readFilter (n : Nat) : Reader.Places text (readFilter n) :=
  places_term (places_descend n)

end Expression

namespace Draft
variable {text : String} {α : Type} [HasPositions α] {levels : Nat} {body : BodyReader}
  {opening : Span}

/-! ## Parts of tags -/

theorem places_endTag : Reader.Places text endTag := Reader.places_expectSymbol _

theorem places_lastExpression : Reader.Places text (lastExpression levels) :=
  (Expression.places_read _ _).bind fun _ he =>
    places_endTag.discard.bind fun _ _ => .pure he

theorem places_nextName {names : List Variable × Span}
    (h : Everywhere (Position.IsOf text) names) : Reader.Places text (nextName names) := by
  refine (Reader.places_atSymbol _).bind fun atComma _ => ?_
  split
  · refine Reader.places_next.discard.bind fun _ _ => Reader.places_variableName.bind fun v hv => ?_
    exact .pure ⟨everywhere_append h.1 (everywhere_singleton hv), everywhere_combine h.2 hv⟩
  · exact .pure h

theorem places_pattern : Reader.Places text pattern := by
  refine Reader.places_variableName.bind fun first hfirst => ?_
  refine (Reader.places_atSymbol _).bind fun atComma _ => ?_
  split
  · refine Places.bind (.loop (fun _ => places_nextName) ⟨everywhere_singleton hfirst, hfirst⟩)
      fun _ h => .pure h
  · exact .pure hfirst

theorem places_nextFilter {filters : List Expression}
    (h : Everywhere (Position.IsOf text) filters) :
    Reader.Places text (nextFilter levels filters) := by
  refine (Reader.places_atSymbol _).bind fun atBar _ => ?_
  split
  · refine Reader.places_next.discard.bind fun _ _ => ?_
    refine (Expression.places_readFilter _).bind fun e he => ?_
    exact .pure (everywhere_append h (everywhere_singleton he))
  · exact .pure h

theorem places_placeable (ho : Everywhere (Position.IsOf text) opening) :
    Reader.Places text (placeable levels opening) := by
  refine (Expression.places_read _ _).bind fun value hvalue => ?_
  refine Places.bind (.loop (fun _ => places_nextFilter) everywhere_nil) fun filters hfilters => ?_
  refine (Reader.places_expectSymbol _).bind fun close hclose => ?_
  exact .pure (.put hvalue hfilters (everywhere_combine ho hclose))

theorem places_loopCondition : Reader.Places text (loopCondition levels) := by
  refine (Reader.places_atKeyword _).bind fun atIf _ => ?_
  split
  · refine Reader.places_next.discard.bind fun _ _ =>
      (Expression.places_read _ _).bind fun e he => ?_
    exact .pure (everywhere_some he)
  · exact .pure everywhere_none

theorem places_loopHead : Reader.Places text (loopHead levels) := by
  refine places_pattern.bind fun target htarget => ?_
  refine (Reader.places_expectKeyword _).discard.bind fun _ _ => ?_
  refine (Expression.places_read _ _).bind fun iterable hiterable => ?_
  refine places_loopCondition.bind fun condition hcondition => ?_
  exact places_endTag.discard.bind fun _ _ => .pure ⟨htarget, hiterable, hcondition⟩

theorem places_setTag (ho : Everywhere (Position.IsOf text) opening) :
    Reader.Places text (setTag levels opening) := by
  refine places_pattern.bind fun target htarget => ?_
  refine (Reader.places_expectSymbol _).discard.bind fun _ _ => ?_
  refine (Expression.places_read _ _).bind fun value hvalue => ?_
  refine (Reader.places_expectSymbol _).bind fun close hclose => ?_
  exact .pure (.assign htarget hvalue (everywhere_combine ho hclose))

theorem places_callArguments : Reader.Places text (callArguments levels) := by
  refine (Reader.places_atSymbol _).bind fun atParen _ => ?_
  split
  · exact (Expression.places_arguments (Expression.places_descend _)).bind fun _ h => .pure h.1
  · exact .pure everywhere_nil

theorem places_callHead : Reader.Places text (callHead levels) := by
  refine Reader.places_expectName.bind fun name hname => ?_
  refine places_callArguments.bind fun args hargs => ?_
  exact places_endTag.discard.bind fun _ _ => .pure ⟨hname, hargs⟩

theorem places_closingName (name : String) : Reader.Places text (closingName name) := by
  refine Reader.places_peek.bind fun l hl => ?_
  split
  · split
    · exact Reader.places_next.discard
    · exact .throw hl
  · exact .pure trivial

theorem places_blockHead : Reader.Places text blockHead :=
  Reader.places_expectName.bind fun _ hname => places_endTag.discard.bind fun _ _ => .pure hname

theorem places_blockEnd (name : String) : Reader.Places text (blockEnd name) :=
  (places_closingName name).bind fun _ _ => places_endTag

theorem places_parameter : Reader.Places text (parameter levels) := by
  refine Reader.places_expectName.bind fun name hname => ?_
  refine (Reader.places_atSymbol _).bind fun atAssign _ => ?_
  split
  · refine Reader.places_next.discard.bind fun _ _ =>
      (Expression.places_read _ _).bind fun e he => ?_
    have hspan := everywhere_combine hname (Expression.everywhere_span he)
    exact .pure ⟨hname, everywhere_some he, hspan⟩
  · exact .pure ⟨hname, everywhere_none, everywhere_combine hname hname⟩

theorem places_macroHead : Reader.Places text (macroHead levels) := by
  refine Reader.places_expectName.bind fun name hname => ?_
  refine (Reader.places_expectSymbol _).discard.bind fun _ _ => ?_
  refine (Reader.places_items places_parameter).bind fun (parameters, close) h => ?_
  exact places_endTag.discard.bind fun _ _ => .pure ⟨hname, h.1⟩

/-! ## Drafts -/

/-- The draft stands in the text, and so does all that it holds. -/
def Placed (text : String) (d : Draft) : Prop :=
  (Cursor.ofText text).Reaches d.reader.cursor ∧ Everywhere (Position.IsOf text) d

/-- A computation on drafts of the text that gives values and faults placed in it. -/
abbrev Places (text : String) (m : DraftM α) : Prop :=
  TemplateSyntax.Places (Position.IsOf text) (Placed text) m

theorem places_lift {m : ReadM α} (h : Reader.Places text m) :
    Places text (liftM m : DraftM α) := by
  rintro d ⟨hc, hd⟩
  have hm := h d.reader ⟨hc, hd.reader⟩
  rw [run_lift]
  cases hr : m d.reader with
  | ok a r =>
    rw [hr] at hm
    exact ⟨hm.1, hm.2.1, { hd with reader := hm.2.2 }⟩
  | error f r =>
    rw [hr] at hm
    exact ⟨hm.1, hm.2.1, { hd with reader := hm.2.2 }⟩

theorem places_push {s : Statement} (h : Everywhere (Position.IsOf text) s) :
    Places text (push s) := by
  rintro d ⟨hc, hd⟩
  exact ⟨trivial, hc, { hd with current := Scope.everywhere_push hd.current h }⟩

theorem places_note {e : Event} (h : Everywhere (Position.IsOf text) e) : Places text (note e) := by
  rintro d ⟨hc, hd⟩
  exact ⟨trivial, hc, { hd with log := everywhere_append hd.log (everywhere_singleton h) }⟩

theorem places_position : Places text position := fun _ ⟨hc, hd⟩ => ⟨hc.isOf, hc, hd⟩

theorem places_openBody : Places text openBody := by
  rintro d ⟨hc, hd⟩
  refine ⟨trivial, hc, { hd with
    current := Scope.everywhere_opened hc.isOf
    enclosing := everywhere_cons hd.current hd.enclosing }⟩

theorem places_closeBody {stop : Position} (h : stop.IsOf text) : Places text (closeBody stop) := by
  rintro d ⟨hc, hd⟩
  have hclosed := Scope.everywhere_closed hd.current h
  have hopen := hd.enclosing
  rw [closeBody, run_modifyGet]
  cases he : d.enclosing with
  | nil => exact ⟨hclosed, hc, hd⟩
  | cons outer others =>
    rw [he] at hopen
    exact ⟨hclosed, hc, { hd with
      current := hopen outer List.mem_cons_self
      enclosing := fun b hb => hopen b (List.mem_cons_of_mem _ hb) }⟩

theorem places_define {x : Definition} (h : Everywhere (Position.IsOf text) x) :
    Places text (define x) := by
  rintro d ⟨hc, hd⟩
  have hlog : Everywhere (Position.IsOf text)
      (d.log ++ Event.defined x :: if d.holds x then [Event.redefined x] else []) := by
    refine everywhere_append hd.log (everywhere_cons h ?_)
    split
    · exact everywhere_singleton h
    · exact everywhere_nil
  cases x with
  | ofMacro m =>
    exact ⟨trivial, hc, { hd with log := hlog, macros := everywhere_insert hd.macros _ h }⟩
  | ofBlock b =>
    exact ⟨trivial, hc, { hd with log := hlog, blocks := everywhere_insert hd.blocks _ h }⟩

theorem places_setParent {target : Expression} (h : Everywhere (Position.IsOf text) target) :
    Places text (setParent target) := by
  rintro d ⟨hc, hd⟩
  change Everywhere _ (_ : Bool) ∧ Placed text (if d.parent.isSome then (false, d)
    else (true, { d with parent := some target })).2
  split
  · exact ⟨trivial, hc, hd⟩
  · exact ⟨trivial, hc, { hd with parent := everywhere_some h }⟩

theorem placed_behindText {d : Draft} (hd : d.Placed text) : d.behindText.Placed text := by
  obtain ⟨hc, hd⟩ := hd
  have htext := hc.trans d.reader.cursor.reaches_behindText
  refine ⟨htext, { hd with reader := ⟨htext.isOf, hd.reader.2⟩, current := ?_ }⟩
  unfold behindText
  dsimp only
  split
  · exact hd.current
  · exact Scope.everywhere_push hd.current (.text ⟨hc.isOf, htext.isOf⟩)

theorem places_opening : Places text Draft.opening := by
  intro d hd
  have htext := placed_behindText hd
  rw [run_opening]
  split
  · exact ⟨everywhere_none, htext⟩
  · have hnext := Reader.places_next d.behindText.reader ⟨htext.1, htext.2.reader⟩
    cases hr : Reader.next d.behindText.reader with
    | ok l r =>
      rw [hr] at hnext
      exact ⟨everywhere_some hnext.1, hnext.2.1, { htext.2 with reader := hnext.2.2 }⟩
    | error f r =>
      rw [hr] at hnext
      exact ⟨hnext.1, hnext.2.1, { htext.2 with reader := hnext.2.2 }⟩

/-! ## Tags and bodies -/

/-- A reader of bodies gives bodies placed in the text, whatever words close them. -/
def BodyReader.Places (text : String) (body : BodyReader) : Prop :=
  ∀ closers, Draft.Places text (body closers)

theorem places_nextArm (hb : body.Places text) {b : List (Arm Statement) × Closing}
    (h : Everywhere (Position.IsOf text) b) : Places text (nextArm levels body b) := by
  obtain ⟨arms, closing⟩ := b
  obtain ⟨harms, hclosing⟩ := h
  unfold nextArm
  dsimp only
  split
  · refine (places_lift places_lastExpression).bind fun condition hcondition => ?_
    refine (hb _).bind fun (scope, next) ⟨hscope, hnext⟩ => ?_
    refine .pure ⟨everywhere_append harms (everywhere_singleton ?_), hnext⟩
    exact ⟨hcondition, hscope.2.1, hclosing.1.1, hnext.2.2⟩
  · exact .pure ⟨harms, hclosing⟩

theorem places_ifTag (hb : body.Places text) (ho : Everywhere (Position.IsOf text) opening) :
    Places text (ifTag levels body opening) := by
  refine (places_lift places_lastExpression).bind fun condition hcondition => ?_
  refine (hb _).bind fun (first, closing) ⟨hfirst, hclosing⟩ => ?_
  have harm : Everywhere (Position.IsOf text)
      (⟨condition, first.body, ⟨opening.start, closing.span.stop⟩⟩ : Arm Statement) :=
    ⟨hcondition, hfirst.2.1, ho.1, hclosing.2.2⟩
  refine Places.bind (.loop (fun _ => places_nextArm hb) ⟨everywhere_singleton harm, hclosing⟩)
    fun (arms, closing) ⟨harms, hclosing⟩ => ?_
  dsimp only
  split
  · refine (places_lift places_endTag).discard.bind fun _ _ => ?_
    refine (hb _).bind fun (scope, last) ⟨hscope, hlast⟩ => ?_
    refine (places_lift places_endTag).discard.bind fun _ _ => ?_
    refine .pure (Statement.everywhere_cases (everywhere_append harms (everywhere_singleton ?_))
      ⟨ho.1, hlast.2.2⟩)
    exact ⟨.boolean (everywhere_empty hclosing.1.1), hscope.2.1, hclosing.1.1, hlast.2.2⟩
  · refine (places_lift places_endTag).discard.bind fun _ _ => ?_
    exact .pure (Statement.everywhere_cases harms ⟨ho.1, hclosing.2.2⟩)

theorem places_forTag (hb : body.Places text) (ho : Everywhere (Position.IsOf text) opening) :
    Places text (forTag levels body opening) := by
  refine (places_lift places_loopHead).bind
    fun (target, iterable, condition) ⟨htarget, hiterable, hcondition⟩ => ?_
  refine (hb _).bind fun (main, closing) ⟨hmain, hclosing⟩ => ?_
  dsimp only
  split
  · refine (places_lift places_endTag).discard.bind fun _ _ => ?_
    refine (hb _).bind fun (alternative, last) ⟨halternative, hlast⟩ => ?_
    refine (places_lift places_endTag).discard.bind fun _ _ => ?_
    refine .pure (.loop htarget hiterable hcondition hmain.1 hmain.2.1 hmain.2.2 ?_
      ⟨ho.1, hlast.2.2⟩)
    exact everywhere_some (α := List Statement) halternative.2.1
  · refine (places_lift places_endTag).discard.bind fun _ _ => ?_
    refine .pure (.loop htarget hiterable hcondition hmain.1 hmain.2.1 hmain.2.2 ?_
      ⟨ho.1, hclosing.2.2⟩)
    exact everywhere_none (α := List Statement)

theorem places_callTag (hb : body.Places text) (ho : Everywhere (Position.IsOf text) opening) :
    Places text (callTag levels body opening) := by
  refine (places_lift places_callHead).bind fun (name, args) ⟨hname, hargs⟩ => ?_
  refine (hb _).bind fun (scope, closing) ⟨hscope, hclosing⟩ => ?_
  refine (places_lift places_endTag).discard.bind fun _ _ => ?_
  exact .pure (.macroCall hname hargs hscope.1 hscope.2.1 hscope.2.2 ⟨ho.1, hclosing.2.2⟩)

theorem places_filterTag (hb : body.Places text) (ho : Everywhere (Position.IsOf text) opening) :
    Places text (filterTag levels body opening) := by
  refine (places_lift places_lastExpression).bind fun filter hfilter => ?_
  refine (hb _).bind fun (scope, closing) ⟨hscope, hclosing⟩ => ?_
  refine (places_lift places_endTag).discard.bind fun _ _ => ?_
  exact .pure (.filterBlock hfilter hscope.1 hscope.2.1 hscope.2.2 ⟨ho.1, hclosing.2.2⟩)

theorem places_blockTag (hb : body.Places text) (ho : Everywhere (Position.IsOf text) opening) :
    Places text (blockTag body opening) := by
  refine (places_lift places_blockHead).bind fun name hname => ?_
  refine (hb _).bind fun (scope, _) ⟨hscope, _⟩ => ?_
  refine (places_lift (places_blockEnd _)).bind fun close hclose => ?_
  have hspan := everywhere_combine ho hclose
  refine Places.bind (α := PUnit) (places_define ⟨hname, hscope, hspan⟩) fun _ _ => ?_
  exact .pure (.blockCall hname hspan)

theorem places_macroTag (hb : body.Places text) (ho : Everywhere (Position.IsOf text) opening) :
    Places text (macroTag levels body opening) := by
  refine (places_lift places_macroHead).bind fun (name, parameters) ⟨hname, hparameters⟩ => ?_
  refine (hb _).bind fun (scope, closing) ⟨hscope, hclosing⟩ => ?_
  refine (places_lift places_endTag).discard.bind fun _ _ => ?_
  exact places_define ⟨hname, hparameters, hscope, ho.1, hclosing.2.2⟩

theorem places_extendsTag : Places text (extendsTag levels) := by
  refine (places_lift places_lastExpression).bind fun target htarget => ?_
  refine (places_setParent htarget).bind fun isFirst _ => ?_
  split
  · exact .pure trivial
  · exact .throw (Expression.everywhere_span htarget)

theorem places_tag (hb : body.Places text) (ho : Everywhere (Position.IsOf text) opening)
    {name : Identifier} (hname : Everywhere (Position.IsOf text) name) :
    Places text (tag levels body opening name) := by
  unfold tag
  split
  · exact (places_ifTag hb ho).bind fun _ h => places_push h
  · exact (places_forTag hb ho).bind fun _ h => places_push h
  · exact (places_lift (places_setTag ho)).bind fun _ h => places_push h
  · exact (places_callTag hb ho).bind fun _ h => places_push h
  · exact (places_filterTag hb ho).bind fun _ h => places_push h
  · exact (places_blockTag hb ho).bind fun _ h => places_push h
  · exact places_macroTag hb ho
  · exact places_extendsTag
  · exact .throw hname

theorem places_piece (hb : body.Places text) (closers : List Keyword) :
    Places text (piece levels body closers) := by
  refine places_opening.bind fun found hfound => ?_
  split
  · exact .pure everywhere_none
  · next l =>
    have hl : Everywhere (Position.IsOf text) l := hfound l rfl
    split
    · refine (places_lift (places_placeable hl)).bind fun s hs => ?_
      exact Places.bind (α := PUnit) (places_push hs) fun _ _ => .pure everywhere_none
    · refine (places_lift Reader.places_expectName).bind fun name hname => ?_
      refine Places.bind (α := PUnit) (places_note hname) fun _ _ => ?_
      split
      · exact .pure (everywhere_some ⟨hl, hname⟩)
      · exact Places.bind (α := PUnit) (places_tag hb hl hname) fun _ _ => .pure everywhere_none
    · exact .throw hl

theorem places_content (hb : body.Places text) (closers : List Keyword) :
    Places text (content levels body closers) :=
  .loop (fun _ _ => places_piece hb closers) everywhere_none

theorem places_body (n : Nat) : (Draft.body n).Places text := by
  induction n with
  | zero => exact fun _ => places_position.bind fun _ h => .throw (everywhere_empty h)
  | succ n ih =>
    intro closers
    refine Places.bind (α := PUnit) places_openBody fun _ _ => ?_
    refine (places_content ih closers).bind fun found hfound => ?_
    split
    · next closing =>
      have hclosing : Everywhere (Position.IsOf text) closing := hfound closing rfl
      exact (places_closeBody hclosing.1.1).bind fun _ h => .pure ⟨h, hclosing⟩
    · exact places_position.bind fun _ h => .throw (everywhere_empty h)

theorem places_readAll : Places text readAll :=
  (places_content (places_body _) []).discard

end Draft
end TemplateSyntax
