import TemplateSyntax.Proofs.DraftLanding
import TemplateSyntax.Proofs.MovedReading

/-!
# Reading the same bodies at another place

Drafts read on in a setting: bodies that are open around them, statements that stand before them,
definitions that are kept already. A draft with such a setting reads at the shifted place what a
draft without it reads, and adds the same to the setting, with all positions shifted.
-/
namespace TemplateSyntax.Draft
open Reader

/-- What two drafts start with. All that they hold is what they start with and what they have read,
and the definitions of the second one are read over those that it starts with. -/
structure Setting where
  first : Body
  first' : Body
  outer : List Body
  outer' : List Body
  macros : Table Macro
  blocks : Table Block

/-- The second draft has read at the shifted place what the first has read. -/
structure Shifted (p : Position) (k : Setting) (d d' : Draft) : Prop where
  reader : d.reader.Shifted p d'.reader
  current : ∃ ss : List Statement,
    d.current = { k.first with body := k.first.body ++ ss } ∧
      d'.current = { k.first' with body := k.first'.body ++ move p.shift ss }
  enclosing : d.enclosing = k.outer
  enclosing' : d'.enclosing = k.outer'
  macros (name : String) :
    d'.macros.find? name = (move p.shift (d.macros.find? name)).or (k.macros.find? name)
  blocks (name : String) :
    d'.blocks.find? name = (move p.shift (d.blocks.find? name)).or (k.blocks.find? name)
  parent : d'.parent = move p.shift d.parent

/-- The second computation reads at the shifted place what the first one reads. -/
abbrev Mirrors (p : Position) (k : Setting) {α : Type} [Movable α] (m m' : DraftM α) : Prop :=
  Moves p.shift (Shifted p k) m m'

section Steps
variable {p : Position} {k : Setting} {α β : Type} [Movable α] [Movable β] {d d' : Draft}

theorem Shifted.push (h : Shifted p k d d') (s : Statement) :
    Shifted p k { d with current := d.current.push s }
      { d' with current := d'.current.push (move p.shift s) } := by
  obtain ⟨ss, hss, hss'⟩ := h.current
  refine { h with current := ⟨ss ++ [s], ?_, ?_⟩ }
  · simp only [hss, Scope.push, List.append_assoc]
  · simp only [hss', Scope.push, List.append_assoc, move_concat]

theorem Shifted.behindText (h : Shifted p k d d') : Shifted p k d.behindText d'.behindText := by
  have hread : Shifted p k
      { d with reader := { d.reader with cursor := d.reader.cursor.behindText } }
      { d' with reader := { d'.reader with cursor := d'.reader.cursor.behindText } } :=
    { h with reader := ⟨h.reader.cursor.behindText, h.reader.peeked⟩ }
  unfold Draft.behindText
  rw [h.reader.cursor.rest_eq, h.reader.cursor.behindText.2, h.reader.cursor.2]
  dsimp only
  rw [h.reader.cursor.behindText.2] at hread
  split
  · exact hread
  · exact hread.push (.text _ ⟨d.reader.cursor.position, d.reader.cursor.behindText.position⟩)

theorem mirrors_lift {m m' : ReadM α} (h : Reader.Mirrors p m m') :
    Mirrors p k (liftM m) (liftM m') := by
  intro d d' hd
  have hr := h d.reader d'.reader hd.reader
  rw [run_lift, run_lift]
  generalize m d.reader = x, m' d'.reader = x' at hr
  cases hr with
  | ok a ht => exact .ok a { hd with reader := ht }
  | error e t t' => exact .error e _ _

theorem mirrors_opening : Mirrors p k opening opening := by
  intro d d' hd
  have htext := hd.behindText
  have hnext := Reader.mirrors_next (p := p) _ _ htext.reader
  have hend : d'.reader.cursor.behindText.atEnd = d.reader.cursor.behindText.atEnd := by
    rw [Cursor.atEnd, Cursor.atEnd, hd.reader.cursor.behindText.rest_eq]
  rw [run_opening, run_opening, hend]
  split
  · exact .ok (none : Option Lexeme) htext
  · generalize Reader.next d.behindText.reader = x, Reader.next d'.behindText.reader = x' at hnext
    cases hnext with
    | ok l ht => exact .ok (some l) { htext with reader := ht }
    | error e t t' => exact .error e _ _

theorem mirrors_loop {step step' : β → DraftM (ForInStep β)}
    (h : ∀ b, Mirrors p k (step b) (step' (move p.shift b))) (b : β) :
    Mirrors p k (loop Draft.size step b) (loop Draft.size step' (move p.shift b)) :=
  Moves.loop (fun _ _ h => h.reader.size_eq) h b

theorem mirrors_position : Mirrors p k position position := by
  intro d d' hd
  have hposition : d'.reader.cursor.position = p.shift d.reader.cursor.position := by
    rw [hd.reader.cursor.2]
  change MovedEnd p.shift _ (.ok d.reader.cursor.position d) (.ok d'.reader.cursor.position d')
  rw [hposition]
  exact .ok d.reader.cursor.position hd

theorem mirrors_note (e e' : Event) : Mirrors p k (note e) (note e') :=
  fun _ _ hd => .ok PUnit.unit { hd with }

theorem mirrors_push (s : Statement) : Mirrors p k (push s) (push (move p.shift s)) :=
  fun _ _ hd => .ok PUnit.unit (hd.push s)

/-- A table that is read over another one stays so when a definition is added to both. -/
theorem find?_insert_shifted {t t' under : Table α} {key : String} {a : α}
    (h : ∀ name, t'.find? name = (move p.shift (t.find? name)).or (under.find? name))
    (name : String) :
    (t'.insert key (move p.shift a)).find? name =
      (move p.shift ((t.insert key a).find? name)).or (under.find? name) := by
  rw [Table.find?_insert, Table.find?_insert]
  split
  · rfl
  · exact h name

theorem mirrors_define (x : Definition) : Mirrors p k (define x) (define (move p.shift x)) := by
  intro d d' hd
  cases x with
  | ofMacro m => exact .ok PUnit.unit { hd with macros := find?_insert_shifted hd.macros }
  | ofBlock b => exact .ok PUnit.unit { hd with blocks := find?_insert_shifted hd.blocks }

theorem mirrors_setParent (e : Expression) :
    Mirrors p k (setParent e) (setParent (move p.shift e)) := by
  intro d d' hd
  have hsome : d'.parent.isSome = d.parent.isSome := by
    rw [hd.parent]
    cases d.parent <;> rfl
  rw [run_setParent, run_setParent, hsome]
  split
  · exact .ok false hd
  · exact .ok true { hd with parent := rfl }

end Steps

/-! ## Tags -/

/-- The reader reads the same at the shifted place, whatever it is read in. -/
def BodyReader.Mirrors (p : Position) (body : BodyReader) : Prop :=
  ∀ k closers, Draft.Mirrors p k (body closers) (body closers)

section Tags
variable {p : Position} {k : Setting} {n : Nat} {body : BodyReader} {opening : Span}

/-- The last thing that is read of a tag is its end. -/
theorem mirrors_end {α : Type} [Movable α] {a a' : α} (h : a' = move p.shift a) :
    Mirrors p k (do discard (liftM endTag : DraftM Span); return a)
      (do discard (liftM endTag : DraftM Span); return a') :=
  (mirrors_lift mirrors_endTag).discard.bind fun _ => .value h

theorem mirrors_nextArm (hb : body.Mirrors p) (x : List (Arm Statement) × Closing) :
    Mirrors p k (nextArm n body x) (nextArm n body (move p.shift x)) := by
  obtain ⟨arms, closing⟩ := x
  refine .ite Iff.rfl ?_ (.pure (ForInStep.done (arms, closing)))
  refine (mirrors_lift mirrors_lastExpression).bind fun condition =>
    (hb k armClosers).bind fun (scope, next) => .value ?_
  exact congrArg (fun x => ForInStep.yield (x, move p.shift next)) (move_concat p.shift arms
    ⟨condition, scope.body, ⟨closing.opening.start, next.span.stop⟩⟩).symm

theorem mirrors_ifTag (hb : body.Mirrors p) :
    Mirrors p k (ifTag n body opening) (ifTag n body (move p.shift opening)) := by
  refine (mirrors_lift mirrors_lastExpression).bind fun condition =>
    (hb k armClosers).bind fun (first, closing) => ?_
  refine (mirrors_loop (mirrors_nextArm hb)
    ([⟨condition, first.body, ⟨opening.start, closing.span.stop⟩⟩], closing)).bind
    fun (arms, closing) => .ite Iff.rfl ?_ (mirrors_end
      (Statement.move_cases p.shift arms ⟨opening.start, closing.span.stop⟩).symm)
  refine (mirrors_lift mirrors_endTag).discard.bind fun _ => (hb k [.endIf]).bind
    fun (scope, last) => mirrors_end ?_
  have harms := move_concat p.shift arms ⟨.boolean true (.empty closing.opening.start), scope.body,
    ⟨closing.opening.start, last.span.stop⟩⟩
  rw [Statement.move_cases]
  exact congrArg (fun x => Statement.cases x ⟨_, _⟩) harms.symm

theorem mirrors_forTag (hb : body.Mirrors p) :
    Mirrors p k (forTag n body opening) (forTag n body (move p.shift opening)) := by
  refine (mirrors_lift mirrors_loopHead).bind fun (target, iterable, condition) =>
    (hb k [.elseWord, .endFor]).bind fun (main, closing) =>
    .ite Iff.rfl ?_ (mirrors_end ?_)
  · exact (mirrors_lift mirrors_endTag).discard.bind fun _ => (hb k [.endFor]).bind
      fun (alternative, last) => mirrors_end (Statement.move_loop p.shift target iterable condition
        main (some alternative.body) ⟨opening.start, last.span.stop⟩).symm
  · exact (Statement.move_loop p.shift target iterable condition main none
      ⟨opening.start, closing.span.stop⟩).symm

theorem mirrors_callTag (hb : body.Mirrors p) :
    Mirrors p k (callTag n body opening) (callTag n body (move p.shift opening)) :=
  (mirrors_lift mirrors_callHead).bind fun (name, args) => (hb k [.endCall]).bind
    fun (scope, closing) => mirrors_end (Statement.move_macroCall p.shift name args scope
      ⟨opening.start, closing.span.stop⟩).symm

theorem mirrors_filterTag (hb : body.Mirrors p) :
    Mirrors p k (filterTag n body opening) (filterTag n body (move p.shift opening)) :=
  (mirrors_lift mirrors_lastExpression).bind fun filter => (hb k [.endFilter]).bind
    fun (scope, closing) => mirrors_end (Statement.move_filterBlock p.shift filter scope
      ⟨opening.start, closing.span.stop⟩).symm

theorem mirrors_blockTag (hb : body.Mirrors p) :
    Mirrors p k (blockTag body opening) (blockTag body (move p.shift opening)) := by
  refine (mirrors_lift mirrors_blockHead).bind fun name => (hb k [.endBlock]).bind
    fun (scope, _) => (mirrors_lift (mirrors_blockEnd name.value)).bind fun close => ?_
  have hspan := Span.move_combine p opening close
  have hdefine := mirrors_define (p := p) (k := k) (.ofBlock ⟨name, scope, opening.combine close⟩)
  have hcall : Statement.blockCall (move p.shift name)
      ((move p.shift opening).combine (move p.shift close)) =
        move p.shift (Statement.blockCall name (opening.combine close)) :=
    congrArg (Statement.blockCall _) hspan.symm
  refine Moves.bind ?_ fun _ => .value hcall
  have hmoved : (Definition.ofBlock ⟨move p.shift name, move p.shift scope,
      (move p.shift opening).combine (move p.shift close)⟩) =
        move p.shift (Definition.ofBlock ⟨name, scope, opening.combine close⟩) :=
    congrArg (fun s => Definition.ofBlock ⟨_, _, s⟩) hspan.symm
  exact hmoved ▸ hdefine

theorem mirrors_macroTag (hb : body.Mirrors p) :
    Mirrors p k (macroTag n body opening) (macroTag n body (move p.shift opening)) :=
  (mirrors_lift mirrors_macroHead).bind fun (name, parameters) => (hb k [.endMacro]).bind
    fun (scope, closing) => (mirrors_lift mirrors_endTag).discard.bind fun _ =>
    mirrors_define (.ofMacro ⟨name, parameters, scope, ⟨opening.start, closing.span.stop⟩⟩)

theorem mirrors_extendsTag : Mirrors p k (extendsTag n) (extendsTag n) := by
  refine (mirrors_lift mirrors_lastExpression).bind fun target =>
    (mirrors_setParent target).bind fun set => .ite Iff.rfl (.pure PUnit.unit) ?_
  rw [Expression.span_move]
  exact .throw ⟨.secondParent, target.span⟩

theorem mirrors_tag (hb : body.Mirrors p) (name : Identifier) :
    Mirrors p k (tag n body opening name)
      (tag n body (move p.shift opening) (move p.shift name)) := by
  have hname : (move p.shift name).value = name.value := rfl
  unfold tag
  rw [hname]
  split
  · exact (mirrors_ifTag hb).bind mirrors_push
  · exact (mirrors_forTag hb).bind mirrors_push
  · exact (mirrors_lift mirrors_setTag).bind mirrors_push
  · exact (mirrors_callTag hb).bind mirrors_push
  · exact (mirrors_filterTag hb).bind mirrors_push
  · exact (mirrors_blockTag hb).bind mirrors_push
  · exact mirrors_macroTag hb
  · exact mirrors_extendsTag
  · exact .throw ⟨.unknownTag name.value, name.span⟩

/-! ## Bodies -/

theorem mirrors_piece (hb : body.Mirrors p) (closers : List Keyword) :
    Mirrors p k (piece n body closers) (piece n body closers) := by
  refine mirrors_opening.bind fun found => ?_
  cases found with
  | none => exact .pure (ForInStep.done (none : Option Closing))
  | some l =>
    obtain ⟨token, span⟩ := l
    have hgo : Mirrors p k (pure (.yield none) : DraftM (ForInStep (Option Closing)))
        (pure (.yield none)) := .pure (ForInStep.yield (none : Option Closing))
    have hthrow : Mirrors p k
        (throw (.unexpected .opening ⟨token, span⟩) : DraftM (ForInStep (Option Closing)))
        (throw (.unexpected .opening (move p.shift ⟨token, span⟩))) := .throw _
    cases token with
    | symbol s =>
      cases s with
      | beginPut =>
        exact (mirrors_lift mirrors_placeable).bind fun x => (mirrors_push x).bind fun _ => hgo
      | beginTag =>
        refine (mirrors_lift mirrors_expectName).bind fun name =>
          (mirrors_note _ _).bind fun _ => ?_
        have hname : (move p.shift name).value = name.value := rfl
        rw [hname]
        cases closers.find? (·.spelling = name.value) with
        | some keyword => exact .pure (ForInStep.done (some (⟨keyword, span, name.span⟩ : Closing)))
        | none => exact (mirrors_tag hb name).bind fun _ => hgo
      | _ => exact hthrow
    | _ => exact hthrow

theorem mirrors_content (hb : body.Mirrors p) (closers : List Keyword) :
    Mirrors p k (content n body closers) (content n body closers) :=
  mirrors_loop (fun _ => mirrors_piece hb closers) (none : Option Closing)

/-- The draft with one more open body. -/
def opened (d : Draft) : Draft :=
  { d with current := .opened d.reader.cursor.position, enclosing := d.current :: d.enclosing }

/-- What two drafts start with when they open a body. -/
def Setting.opened (k : Setting) (d d' : Draft) : Setting :=
  { k with
    first := d.opened.current
    first' := d'.opened.current
    outer := d.opened.enclosing
    outer' := d'.opened.enclosing }

theorem Shifted.opened {d d' : Draft} (h : Shifted p k d d') :
    Shifted p (k.opened d d') d.opened d'.opened :=
  { h with
    current := ⟨[], (List.append_nil _).symm ▸ rfl, (List.append_nil _).symm ▸ rfl⟩
    enclosing := rfl
    enclosing' := rfl }

/-- A body that both drafts have opened is closed alike, and they are where they were before. -/
theorem Shifted.closeBody {d d' t t' : Draft} (h : Shifted p k d d')
    (ht : Shifted p (k.opened d d') t t') (stop : Position) :
    MovedEnd p.shift (Shifted p k) (closeBody stop t) (closeBody (p.shift stop) t') := by
  obtain ⟨ss, hss, hss'⟩ := ht.current
  have hbody : t'.current.closed (p.shift stop) = move p.shift (t.current.closed stop) := by
    rw [hss, hss']
    simp only [Setting.opened, Draft.opened, h.reader.cursor.2]
    rfl
  rw [Draft.closeBody, Draft.closeBody, run_modifyGet, run_modifyGet, ht.enclosing, ht.enclosing',
    hbody]
  exact .ok (t.current.closed stop)
    { ht with current := h.current, enclosing := h.enclosing, enclosing' := h.enclosing' }

/-- A body is read in a setting of its own. -/
theorem mirrors_body (n : Nat) : (Draft.body n).Mirrors p := by
  induction n with
  | zero => exact fun k closers => mirrors_position.bind fun q => .throw ⟨.tooDeep, .empty q⟩
  | succ n ih =>
    intro k closers d d' hd
    have hcontent := mirrors_content (n := n) ih closers _ _ hd.opened
    have hopen (d : Draft) : openBody d = .ok () d.opened := rfl
    rw [Draft.body, run_bind_ok (hopen d), run_bind_ok (hopen d'), run_bind, run_bind]
    generalize content n (Draft.body n) closers d.opened = x,
      content n (Draft.body n) closers d'.opened = x' at hcontent
    cases hcontent with
    | error e t t' => exact .error e t t'
    | @ok found t t' ht =>
      cases found with
      | none =>
        have hposition : t'.reader.cursor.position = p.shift t.reader.cursor.position := by
          rw [ht.reader.cursor.2]
        change MovedEnd _ _ (.error ⟨.unclosedBody closers, .empty t.reader.cursor.position⟩ t)
          (.error ⟨.unclosedBody closers, .empty t'.reader.cursor.position⟩ t')
        rw [hposition]
        exact .error ⟨.unclosedBody closers, .empty t.reader.cursor.position⟩ t t'
      | some closing =>
        have hclose := hd.closeBody ht closing.opening.start
        change MovedEnd _ _ ((closeBody closing.opening.start >>= fun b => pure (b, closing)) t)
          ((closeBody (p.shift closing.opening.start) >>= fun b =>
            pure (b, move p.shift closing)) t')
        rw [run_bind, run_bind]
        generalize closeBody closing.opening.start t = y,
          closeBody (p.shift closing.opening.start) t' = y' at hclose
        cases hclose with
        | ok scope hu => exact .ok (scope, closing) hu
        | error e u u' => exact .error e u u'

end Tags
end TemplateSyntax.Draft
