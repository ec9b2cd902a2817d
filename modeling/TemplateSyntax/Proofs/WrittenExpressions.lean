import TemplateSyntax.Proofs.NestingDepth
import TemplateSyntax.Proofs.OrderedReading

/-!
# The expressions that are read

Not every tree of an expression is one that is read: truth values cannot be written, `not` never
stands between two operands, and no operator but a minus and `not` stands before one. Where a bar
ends the expression, as in a placeable, a filter is read only between parentheses, so a parenthesis
opens before it.
-/
namespace TemplateSyntax

namespace Expression

/-- An expression as the readers put it together. -/
inductive Written : Expression → Prop
  | name (v : Variable) : Written (.name v)
  | number (n : Number) (span : Span) : Written (.number n span)
  | string (value : String) (span : Span) : Written (.string value span)
  | member {object : Expression} (h : Written object) (property : Variable) (span : Span) :
    Written (.member object property span)
  | call {function : Expression} {args : List Expression} (h : Written function)
    (hargs : ∀ a ∈ args, Written a) (span : Span) : Written (.call function args span)
  | binary {op : WrittenOperator} {left right : Expression} (hop : op.value ≠ .not)
    (hl : Written left) (hr : Written right) (span : Span) : Written (.binary op left right span)
  | unary {op : WrittenOperator} {argument : Expression}
    (hop : op.value = .subtract ∨ op.value = .not) (h : Written argument) (span : Span) :
    Written (.unary op argument span)
  | filter {value filter : Expression} (h : Written value) (hf : Written filter) (span : Span) :
    Written (.filter value filter span)

/-- The expression is a value that is passed through a filter. -/
def IsFilter : Expression → Prop
  | .filter .. => True
  | _ => False

/-! ## What is read -/

section Readers
variable {deeper : Descent}

/-- Both readers of a level give written expressions. -/
structure Level.Writes (level : Level) : Prop where
  operand : Reader.Gives level.operand Written
  operation (stops : List String) (minimum : Nat) :
    Reader.Gives (level.operation stops minimum) Written

/-- The readers of the next level give written expressions. -/
def Descent.Writes (deeper : Descent) : Prop := ∀ span, Reader.Gives (deeper span) Level.Writes

theorem writes_stringValue (raw : String) (span : Span) :
    Reader.Gives (stringValue raw span) Written := by
  unfold stringValue
  split
  · exact .throw _
  · split
    · exact .pure (.string _ _)
    · exact .throw _
    · exact .throw _

theorem writes_arguments (hd : deeper.Writes) :
    Reader.Gives (arguments deeper) fun r => ∀ a ∈ r.1, Written a :=
  Reader.gives_behind fun opening => (hd opening).bind fun _ h =>
    Reader.gives_items (h.operation _ _)

theorem writes_primary (hd : deeper.Writes) : Reader.Gives (primary deeper) Written := by
  refine Reader.gives_behind fun l => ?_
  unfold primaryFrom
  split
  · exact .pure (.number _ _)
  · exact writes_stringValue _ _
  · exact .pure (.name _)
  · refine (hd l.span).bind fun level h => (h.operation _ _).bind fun inner hi => ?_
    exact Reader.gives_behind fun _ => .pure hi
  · exact .throw _

theorem writes_nextSuffix (hd : deeper.Writes) {e : Expression} (he : Written e) :
    Reader.Gives (nextSuffix deeper e) (HandsOn Written) := by
  refine Reader.gives_behind fun atDot => ?_
  split
  · refine Reader.gives_behind fun _ => Reader.gives_behind fun property => ?_
    exact .pure (he.member _ _)
  · refine Reader.gives_behind fun atParen => ?_
    split
    · exact (writes_arguments hd).bind fun _ hargs => .pure (he.call hargs _)
    · exact .pure he

theorem writes_term (hd : deeper.Writes) : Reader.Gives (term deeper) Written :=
  (writes_primary hd).bind fun _ he => .loop (fun _ => writes_nextSuffix hd) he

theorem eq_of_sign? {t : Token} {op : Operator} (h : sign? t = some op) :
    op = .subtract ∨ op = .not := by
  unfold sign? at h
  split at h
  · exact .inl (Option.some.inj h).symm
  · split at h
    · exact .inr (Option.some.inj h).symm
    · cases h
  · cases h

theorem writes_operand (hd : deeper.Writes) : Reader.Gives (operand deeper) Written := by
  refine Reader.gives_behind fun l => ?_
  split
  · exact writes_term hd
  · next op hop =>
    refine Reader.gives_behind fun _ => (hd l.span).bind fun level h => ?_
    exact h.operand.bind fun argument ha => .pure (.unary (eq_of_sign? hop) ha _)

theorem writes_nextJoint (hd : deeper.Writes) (stops : List String) (minimum : Nat)
    {left : Expression} (hl : Written left) :
    Reader.Gives (nextJoint deeper stops minimum left) (HandsOn Written) := by
  refine Reader.gives_behind fun l => ?_
  split
  · exact .pure hl
  · refine Reader.gives_behind fun _ => (writes_term hd).bind fun filter hf => ?_
    exact .pure (hl.filter hf _)
  · next op binding hj =>
    have hop : op ≠ .not := by
      obtain ⟨-, -, hbinding, -⟩ := joint?_eq_some_iff.mp hj
      rintro rfl
      cases hbinding
    refine Reader.gives_behind fun _ => (hd l.span).bind fun level h => ?_
    exact (h.operation _ _).bind fun right hr => .pure (.binary hop hl hr _)

theorem writes_operation (hd : deeper.Writes) (stops : List String) (minimum : Nat) :
    Reader.Gives (operation deeper stops minimum) Written :=
  (writes_operand hd).bind fun _ he => .loop (fun _ => writes_nextJoint hd stops minimum) he

theorem writes_descend (levels : Nat) : (descend levels).Writes := by
  induction levels with
  | zero => exact fun span => .throw _
  | succ n ih => exact fun span => .pure ⟨writes_operand ih, writes_operation ih⟩

theorem writes_read (levels : Nat) (stops : List String) :
    Reader.Gives (read levels stops) Written := writes_operation (writes_descend levels) stops 0

theorem writes_readFilter (levels : Nat) : Reader.Gives (readFilter levels) Written :=
  writes_term (writes_descend levels)

end Readers

/-! ## Filters before a bar -/

section Filters
open Reader
variable {n : Nat} {c d : Cursor} {stops : List String} {minimum : Nat} {e : Expression}

/-- If the expression is a filter, then a parenthesis is read at the cursor, and the expression
begins behind it. -/
def InParens (c : Cursor) (e : Expression) : Prop :=
  e.IsFilter → ∃ d, c.ReadsSymbol .openParen d ∧ d.position.offset ≤ e.span.start.offset

theorem inParens_of_not_isFilter (h : ¬ e.IsFilter) : e.InParens c := fun hf => absurd hf h

theorem inParens_primary (c : Cursor) :
    Lands (primary (descend n)) c fun e _ => e.InParens c := by
  refine Lands.next.bind fun l d hl => ?_
  unfold primaryFrom
  split
  · exact Lands.pure (inParens_of_not_isFilter id)
  · unfold stringValue
    split
    · exact Lands.throw _
    · split
      · exact Lands.pure (inParens_of_not_isFilter id)
      · exact Lands.throw _
      · exact Lands.throw _
  · exact Lands.pure (inParens_of_not_isFilter id)
  · next ht =>
    rw [ht] at hl
    refine lands_descend fun m _ => ((inOrder m).operation _ _ d).bind fun inner e he => ?_
    refine (Lands.expectSymbol .closeParen).discard.bind fun _ f _ => Lands.pure fun _ => ?_
    exact ⟨d, hl, he.2.2.1⟩
  · exact Lands.throw _

theorem inParens_term (c : Cursor) : Lands (term (descend n)) c fun e _ => e.InParens c := by
  refine (inParens_primary c).bind fun e d hd => ?_
  refine Lands.loop (descends_nextSuffix (tokenWise_descend n)) (I := fun e _ => e.InParens c)
    (fun e d hd => ?_) hd
  -- What a suffix is added to is no filter any more.
  refine Lands.atSymbol_bind (fun f hf => ?_) fun _ => Lands.atSymbol_bind (fun _ _ => ?_) ?_
  · exact Lands.skip hf (Lands.variableName.bind fun _ _ _ =>
      Lands.pure (inParens_of_not_isFilter id))
  · exact (row_arguments (fun m _ => inOrder m) d).bind fun _ _ _ =>
      Lands.pure (inParens_of_not_isFilter id)
  · exact fun _ => Lands.pure hd

theorem inParens_operand (c : Cursor) :
    Lands (operand (descend n)) c fun e _ => e.InParens c := by
  refine Lands.peek_bind fun l d hl => ?_
  split
  · exact inParens_term c
  · refine Lands.skip hl (lands_descend fun m _ => ?_)
    exact ((inOrder m).operand d).bind fun _ _ _ => Lands.pure (inParens_of_not_isFilter id)

/-- Where a bar ends the operation, it adds no filter to its first operand. -/
theorem inParens_operation (hs : StopsAt false stops) (c : Cursor) :
    Lands (operation (descend n) stops minimum) c fun e _ => e.InParens c := by
  refine (inParens_operand c).bind fun e d hd => ?_
  refine Lands.loop (descends_nextJoint (tokenWise_descend n) _ _) (I := fun e _ => e.InParens c)
    (fun left d hleft => ?_) hd
  refine Lands.peek_bind fun l f hl => ?_
  split
  · exact Lands.pure hleft
  · next hj =>
    obtain ⟨-, hbars, -⟩ := (joint?_eq_filter_iff hs).mp hj
    cases hbars
  · refine Lands.skip hl (lands_descend fun m _ => ?_)
    exact ((inOrder m).operation _ _ f).bind fun _ _ _ => Lands.pure (inParens_of_not_isFilter id)

end Filters
end Expression
end TemplateSyntax
