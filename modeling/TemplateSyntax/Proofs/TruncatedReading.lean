import TemplateSyntax.Proofs.Truncation

/-!
# Readers of tags beside a cut

Every reader of a part of a tag is gone through beside a cut: where the shorter source has ended it
stays at the end or fails there. As the end of a tag is always wanted, no reader of a whole tag
gives a value there.
-/
namespace TemplateSyntax
open Reader

variable {v : List Char} {p : Position}

theorem Span.Off.combine {a b : Span} (ha : a.Off p) (hb : b.Off p) : (a.combine b).Off p := by
  simp only [Off, Span.combine]
  split
  · exact hb
  · exact ha

namespace Reader
variable {α β : Type} {W K : β → Prop} (hv : v ≠ [])
include hv

/-- A token that is taken, accepted or refused: the end of the source is refused. -/
theorem next_bind {f : Lexeme → ReadM β}
    (hf : ∀ l : Lexeme, l.span.Off p → Forward (cutView v p) W K (f l))
    (hq : Quiet (cutView v p) K (f (endLexeme p))) : Bounded (cutView v p) W K (next >>= f) := by
  refine (bounded_next hv).bind hf ?_
  rintro _ rfl
  exact hq

theorem atSymbol_bind (s : Symbol) {f : Bool → ReadM β}
    (hf : ∀ b, Forward (cutView v p) W K (f b)) (hq : Quiet (cutView v p) K (f false)) :
    Bounded (cutView v p) W K (atSymbol s >>= f) := by
  have h : Bounded (cutView v p) (fun _ => True) (· = false) (atSymbol s) :=
    peek_bind hv (fun _ _ => .of_forward (.pure trivial)) (Ensures.pure fun _ h => ⟨rfl, h⟩)
  refine h.bind (fun b _ => hf b) ?_
  rintro _ rfl
  exact hq

theorem atKeyword_bind (k : Keyword) {f : Bool → ReadM β}
    (hf : ∀ b, Forward (cutView v p) W K (f b)) (hq : Quiet (cutView v p) K (f false)) :
    Bounded (cutView v p) W K (atKeyword k >>= f) := by
  have h : Bounded (cutView v p) (fun _ => True) (· = false) (atKeyword k) :=
    peek_bind hv (fun _ _ => .of_forward (.pure trivial)) (Ensures.pure fun _ h => ⟨rfl, h⟩)
  refine h.bind (fun b _ => hf b) ?_
  rintro _ rfl
  exact hq

theorem bounded_expectSymbol (s : Symbol) :
    Bounded (cutView v p) (fun span => span.Off p) (fun _ => False) (expectSymbol s) := by
  refine next_bind hv (fun l hl => ?_) (Ensures.throw fun _ _ => ⟨.symbol s, rfl⟩)
  split
  · exact .pure hl
  · exact .throw (.inl hl)

theorem bounded_expectKeyword (k : Keyword) :
    Bounded (cutView v p) (fun span => span.Off p) (fun _ => False) (expectKeyword k) := by
  refine next_bind hv (fun l hl => ?_) (Ensures.throw fun _ _ => ⟨.keyword k, rfl⟩)
  split
  · exact .pure hl
  · exact .throw (.inl hl)

theorem bounded_expectName :
    Bounded (cutView v p) (fun name => name.span.Off p) (fun _ => False) expectName := by
  refine next_bind hv (fun l hl => ?_) (Ensures.throw fun _ _ => ⟨.name, rfl⟩)
  split
  · exact .pure hl
  · exact .throw (.inl hl)

theorem bounded_variableName :
    Bounded (cutView v p) (fun name => name.span.Off p) (fun _ => False) variableName :=
  (bounded_expectName hv).strict fun _ h => .pure h

theorem bounded_nextItem {item : ReadM α} {V : α → Prop} (h : Bounded (cutView v p) V V item)
    (found : List α) :
    Bounded (cutView v p) (OnStep fun _ => True) (OnStep fun _ => True) (nextItem item found) := by
  have hcomma (x : α) : Bounded (cutView v p) (OnStep fun _ => True) (OnStep fun _ => True)
      (discard (expectSymbol .comma) >>= fun _ => pure (.yield (found ++ [x]))) :=
    (bounded_expectSymbol hv _).discard_strict.strict fun _ _ => .pure trivial
  have hmore : Bounded (cutView v p) (OnStep fun _ => True) (OnStep fun _ => True) (do
      let x ← item
      unless ← atSymbol .closeParen do
        discard <| expectSymbol .comma
      return .yield (found ++ [x])) := by
    refine h.seq fun x _ => atSymbol_bind hv _ (fun atClose => ?_) (hcomma x).quiet
    split
    · exact .pure trivial
    · exact (hcomma x).toForward
  refine atSymbol_bind hv _ (fun atEnd => ?_) hmore.quiet
  split
  · exact .pure trivial
  · exact hmore.toForward

theorem bounded_items {item : ReadM α} {V : α → Prop} (h : Bounded (cutView v p) V V item)
    (hc : Consumes Reader.size item) :
    Bounded (cutView v p) (fun x => x.2.Off p) (fun _ => False) (items item) := by
  refine (Bounded.loop (descends_nextItem hc) (fun found _ => bounded_nextItem hv h found)
    trivial).seq fun found _ => ?_
  exact (bounded_expectSymbol hv _).strict fun _ h => .pure h

end Reader

namespace Expression
variable {deeper : Descent}

/-- The readers of a level beside a cut. -/
structure Level.Bounded (v : List Char) (p : Position) (level : Level) : Prop where
  operand : TemplateSyntax.Bounded (cutView v p) (fun e => e.span.Off p) (fun e => e.span.Off p)
    level.operand
  operation (stops : List String) (minimum : Nat) :
    TemplateSyntax.Bounded (cutView v p) (fun e => e.span.Off p) (fun e => e.span.Off p)
      (level.operation stops minimum)
  consumes (stops : List String) (minimum : Nat) :
    Consumes Reader.size (level.operation stops minimum)

/-- Going down to the next level beside a cut, from a token that does not begin there. -/
structure Descent.Bounded (v : List Char) (p : Position) (deeper : Descent) : Prop where
  tokenWise : deeper.TokenWise
  forward {span : Span} (hspan : span.Off p) {β : Type} {W K : β → Prop} (f : Level → ReadM β) :
    (∀ level : Level, level.Bounded v p → Forward (cutView v p) W K (f level)) →
      Forward (cutView v p) W K (deeper span >>= f)

variable (hv : v ≠ [])

theorem forward_stringValue {K : Expression → Prop} {span : Span} (h : span.Off p) (raw : String) :
    Forward (cutView v p) (fun e => e.span.Off p) K (stringValue raw span) := by
  unfold stringValue
  split
  · exact .throw (.inl h)
  · split
    · exact .pure h
    · exact .throw (.inl h)
    · exact .throw (.inl h)

include hv

theorem bounded_arguments (hd : deeper.Bounded v p) :
    Bounded (cutView v p) (fun x => x.2.Off p) (fun _ => False) (arguments deeper) :=
  (bounded_expectSymbol hv _).strict fun _ hspan => hd.forward hspan _ fun _ h =>
    (bounded_items hv (h.operation _ _) (h.consumes _ _)).toForward

theorem forward_primaryFrom {K : Expression → Prop} (hd : deeper.Bounded v p) {l : Lexeme}
    (hl : l.span.Off p) :
    Forward (cutView v p) (fun e => e.span.Off p) K (primaryFrom deeper l) := by
  unfold primaryFrom
  split
  · exact .pure hl
  · exact forward_stringValue hl _
  · exact .pure hl
  · refine hd.forward hl _ fun level h => ((h.operation _ _).seq fun inner hinner => ?_).toForward
    exact (bounded_expectSymbol hv _).discard_strict.strict fun _ _ => .pure hinner
  · exact .throw (.inl hl)

theorem bounded_primary (hd : deeper.Bounded v p) :
    Bounded (cutView v p) (fun e => e.span.Off p) (fun e => e.span.Off p) (primary deeper) :=
  next_bind hv (fun _ hl => forward_primaryFrom hv hd hl)
    (Ensures.throw fun _ _ => ⟨.operand, rfl⟩)

theorem bounded_nextSuffix (hd : deeper.Bounded v p) {e : Expression} (he : e.span.Off p) :
    Bounded (cutView v p) (OnStep fun e => e.span.Off p) (OnStep fun e => e.span.Off p)
      (nextSuffix deeper e) := by
  have hcall : Bounded (cutView v p) (OnStep fun e => e.span.Off p) (OnStep fun e => e.span.Off p)
      (do
        if ← atSymbol .openParen then
          let found ← arguments deeper
          return .yield (.call e found.1 (e.span.combine found.2))
        else
          return .done e : ReadM (ForInStep Expression)) := by
    refine atSymbol_bind hv _ (fun atParen => ?_) (Ensures.pure fun _ h => ⟨he, h⟩)
    split
    · refine ((bounded_arguments hv hd).strict fun found hclose => ?_).toForward
      exact .pure (he.combine hclose)
    · exact .pure he
  refine atSymbol_bind hv _ (fun atDot => ?_) hcall.quiet
  split
  · refine ((bounded_next hv).discard.seq fun _ _ => ?_).toForward
    refine (bounded_variableName hv).strict fun name hname => ?_
    exact .pure (he.combine hname)
  · exact hcall.toForward

theorem bounded_term (hd : deeper.Bounded v p) :
    Bounded (cutView v p) (fun e => e.span.Off p) (fun e => e.span.Off p) (term deeper) :=
  (bounded_primary hv hd).seq fun _ he =>
    .loop (descends_nextSuffix hd.tokenWise) (fun _ he => bounded_nextSuffix hv hd he) he

theorem bounded_operand (hd : deeper.Bounded v p) :
    Bounded (cutView v p) (fun e => e.span.Off p) (fun e => e.span.Off p) (operand deeper) := by
  refine peek_bind hv (fun l hl => ?_) (bounded_term hv hd).quiet
  split
  · exact .of_forward (bounded_term hv hd).toForward
  · refine .take (hd.forward hl _ fun level h => (h.operand.seq fun e he => ?_).toForward)
    exact .pure (hl.combine he) (hl.combine he)

theorem bounded_nextJoint (hd : deeper.Bounded v p) (stops : List String) (minimum : Nat)
    {left : Expression} (hleft : left.span.Off p) :
    Bounded (cutView v p) (OnStep fun e => e.span.Off p) (OnStep fun e => e.span.Off p)
      (nextJoint deeper stops minimum left) := by
  refine peek_bind hv (fun l hl => ?_) (Ensures.pure fun _ h => ⟨hleft, h⟩)
  split
  · exact .of_forward (.pure hleft)
  · refine .of_forward ((bounded_next hv).discard.seq fun _ _ => ?_).toForward
    refine (bounded_term hv hd).seq fun e he => ?_
    exact .pure (hleft.combine he) (hleft.combine he)
  · refine .take (hd.forward hl _ fun level h => ((h.operation _ _).seq fun e he => ?_).toForward)
    exact .pure (hleft.combine he) (hleft.combine he)

theorem bounded_operation (hd : deeper.Bounded v p) (stops : List String) (minimum : Nat) :
    Bounded (cutView v p) (fun e => e.span.Off p) (fun e => e.span.Off p)
      (operation deeper stops minimum) :=
  (bounded_operand hv hd).seq fun _ he => .loop (descends_nextJoint hd.tokenWise stops minimum)
    (fun _ he => bounded_nextJoint hv hd stops minimum he) he

theorem bounded_descend (n : Nat) : (descend n).Bounded v p := by
  induction n with
  | zero =>
    refine ⟨tokenWise_descend 0, fun hspan _ _ _ f _ => ?_⟩
    rw [descend_zero_bind]
    exact .throw (.inl hspan)
  | succ n ih =>
    refine ⟨tokenWise_descend (n + 1), fun _ _ _ _ f hf => ?_⟩
    rw [descend_succ_bind]
    exact hf _ ⟨bounded_operand hv ih, bounded_operation hv ih, consumes_operation ih.tokenWise⟩

theorem bounded_read (n : Nat) (stops : List String) :
    Bounded (cutView v p) (fun e => e.span.Off p) (fun e => e.span.Off p) (read n stops) :=
  bounded_operation hv (bounded_descend hv n) stops 0

theorem bounded_readFilter (n : Nat) :
    Bounded (cutView v p) (fun e => e.span.Off p) (fun e => e.span.Off p) (readFilter n) :=
  bounded_term hv (bounded_descend hv n)

end Expression

namespace Draft
variable {levels : Nat} {body : BodyReader} {opening : Span} (hv : v ≠ [])
include hv

/-! ## Parts of tags -/

theorem bounded_endTag :
    Bounded (cutView v p) (fun span => span.Off p) (fun _ => False) endTag :=
  bounded_expectSymbol hv _

theorem bounded_lastExpression :
    Bounded (cutView v p) (fun e => e.span.Off p) (fun _ => False) (lastExpression levels) :=
  (Expression.bounded_read hv _ _).seq fun _ he =>
    (bounded_endTag hv).discard_strict.strict fun _ _ => .pure he

theorem bounded_nextName (names : List Variable × Span) :
    Bounded (cutView v p) (OnStep fun _ => True) (OnStep fun _ => True) (nextName names) := by
  refine atSymbol_bind hv _ (fun atComma => ?_) (Ensures.pure fun _ h => ⟨trivial, h⟩)
  split
  · refine ((bounded_next hv).discard.seq fun _ _ => ?_).toForward
    exact (bounded_variableName hv).strict fun _ _ => .pure trivial
  · exact .pure trivial

theorem bounded_pattern : Bounded (cutView v p) (fun _ => True) (fun _ => True) pattern := by
  refine (bounded_variableName hv).strict fun first _ => ?_
  refine Bounded.toForward (atSymbol_bind hv _ (fun atComma => ?_) ?_)
  · split
    · refine ((Bounded.loop descends_nextName (fun names _ => bounded_nextName hv names)
        trivial).seq fun names _ => ?_).toForward
      exact .pure trivial trivial
    · exact .pure trivial
  · exact Ensures.pure fun _ h => ⟨trivial, h⟩

theorem bounded_nextFilter (filters : List Expression) :
    Bounded (cutView v p) (OnStep fun _ => True) (OnStep fun _ => True)
      (nextFilter levels filters) := by
  refine atSymbol_bind hv _ (fun atBar => ?_) (Ensures.pure fun _ h => ⟨trivial, h⟩)
  split
  · refine ((bounded_next hv).discard.seq fun _ _ => ?_).toForward
    exact (Expression.bounded_readFilter hv _).seq fun _ _ => .pure trivial trivial
  · exact .pure trivial

theorem bounded_placeable :
    Bounded (cutView v p) (fun _ => True) (fun _ => False) (placeable levels opening) := by
  refine (Expression.bounded_read hv _ _).seq fun value _ => ?_
  refine (Bounded.loop descends_nextFilter (fun filters _ => bounded_nextFilter hv filters)
    trivial).seq fun filters _ => ?_
  exact (bounded_expectSymbol hv _).strict fun _ _ => .pure trivial

theorem bounded_loopCondition :
    Bounded (cutView v p) (fun _ => True) (fun _ => True) (loopCondition levels) := by
  refine atKeyword_bind hv _ (fun atIf => ?_) (Ensures.pure fun _ h => ⟨trivial, h⟩)
  split
  · refine ((bounded_next hv).discard.seq fun _ _ => ?_).toForward
    exact (Expression.bounded_read hv _ _).seq fun _ _ => .pure trivial trivial
  · exact .pure trivial

theorem bounded_loopHead :
    Bounded (cutView v p) (fun _ => True) (fun _ => False) (loopHead levels) := by
  refine (bounded_pattern hv).seq fun target _ => ?_
  refine (bounded_expectKeyword hv _).discard_strict.strict fun _ _ => ?_
  refine ((Expression.bounded_read hv _ _).seq fun iterable _ => ?_).toForward
  refine (bounded_loopCondition hv).seq fun condition _ => ?_
  exact (bounded_endTag hv).discard_strict.strict fun _ _ => .pure trivial

theorem bounded_setTag :
    Bounded (cutView v p) (fun _ => True) (fun _ => False) (setTag levels opening) := by
  refine (bounded_pattern hv).seq fun target _ => ?_
  refine (bounded_expectSymbol hv _).discard_strict.strict fun _ _ => ?_
  refine ((Expression.bounded_read hv _ _).seq fun value _ => ?_).toForward
  exact (bounded_expectSymbol hv _).strict fun _ _ => .pure trivial

theorem bounded_callArguments :
    Bounded (cutView v p) (fun _ => True) (fun _ => True) (callArguments levels) := by
  refine atSymbol_bind hv _ (fun atParen => ?_) (Ensures.pure fun _ h => ⟨trivial, h⟩)
  split
  · exact ((Expression.bounded_arguments hv (Expression.bounded_descend hv _)).strict
      fun _ _ => .pure trivial).toForward
  · exact .pure trivial

theorem bounded_callHead :
    Bounded (cutView v p) (fun _ => True) (fun _ => False) (callHead levels) := by
  refine (bounded_expectName hv).strict fun name _ => ?_
  refine ((bounded_callArguments hv).seq fun args _ => ?_).toForward
  exact (bounded_endTag hv).discard_strict.strict fun _ _ => .pure trivial

theorem bounded_closingName (name : String) :
    Bounded (cutView v p) (fun _ => True) (fun _ => True) (closingName name) := by
  refine peek_bind hv (fun l hl => .of_forward ?_) (Ensures.pure fun _ h => ⟨trivial, h⟩)
  split
  · split
    · exact (bounded_next hv).discard.toForward
    · exact .throw (.inl hl)
  · exact .pure trivial

theorem bounded_blockHead :
    Bounded (cutView v p) (fun _ => True) (fun _ => False) blockHead := by
  refine (bounded_expectName hv).strict fun name _ => ?_
  exact ((bounded_endTag hv).discard_strict.strict fun _ _ => .pure trivial).toForward

theorem bounded_blockEnd (name : String) :
    Bounded (cutView v p) (fun span => span.Off p) (fun _ => False) (blockEnd name) :=
  (bounded_closingName hv name).seq fun _ _ => bounded_endTag hv

theorem bounded_parameter :
    Bounded (cutView v p) (fun _ => True) (fun _ => True) (parameter levels) := by
  refine (bounded_expectName hv).strict fun name _ => ?_
  refine Bounded.toForward (atSymbol_bind hv _ (fun atAssign => ?_) ?_)
  · split
    · refine ((bounded_next hv).discard.seq fun _ _ => ?_).toForward
      exact (Expression.bounded_read hv _ _).seq fun _ _ => .pure trivial trivial
    · exact .pure trivial
  · exact Ensures.pure fun _ h => ⟨trivial, h⟩

theorem bounded_macroHead :
    Bounded (cutView v p) (fun _ => True) (fun _ => False) (macroHead levels) := by
  refine (bounded_expectName hv).strict fun name _ => ?_
  refine ((bounded_expectSymbol hv _).discard_strict.strict fun _ _ => ?_).toForward
  refine (Bounded.strict (bounded_items hv (bounded_parameter hv) consumes_parameter)
    fun _ _ => ?_).toForward
  exact ((bounded_endTag hv).discard_strict.strict fun _ _ => .pure trivial).toForward

end Draft
end TemplateSyntax
