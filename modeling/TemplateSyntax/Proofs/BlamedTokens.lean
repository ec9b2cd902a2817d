import TemplateSyntax.Proofs.Progress

/-!
# Faults are found in the last token read

A reader only fails for the token that it has read last: the cursor finds no token there, or the
token is another one than what is wanted. The token may have been looked at before, but nothing was
read behind it. So the fault has the span of that token, and the cursor stands at the end of it.
-/
namespace TemplateSyntax

/-- The cause is one that the token can be blamed for. -/
def Cause.Concerns : Cause → Token → Prop
  | unexpected _ found, t => found = t
  | unknownEscape _, .string _ | unclosedString _, .string _ => True
  | tooDeep, .symbol _ | tooDeep, .identifier _ => True
  | unknownTag name, .identifier word => name = word
  | wrongBlockName _, .identifier _ => True
  | _, _ => False

/-- Where a reader may stand, told by how often it has read from its cursor. It may always read one
more token. -/
structure Trail where
  Stands : Nat → Cursor → Prop
  onward {n : Nat} {c : Cursor} (h : Stands n c) : Stands (n + 1) (c.behindNext true)

namespace Trail
open Reader
variable (T : Trail) {α β : Type}

/-- What the cursor of the reader has found last, and at the end of which it stands. -/
def Found (x : Except Fault Lexeme) (r : Reader) : Prop :=
  ∃ n c, T.Stands n c ∧ r.fetches = n + 1 ∧ c.next true = (x, r.cursor)

/-- The token was taken last. -/
def Behind (l : Lexeme) (r : Reader) : Prop := r.peeked = none ∧ T.Found (.ok l) r

/-- The token was looked at last. -/
def Before (l : Lexeme) (r : Reader) : Prop := r.peeked = some l ∧ T.Found (.ok l) r

/-- The reader stands on the trail, perhaps with the next token looked at. -/
def On (r : Reader) : Prop :=
  (r.peeked = none ∧ T.Stands r.fetches r.cursor) ∨ ∃ l, T.Before l r

/-- The fault is what the cursor has found last, or it is one of the token that was found last. -/
def Blames (f : Fault) (r : Reader) : Prop :=
  T.Found (.error f) r ∨ ∃ l, T.Found (.ok l) r ∧ f.span = l.span ∧ f.cause.Concerns l.token

/-- What is blamed was taken. -/
def Rejects (f : Fault) (r : Reader) : Prop := r.peeked = none ∧ T.Blames f r

/-- The reader stays on the trail, and if it fails it rejects what was found last. -/
def Truthful (m : ReadM α) : Prop := Ensures T.On m (fun _ => T.On) T.Rejects

variable {T}

theorem Behind.on {l : Lexeme} {r : Reader} (h : T.Behind l r) : T.On r := by
  obtain ⟨hp, n, c, hc, hfetches, hnext⟩ := h
  refine .inl ⟨hp, ?_⟩
  rw [hfetches, (Cursor.next_eq_ok hnext).2.2]
  exact T.onward hc

theorem Before.on {l : Lexeme} {r : Reader} (h : T.Before l r) : T.On r := .inr ⟨l, h⟩

theorem Behind.rejects {l : Lexeme} {r : Reader} {cause : Cause} (h : T.Behind l r)
    (hcause : cause.Concerns l.token) : T.Rejects ⟨cause, l.span⟩ r :=
  ⟨h.1, .inr ⟨l, h.2, rfl, hcause⟩⟩

/-! ## Tokens -/

theorem ensures_next : Ensures T.On next T.Behind T.Rejects := by
  intro r hr
  rcases hr with ⟨hp, hc⟩ | ⟨l, hp, hfound⟩
  · have hfound (x : Except Fault Lexeme) (hx : (r.cursor.next true).1 = x) :
        T.Found x r.fetched := ⟨_, _, hc, rfl, Prod.ext hx (Cursor.next_snd _ _)⟩
    rw [next_of_not_peeked hp]
    cases hx : (r.cursor.next true).1 with
    | ok l => exact ⟨hp, hfound _ hx⟩
    | error f => exact ⟨hp, .inl (hfound _ hx)⟩
  · rw [next_of_peeked hp]
    exact ⟨rfl, hfound⟩

theorem ensures_peek : Ensures T.On peek T.Before T.Rejects := by
  intro r hr
  have hnext := ensures_next r hr
  rw [run_peek]
  cases hn : next r with
  | ok l t =>
    rw [hn] at hnext
    exact ⟨rfl, hnext.2⟩
  | error f t => rwa [hn] at hnext

/-- A token that was looked at is taken. -/
theorem ensures_take (l : Lexeme) :
    Ensures (T.Before l) (discard next : ReadM PUnit) (fun _ => T.Behind l) T.Rejects := by
  refine Ensures.discard fun r hr => ?_
  rw [next_of_peeked hr.1]
  exact ⟨rfl, hr.2⟩

namespace Truthful

theorem pure (a : α) : T.Truthful (pure a) := Ensures.pure fun _ h => h

theorem bind {m : ReadM α} {f : α → ReadM β} (hm : T.Truthful m) (hf : ∀ a, T.Truthful (f a)) :
    T.Truthful (m >>= f) := Ensures.bind hm hf

theorem discard {m : ReadM α} (hm : T.Truthful m) : T.Truthful (discard m : ReadM PUnit) :=
  Ensures.discard hm

theorem loop {step : β → ReadM (ForInStep β)} (h : ∀ b, T.Truthful (step b)) (b : β) :
    T.Truthful (loop Reader.size step b) :=
  Ensures.loop_weak (I := fun _ => T.On)
    (fun b => (h b).after fun r _ hr => by cases r <;> exact hr) b

theorem next : T.Truthful Reader.next := ensures_next.after fun _ _ h => h.on

theorem peek : T.Truthful Reader.peek := ensures_peek.after fun _ _ h => h.on

theorem atSymbol (s : Symbol) : T.Truthful (Reader.atSymbol s) := peek.bind fun _ => pure _

theorem atKeyword (k : Keyword) : T.Truthful (Reader.atKeyword k) := peek.bind fun _ => pure _

end Truthful

/-- A token that is taken and then accepted or refused. -/
theorem ensures_expectSymbol (s : Symbol) :
    Ensures T.On (expectSymbol s) (fun span r => T.Behind ⟨.symbol s, span⟩ r) T.Rejects := by
  refine ensures_next.bind fun l => ?_
  split
  · next hl => exact Ensures.pure fun r hr => by rwa [← hl]
  · exact Ensures.throw fun r hr => hr.rejects rfl

theorem ensures_expectName :
    Ensures T.On expectName (fun i r => T.Behind ⟨.identifier i.value, i.span⟩ r) T.Rejects := by
  refine ensures_next.bind fun l => ?_
  split
  · next name hl => exact Ensures.pure fun r hr => by rwa [← hl]
  · exact Ensures.throw fun r hr => hr.rejects rfl

namespace Truthful

theorem expectSymbol (s : Symbol) : T.Truthful (Reader.expectSymbol s) :=
  (ensures_expectSymbol s).after fun _ _ h => h.on

theorem expectName : T.Truthful Reader.expectName := ensures_expectName.after fun _ _ h => h.on

theorem expectKeyword (k : Keyword) : T.Truthful (Reader.expectKeyword k) := by
  refine ensures_next.bind fun l => ?_
  split
  · exact Ensures.pure fun _ hr => hr.on
  · exact Ensures.throw fun _ hr => hr.rejects rfl

theorem variableName : T.Truthful Reader.variableName := expectName.bind fun _ => pure _

theorem nextItem {item : ReadM α} (h : T.Truthful item) (found : List α) :
    T.Truthful (Reader.nextItem item found) := by
  refine (atSymbol _).bind fun atEnd => ?_
  split
  · exact pure _
  · refine h.bind fun x => (atSymbol _).bind fun atClose => ?_
    split
    · exact pure _
    · exact (expectSymbol _).discard.bind fun _ => pure _

theorem items {item : ReadM α} (h : T.Truthful item) : T.Truthful (Reader.items item) :=
  (loop (nextItem h) []).bind fun _ => (expectSymbol _).bind fun _ => pure _

end Truthful
end Trail

/-! ## Expressions -/

namespace Expression
open Reader
variable {T : Trail} {deeper : Descent}

/-- Both readers of a level are truthful. -/
structure Level.Truthful (T : Trail) (level : Level) : Prop where
  operand : T.Truthful level.operand
  operation (stops : List String) (minimum : Nat) : T.Truthful (level.operation stops minimum)

/-- A token for which no level can be opened is blamed for that. -/
def Descent.Truthful (T : Trail) (deeper : Descent) : Prop :=
  ∀ l : Lexeme, Cause.tooDeep.Concerns l.token →
    Ensures (T.Behind l) (deeper l.span) (fun level r => level.Truthful T ∧ T.On r) T.Rejects

/-- What a token opens is read in the next level. -/
theorem Descent.Truthful.bind {β : Type} (hd : deeper.Truthful T) {l : Lexeme}
    (hl : Cause.tooDeep.Concerns l.token) {f : Level → ReadM β}
    (hf : ∀ level, level.Truthful T → T.Truthful (f level)) :
    Ensures (T.Behind l) (deeper l.span >>= f) (fun _ => T.On) T.Rejects :=
  (hd l hl).bind fun level => Ensures.given (hf level)

theorem concerns_of_sign? {t : Token} {op : Operator} (h : sign? t = some op) :
    Cause.tooDeep.Concerns t := by
  cases t with
  | symbol s => trivial
  | identifier word => trivial
  | number _ | string _ | text _ | endOfSource => cases h

theorem concerns_of_joint? {stops : List String} {minimum : Nat} {t : Token}
    {joint : Joint × Binding} (h : joint? stops minimum t = some joint) :
    Cause.tooDeep.Concerns t := by
  cases t with
  | symbol s => trivial
  | identifier word => trivial
  | number _ | string _ | text _ | endOfSource => cases h

/-- A literal without a value is blamed for that. -/
theorem ensures_stringValue {l : Lexeme} {raw : String} (hl : l.token = .string raw) :
    Ensures (T.Behind l) (stringValue raw l.span) (fun _ => T.On) T.Rejects := by
  unfold stringValue
  split
  · exact Ensures.throw fun _ hr => hr.rejects (by rw [hl]; trivial)
  · split
    · exact Ensures.pure fun _ hr => hr.on
    · exact Ensures.throw fun _ hr => hr.rejects (by rw [hl]; trivial)
    · exact Ensures.throw fun _ hr => hr.rejects (by rw [hl]; trivial)

theorem truthful_arguments (hd : deeper.Truthful T) : T.Truthful (arguments deeper) :=
  (Trail.ensures_expectSymbol _).bind fun span =>
    hd.bind (l := ⟨.symbol .openParen, span⟩) trivial fun _ h => .items (h.operation _ _)

theorem ensures_primaryFrom (hd : deeper.Truthful T) (l : Lexeme) :
    Ensures (T.Behind l) (primaryFrom deeper l) (fun _ => T.On) T.Rejects := by
  unfold primaryFrom
  split
  · exact Ensures.pure fun _ hr => hr.on
  · next raw hl => exact ensures_stringValue hl
  · exact Ensures.pure fun _ hr => hr.on
  · next hl =>
    exact hd.bind (by rw [hl]; trivial) fun level h =>
      (h.operation _ _).bind fun _ => (Trail.Truthful.expectSymbol _).discard.bind fun _ => .pure _
  · exact Ensures.throw fun _ hr => hr.rejects rfl

theorem truthful_primary (hd : deeper.Truthful T) : T.Truthful (primary deeper) :=
  Trail.ensures_next.bind (ensures_primaryFrom hd)

theorem truthful_nextSuffix (hd : deeper.Truthful T) (e : Expression) :
    T.Truthful (nextSuffix deeper e) := by
  refine (Trail.Truthful.atSymbol _).bind fun atDot => ?_
  split
  · exact Trail.Truthful.next.discard.bind fun _ =>
      Trail.Truthful.variableName.bind fun _ => .pure _
  · refine (Trail.Truthful.atSymbol _).bind fun atParen => ?_
    split
    · exact (truthful_arguments hd).bind fun _ => .pure _
    · exact .pure _

theorem truthful_term (hd : deeper.Truthful T) : T.Truthful (term deeper) :=
  (truthful_primary hd).bind fun _ => .loop (truthful_nextSuffix hd) _

theorem truthful_operand (hd : deeper.Truthful T) : T.Truthful (operand deeper) := by
  refine Trail.ensures_peek.bind fun l => ?_
  split
  · exact (truthful_term hd).before fun _ hr => hr.on
  · next op hop =>
    refine (Trail.ensures_take l).bind fun _ => ?_
    exact hd.bind (concerns_of_sign? hop) fun level h => h.operand.bind fun _ => .pure _

theorem truthful_nextJoint (hd : deeper.Truthful T) (stops : List String) (minimum : Nat)
    (left : Expression) : T.Truthful (nextJoint deeper stops minimum left) := by
  refine Trail.ensures_peek.bind fun l => ?_
  split
  · exact Ensures.pure fun _ hr => hr.on
  · refine (Trail.ensures_take l).bind fun _ => ?_
    exact Ensures.before ((truthful_term hd).bind fun _ => .pure _) fun _ hr => hr.on
  · next hj =>
    refine (Trail.ensures_take l).bind fun _ => ?_
    exact hd.bind (concerns_of_joint? hj) fun level h => (h.operation _ _).bind fun _ => .pure _

theorem truthful_operation (hd : deeper.Truthful T) (stops : List String) (minimum : Nat) :
    T.Truthful (operation deeper stops minimum) :=
  (truthful_operand hd).bind fun _ => .loop (truthful_nextJoint hd stops minimum) _

theorem truthful_descend (n : Nat) : (descend n).Truthful T := by
  induction n with
  | zero => exact fun l hl => Ensures.throw fun _ hr => hr.rejects hl
  | succ n ih =>
    exact fun l _ => Ensures.pure fun _ hr =>
      ⟨⟨truthful_operand ih, truthful_operation ih⟩, hr.on⟩

theorem truthful_read (n : Nat) (stops : List String) : T.Truthful (read n stops) :=
  truthful_operation (truthful_descend n) stops 0

theorem truthful_readFilter (n : Nat) : T.Truthful (readFilter n) :=
  truthful_term (truthful_descend n)

end Expression

/-! ## Tags -/

namespace Draft
open Trail (Truthful)
variable {T : Trail} {levels : Nat} {opening : Span}

theorem truthful_endTag : T.Truthful endTag := .expectSymbol _

theorem truthful_lastExpression : T.Truthful (lastExpression levels) :=
  (Expression.truthful_read _ _).bind fun _ => truthful_endTag.discard.bind fun _ => .pure _

theorem truthful_pattern : T.Truthful pattern := by
  refine Truthful.variableName.bind fun first => (Truthful.atSymbol _).bind fun atComma => ?_
  split
  · refine Truthful.bind (.loop (fun (names, span) => ?_) _) fun _ => .pure _
    refine (Truthful.atSymbol _).bind fun atComma => ?_
    split
    · exact Truthful.next.discard.bind fun _ => Truthful.variableName.bind fun _ => .pure _
    · exact .pure _
  · exact .pure _

theorem truthful_placeable : T.Truthful (placeable levels opening) := by
  refine (Expression.truthful_read _ _).bind fun value => ?_
  refine Truthful.bind (.loop (fun filters => ?_) _) fun _ =>
    (Truthful.expectSymbol _).bind fun _ => .pure _
  refine (Truthful.atSymbol _).bind fun atBar => ?_
  split
  · exact Truthful.next.discard.bind fun _ =>
      (Expression.truthful_readFilter _).bind fun _ => .pure _
  · exact .pure _

theorem truthful_loopCondition : T.Truthful (loopCondition levels) := by
  refine (Truthful.atKeyword _).bind fun atIf => ?_
  split
  · exact Truthful.next.discard.bind fun _ => (Expression.truthful_read _ _).bind fun _ => .pure _
  · exact .pure _

theorem truthful_loopHead : T.Truthful (loopHead levels) :=
  truthful_pattern.bind fun _ => (Truthful.expectKeyword _).discard.bind fun _ =>
    (Expression.truthful_read _ _).bind fun _ => truthful_loopCondition.bind fun _ =>
    truthful_endTag.discard.bind fun _ => .pure _

theorem truthful_setTag : T.Truthful (setTag levels opening) :=
  truthful_pattern.bind fun _ => (Truthful.expectSymbol _).discard.bind fun _ =>
    (Expression.truthful_read _ _).bind fun _ => (Truthful.expectSymbol _).bind fun _ => .pure _

theorem truthful_callArguments : T.Truthful (callArguments levels) := by
  refine (Truthful.atSymbol _).bind fun atParen => ?_
  split
  · exact (Expression.truthful_arguments (Expression.truthful_descend _)).bind fun _ => .pure _
  · exact .pure _

theorem truthful_callHead : T.Truthful (callHead levels) :=
  Truthful.expectName.bind fun _ => truthful_callArguments.bind fun _ =>
    truthful_endTag.discard.bind fun _ => .pure _

theorem truthful_blockHead : T.Truthful blockHead :=
  Truthful.expectName.bind fun _ => truthful_endTag.discard.bind fun _ => .pure _

/-- A name that does not match is blamed before it is taken. -/
theorem ensures_closingName (name : String) :
    Ensures T.On (closingName name) (fun _ => T.On) T.Blames := by
  refine (Ensures.mono Trail.ensures_peek (fun _ hr => hr) (fun _ _ hr => hr)
    fun _ _ h => h.2).bind fun l => ?_
  split
  · next closing hl =>
    split
    · exact (Trail.ensures_take l).mono (fun _ hr => hr) (fun _ _ hr => hr.on) fun _ _ h => h.2
    · exact Ensures.throw fun _ hr => .inr ⟨l, hr.2, rfl, by rw [hl]; trivial⟩
  · exact Ensures.pure fun _ hr => hr.on

theorem ensures_blockEnd (name : String) :
    Ensures T.On (blockEnd name) (fun _ => T.On) T.Blames :=
  (ensures_closingName name).bind fun _ =>
    Ensures.mono truthful_endTag (fun _ hr => hr) (fun _ _ hr => hr) fun _ _ h => h.2

theorem truthful_parameter : T.Truthful (parameter levels) := by
  refine Truthful.expectName.bind fun name => (Truthful.atSymbol _).bind fun atAssign => ?_
  split
  · exact Truthful.next.discard.bind fun _ => (Expression.truthful_read _ _).bind fun _ => .pure _
  · exact .pure _

theorem truthful_macroHead : T.Truthful (macroHead levels) :=
  Truthful.expectName.bind fun _ => (Truthful.expectSymbol _).discard.bind fun _ =>
    (Truthful.items truthful_parameter).bind fun _ =>
      truthful_endTag.discard.bind fun _ => .pure _

end Draft
end TemplateSyntax
