import TemplateSyntax.Proofs.Locality
import TemplateSyntax.Proofs.Relocation

/-!
# Reading the same text at another place

A text is read behind another text as it is read alone, with all positions shifted. Two runs are
compared: the second one starts at the shifted place, and ends with the shifted value or the shifted
fault. The rules for parts of a computation are proved once, and every reader is taken through them.
-/
namespace TemplateSyntax

namespace Position

/-- The place behind a text that ends at `p` of what is at `q` in a text of its own. Only the first
line goes on with the last line of the text before it. -/
def shift (p q : Position) : Position where
  offset := q.offset + p.offset
  line := q.line + (p.line - 1)
  column := if q.line ≤ 1 then q.column + p.column else q.column

theorem shift_start {p : Position} (h : 0 < p.line) : p.shift start = p := by
  obtain ⟨offset, line, column⟩ := p
  simp only [shift, start, Nat.le_refl, if_true, Nat.zero_add, Position.mk.injEq, true_and,
    and_true]
  dsimp only at h
  omega

theorem line_advance_pos {q : Position} (h : 0 < q.line) (c : Char) : 0 < (q.advance c).line := by
  unfold advance
  split
  · exact Nat.succ_pos _
  · exact h

theorem line_advanceBy_pos {q : Position} (h : 0 < q.line) (cs : List Char) :
    0 < (q.advanceBy cs).line := by
  induction cs generalizing q with
  | nil => exact h
  | cons c cs ih => exact ih (line_advance_pos h c)

/-- Both places advance alike. -/
theorem shift_advance (p : Position) {q : Position} (h : 0 < q.line) (c : Char) :
    p.shift (q.advance c) = (p.shift q).advance c := by
  unfold advance shift
  split
  · simp only [Position.mk.injEq]
    refine ⟨by omega, by omega, if_neg (by omega)⟩
  · simp only [Position.mk.injEq, true_and]
    refine ⟨by omega, ?_⟩
    split <;> omega

theorem shift_advanceBy (p : Position) {q : Position} (h : 0 < q.line) (cs : List Char) :
    p.shift (q.advanceBy cs) = (p.shift q).advanceBy cs := by
  induction cs generalizing q with
  | nil => rfl
  | cons c cs ih =>
    rw [advanceBy_cons, ih (line_advance_pos h c), shift_advance p h, advanceBy_cons]

end Position

theorem Span.move_combine (p : Position) (a b : Span) :
    move p.shift (a.combine b) = (move p.shift a).combine (move p.shift b) := by
  have hlt (q q' : Position) : (p.shift q).offset < (p.shift q').offset ↔ q.offset < q'.offset :=
    Nat.add_lt_add_iff_right
  simp only [move, combine, hlt]
  split <;> split <;> rfl

/-! ## Runs at two places -/

section Runs
variable {σ α β : Type} [Movable α] [Movable β] {f : Position → Position} {R : σ → σ → Prop}

/-- The second run ends like the first, with all positions moved. -/
inductive MovedEnd (f : Position → Position) (R : σ → σ → Prop) :
    EStateM.Result Fault σ α → EStateM.Result Fault σ α → Prop
  | ok (a : α) {t t' : σ} (h : R t t') : MovedEnd f R (.ok a t) (.ok (move f a) t')
  | error (e : Fault) (t t' : σ) : MovedEnd f R (.error e t) (.error (move f e) t')

/-- From related states the second computation does what the first does, with positions moved. -/
def Moves (f : Position → Position) (R : σ → σ → Prop) (m m' : EStateM Fault σ α) : Prop :=
  ∀ s s', R s s' → MovedEnd f R (m s) (m' s')

namespace Moves

theorem pure (a : α) : Moves f R (pure a) (pure (move f a)) := fun _ _ h => .ok a h

theorem value {a a' : α} (h : a' = move f a) : Moves f R (Pure.pure a) (Pure.pure a') :=
  h ▸ pure a

theorem throw (e : Fault) : Moves f R (throw e : EStateM Fault σ α) (throw (move f e)) :=
  fun s s' _ => .error e s s'

theorem bind {m m' : EStateM Fault σ α} {g g' : α → EStateM Fault σ β} (hm : Moves f R m m')
    (hg : ∀ a, Moves f R (g a) (g' (move f a))) : Moves f R (m >>= g) (m' >>= g') := by
  intro s s' h
  have hr := hm s s' h
  rw [run_bind, run_bind]
  generalize m s = x, m' s' = x' at hr
  cases hr with
  | ok a h => exact hg a _ _ h
  | error e t t' => exact .error e t t'

theorem discard {m m' : EStateM Fault σ α} (hm : Moves f R m m') :
    Moves f R (discard m : EStateM Fault σ PUnit) (discard m') :=
  hm.bind fun _ => pure PUnit.unit

theorem ite {p q : Prop} [Decidable p] [Decidable q] (hpq : p ↔ q) {m m' n n' : EStateM Fault σ α}
    (hm : Moves f R m m') (hn : Moves f R n n') :
    Moves f R (if p then m else n) (if q then m' else n') := by
  by_cases h : p
  · rw [if_pos h, if_pos (hpq.mp h)]
    exact hm
  · rw [if_neg h, if_neg (fun hq => h (hpq.mpr hq))]
    exact hn

/-- A loop does the same if its passes do, and if related states have the same size. -/
theorem loop {size : σ → Nat} (hsize : ∀ s s', R s s' → size s' = size s)
    {step step' : β → EStateM Fault σ (ForInStep β)}
    (h : ∀ b, Moves f R (step b) (step' (move f b))) (b : β) :
    Moves f R (loop size step b) (TemplateSyntax.loop size step' (move f b)) := by
  intro s s' hs
  induction hn : size s using Nat.strong_induction_on generalizing s s' b with
  | h n ih =>
    have hr := h b s s' hs
    rw [TemplateSyntax.loop, TemplateSyntax.loop]
    generalize step b s = x, step' (move f b) s' = x' at hr
    cases hr with
    | error e t t' => exact .error e t t'
    | @ok r t t' ht =>
      cases r with
      | done b' => exact .ok b' ht
      | yield b' =>
        change MovedEnd f R (if size t < size s then _ else _)
          (if size t' < size s' then _ else _)
        rw [hsize s s' hs, hsize t t' ht]
        split
        · next hlt => exact ih (size t) (hn ▸ hlt) b' t t' ht rfl
        · exact .ok b' ht

end Moves
end Runs

/-! ## Tokens -/

/-- The same text stands behind both cursors, and the second one stands at the shifted place. -/
def Cursor.Shifted (p : Position) (c c' : Cursor) : Prop :=
  0 < c.position.line ∧ c' = ⟨p.shift c.position, c.rest⟩

namespace Cursor.Shifted
variable {p : Position} {c c' : Cursor}

theorem past (h : c.Shifted p c') (taken : List Char) :
    (c.past taken).Shifted p (c'.past taken) := by
  obtain ⟨hline, rfl⟩ := h
  refine ⟨Position.line_advanceBy_pos hline taken, ?_⟩
  simp only [Cursor.past, Position.shift_advanceBy p hline]

theorem rest_eq (h : c.Shifted p c') : c'.rest = c.rest := by rw [h.2]

theorem skipBlanks (h : c.Shifted p c') : c.skipBlanks.Shifted p c'.skipBlanks := by
  rw [Cursor.skipBlanks, Cursor.skipBlanks, h.rest_eq]
  exact h.past _

theorem nextPiece_eq (h : c.Shifted p c') : c'.nextPiece true = c.nextPiece true := by
  rw [nextPiece, nextPiece, h.skipBlanks.rest_eq]

theorem behindNext (h : c.Shifted p c') : (c.behindNext true).Shifted p (c'.behindNext true) := by
  rw [Cursor.behindNext, Cursor.behindNext, h.nextPiece_eq]
  exact h.skipBlanks.past _

theorem nextSpan_eq (h : c.Shifted p c') : c'.nextSpan true = move p.shift (c.nextSpan true) := by
  rw [nextSpan, nextSpan, h.skipBlanks.2, h.behindNext.2]
  rfl

theorem behindText (h : c.Shifted p c') : c.behindText.Shifted p c'.behindText := by
  rw [Cursor.behindText, Cursor.behindText, h.rest_eq]
  exact h.past _

end Cursor.Shifted

namespace Reader
variable {p : Position} {α β : Type} [Movable α] [Movable β]

/-- The second reader stands at the shifted place. -/
structure Shifted (p : Position) (r r' : Reader) : Prop where
  cursor : r.cursor.Shifted p r'.cursor
  peeked : r'.peeked = move p.shift r.peeked

theorem Shifted.size_eq {r r' : Reader} (h : Shifted p r r') : r'.size = r.size := by
  unfold size
  rw [h.cursor.rest_eq, h.peeked]
  cases r.peeked <;> rfl

theorem Shifted.fetched {r r' : Reader} (h : Shifted p r r') : Shifted p r.fetched r'.fetched :=
  ⟨h.cursor.behindNext, h.peeked⟩

theorem moves_next : Moves p.shift (Shifted p) next next := by
  intro r r' h
  cases hp : r.peeked with
  | some l =>
    have hp' : r'.peeked = some (move p.shift l) := by
      rw [h.peeked, hp]
      rfl
    rw [next_of_peeked hp, next_of_peeked hp']
    exact .ok l ⟨h.cursor, rfl⟩
  | none =>
    have hp' : r'.peeked = none := by
      rw [h.peeked, hp]
      rfl
    rw [next_of_not_peeked hp, next_of_not_peeked hp', Cursor.next_eq, Cursor.next_eq,
      h.cursor.nextPiece_eq, h.cursor.nextSpan_eq]
    cases (r.cursor.nextPiece true).token with
    | ok token => exact .ok (⟨token, r.cursor.nextSpan true⟩ : Lexeme) h.fetched
    | error cause => exact .error ⟨cause, _⟩ _ _

/-- The second computation reads at the shifted place what the first one reads. -/
abbrev Mirrors (p : Position) (m m' : ReadM α) : Prop := Moves p.shift (Shifted p) m m'

theorem mirrors_next : Mirrors p next next := moves_next

theorem mirrors_peek : Mirrors p peek peek := by
  intro r r' h
  have hr := mirrors_next r r' h
  rw [run_peek, run_peek]
  generalize next r = x, next r' = x' at hr
  cases hr with
  | error e t t' => exact .error e t t'
  | ok l ht => exact .ok l ⟨ht.cursor, rfl⟩

theorem mirrors_loop {step step' : β → ReadM (ForInStep β)}
    (h : ∀ b, Mirrors p (step b) (step' (move p.shift b))) (b : β) :
    Mirrors p (loop Reader.size step b) (loop Reader.size step' (move p.shift b)) :=
  Moves.loop (fun _ _ h => h.size_eq) h b

theorem mirrors_atSymbol (s : Symbol) : Mirrors p (atSymbol s) (atSymbol s) :=
  mirrors_peek.bind fun _ => .pure _

theorem mirrors_atKeyword (k : Keyword) : Mirrors p (atKeyword k) (atKeyword k) :=
  mirrors_peek.bind fun _ => .pure _

theorem mirrors_expectSymbol (s : Symbol) : Mirrors p (expectSymbol s) (expectSymbol s) :=
  mirrors_next.bind fun l => .ite Iff.rfl (.pure l.span) (.throw (.unexpected (.symbol s) l))

theorem mirrors_expectKeyword (k : Keyword) : Mirrors p (expectKeyword k) (expectKeyword k) :=
  mirrors_next.bind fun l => .ite Iff.rfl (.pure l.span) (.throw (.unexpected (.keyword k) l))

theorem mirrors_expectName : Mirrors p expectName expectName := by
  refine mirrors_next.bind fun l => ?_
  obtain ⟨token, span⟩ := l
  cases token with
  | identifier name => exact .pure (⟨name, span⟩ : Identifier)
  | _ => exact .throw (.unexpected .name ⟨_, span⟩)

theorem mirrors_variableName : Mirrors p variableName variableName :=
  mirrors_expectName.bind fun name => .pure (⟨name.value, name.span⟩ : Variable)

theorem move_concat (f : Position → Position) (found : List α) (x : α) :
    move f (found ++ [x]) = move f found ++ [move f x] := List.map_append

theorem mirrors_nextItem {item item' : ReadM α} (h : Mirrors p item item') (found : List α) :
    Mirrors p (nextItem item found) (nextItem item' (move p.shift found)) := by
  refine (mirrors_atSymbol _).bind fun atEnd => .ite Iff.rfl (.pure (ForInStep.done found)) ?_
  refine h.bind fun x => (mirrors_atSymbol _).bind fun atClose => ?_
  have hmore : ForInStep.yield (move p.shift found ++ [move p.shift x]) =
      move p.shift (ForInStep.yield (found ++ [x])) :=
    congrArg ForInStep.yield (move_concat p.shift found x).symm
  refine .ite Iff.rfl (.value hmore) ?_
  exact (mirrors_expectSymbol _).discard.bind fun _ => .value hmore

theorem mirrors_items {item item' : ReadM α} (h : Mirrors p item item') :
    Mirrors p (items item) (items item') :=
  (mirrors_loop (mirrors_nextItem h) []).bind fun found =>
    (mirrors_expectSymbol _).bind fun close => .pure (found, close)

end Reader

/-! ## Expressions -/

namespace Expression
open Reader
variable {p : Position} {deeper : Descent}

/-- The readers of a level read the same at the shifted place. -/
structure Level.Mirrors (p : Position) (level : Level) : Prop where
  operand : Reader.Mirrors p level.operand level.operand
  operation (stops : List String) (minimum : Nat) :
    Reader.Mirrors p (level.operation stops minimum) (level.operation stops minimum)

/-- Going down to the next level at the shifted span leads to readers that read the same. -/
def Descent.Mirrors (p : Position) (deeper : Descent) : Prop :=
  ∀ (span : Span) {β : Type} [Movable β] (g g' : Level → ReadM β),
    (∀ level : Level, level.Mirrors p → Reader.Mirrors p (g level) (g' level)) →
      Reader.Mirrors p (deeper span >>= g) (deeper (move p.shift span) >>= g')

theorem mirrors_stringValue (raw : String) (span : Span) :
    Mirrors p (stringValue raw span) (stringValue raw (move p.shift span)) := by
  unfold stringValue
  cases raw.toList with
  | nil => exact .throw ⟨.unclosedString '"', span⟩
  | cons quote inside =>
    dsimp only
    cases Text.Quoted.decode quote inside with
    | ok value => exact .pure (Expression.string (String.ofList value) span)
    | error defect =>
      cases defect with
      | unknownEscape escaped => exact .throw ⟨.unknownEscape escaped, span⟩
      | unclosed => exact .throw ⟨.unclosedString quote, span⟩

theorem mirrors_arguments (hd : deeper.Mirrors p) :
    Mirrors p (arguments deeper) (arguments deeper) :=
  (mirrors_expectSymbol _).bind fun span => hd span _ _ fun _ h => mirrors_items (h.operation _ _)

theorem mirrors_primaryFrom (hd : deeper.Mirrors p) (l : Lexeme) :
    Mirrors p (primaryFrom deeper l) (primaryFrom deeper (move p.shift l)) := by
  obtain ⟨token, span⟩ := l
  have hthrow : Mirrors p (throw (.unexpected .operand ⟨token, span⟩) : ReadM Expression)
      (throw (.unexpected .operand (move p.shift ⟨token, span⟩))) := .throw _
  cases token with
  | number value => exact .pure (Expression.number value span)
  | string raw => exact mirrors_stringValue raw span
  | identifier word => exact .pure (Expression.name ⟨word, span⟩)
  | symbol s =>
    cases s with
    | openParen =>
      exact hd span _ _ fun level h => (h.operation _ _).bind fun inner =>
        (mirrors_expectSymbol _).discard.bind fun _ => .pure inner
    | _ => exact hthrow
  | text run => exact hthrow
  | endOfSource => exact hthrow

theorem mirrors_primary (hd : deeper.Mirrors p) : Mirrors p (primary deeper) (primary deeper) :=
  mirrors_next.bind (mirrors_primaryFrom hd)

/-- The span of two parts is moved with them. -/
theorem combine_move (p : Position) (e : Expression) (s : Span) :
    (move p.shift e).span.combine (move p.shift s) = move p.shift (e.span.combine s) := by
  rw [span_move, Span.move_combine]

theorem mirrors_nextSuffix (hd : deeper.Mirrors p) (e : Expression) :
    Mirrors p (nextSuffix deeper e) (nextSuffix deeper (move p.shift e)) := by
  refine (mirrors_atSymbol _).bind fun atDot => .ite Iff.rfl ?_ ?_
  · refine mirrors_next.discard.bind fun _ => mirrors_variableName.bind fun property => .value ?_
    exact congrArg (fun s => ForInStep.yield (member _ _ s)) (combine_move p e property.span)
  · refine (mirrors_atSymbol _).bind fun atParen => .ite Iff.rfl ?_ (.pure (ForInStep.done e))
    refine (mirrors_arguments hd).bind fun (args, close) => .value ?_
    refine congrArg ForInStep.yield ?_
    rw [show move p.shift (call e args (e.span.combine close)) = _ from move_call ..,
      ← combine_move]

theorem mirrors_term (hd : deeper.Mirrors p) : Mirrors p (term deeper) (term deeper) :=
  (mirrors_primary hd).bind fun e => mirrors_loop (mirrors_nextSuffix hd) e

theorem mirrors_operand (hd : deeper.Mirrors p) : Mirrors p (operand deeper) (operand deeper) := by
  refine mirrors_peek.bind fun l => ?_
  rw [Lexeme.token_move]
  cases sign? l.token with
  | none => exact mirrors_term hd
  | some op =>
    refine mirrors_next.discard.bind fun _ => hd l.span _ _ fun level h =>
      h.operand.bind fun argument => .value ?_
    refine congrArg (unary ⟨op, move p.shift l.span⟩ (move p.shift argument)) ?_
    rw [span_move]
    exact (Span.move_combine p l.span argument.span).symm

theorem mirrors_nextJoint (hd : deeper.Mirrors p) (stops : List String) (minimum : Nat)
    (left : Expression) :
    Mirrors p (nextJoint deeper stops minimum left)
      (nextJoint deeper stops minimum (move p.shift left)) := by
  refine mirrors_peek.bind fun l => ?_
  rw [Lexeme.token_move]
  cases joint? stops minimum l.token with
  | none => exact .pure (ForInStep.done left)
  | some found =>
    obtain ⟨joint, binding⟩ := found
    cases joint with
    | filter =>
      refine mirrors_next.discard.bind fun _ => (mirrors_term hd).bind fun through => .value ?_
      refine congrArg (fun s => ForInStep.yield (filter _ _ s)) ?_
      rw [span_move p.shift through]
      exact combine_move p left through.span
    | binary op =>
      refine mirrors_next.discard.bind fun _ => hd l.span _ _ fun level h =>
        (h.operation _ _).bind fun right => .value ?_
      refine congrArg (fun s => ForInStep.yield
        (binary ⟨op, move p.shift l.span⟩ (move p.shift left) (move p.shift right) s)) ?_
      rw [span_move p.shift right]
      exact combine_move p left right.span

theorem mirrors_operation (hd : deeper.Mirrors p) (stops : List String) (minimum : Nat) :
    Mirrors p (operation deeper stops minimum) (operation deeper stops minimum) :=
  (mirrors_operand hd).bind fun e => mirrors_loop (mirrors_nextJoint hd stops minimum) e

theorem mirrors_descend (n : Nat) : (descend n).Mirrors p := by
  induction n with
  | zero => exact fun span _ _ _ _ _ => .throw ⟨.tooDeep, span⟩
  | succ n ih =>
    intro span _ _ g g' hg
    rw [descend_succ_bind, descend_succ_bind]
    exact hg _ ⟨mirrors_operand ih, mirrors_operation ih⟩

theorem mirrors_read (n : Nat) (stops : List String) : Mirrors p (read n stops) (read n stops) :=
  mirrors_operation (mirrors_descend n) stops 0

theorem mirrors_readFilter (n : Nat) : Mirrors p (readFilter n) (readFilter n) :=
  mirrors_term (mirrors_descend n)

end Expression

/-! ## Tags -/

namespace Draft
open Reader
variable {p : Position} {n : Nat} {opening : Span}

theorem mirrors_endTag : Mirrors p endTag endTag := mirrors_expectSymbol _

theorem mirrors_lastExpression : Mirrors p (lastExpression n) (lastExpression n) :=
  (Expression.mirrors_read _ _).bind fun e => mirrors_endTag.discard.bind fun _ => .pure e

theorem mirrors_nextName (x : List Variable × Span) :
    Mirrors p (nextName x) (nextName (move p.shift x)) := by
  obtain ⟨names, span⟩ := x
  refine (mirrors_atSymbol _).bind fun atComma => .ite Iff.rfl ?_
    (.pure (ForInStep.done (names, span)))
  refine mirrors_next.discard.bind fun _ => mirrors_variableName.bind fun name => .value ?_
  exact congrArg ForInStep.yield (Prod.ext (move_concat p.shift names name).symm
    (Span.move_combine p span name.span).symm)

theorem mirrors_pattern : Mirrors p pattern pattern := by
  refine mirrors_variableName.bind fun first => (mirrors_atSymbol _).bind fun atComma =>
    .ite Iff.rfl ?_ (.pure (Pattern.single first))
  exact (mirrors_loop mirrors_nextName ([first], first.span)).bind fun (names, span) =>
    .pure (Pattern.unpack names span)

theorem mirrors_nextFilter (filters : List Expression) :
    Mirrors p (nextFilter n filters) (nextFilter n (move p.shift filters)) := by
  refine (mirrors_atSymbol _).bind fun atBar => .ite Iff.rfl ?_ (.pure (ForInStep.done filters))
  refine mirrors_next.discard.bind fun _ => (Expression.mirrors_readFilter _).bind fun filter =>
    .value ?_
  exact congrArg ForInStep.yield (move_concat p.shift filters filter).symm

theorem mirrors_placeable :
    Mirrors p (placeable n opening) (placeable n (move p.shift opening)) := by
  refine (Expression.mirrors_read _ _).bind fun value =>
    (mirrors_loop mirrors_nextFilter []).bind fun filters =>
    (mirrors_expectSymbol _).bind fun close => .value ?_
  exact congrArg (Statement.put (move p.shift value) (move p.shift filters))
    (Span.move_combine p opening close).symm

theorem mirrors_loopCondition : Mirrors p (loopCondition n) (loopCondition n) := by
  refine (mirrors_atKeyword _).bind fun atIf => .ite Iff.rfl ?_ (.pure (none : Option Expression))
  exact mirrors_next.discard.bind fun _ => (Expression.mirrors_read _ _).bind fun condition =>
    .pure (some condition)

theorem mirrors_loopHead : Mirrors p (loopHead n) (loopHead n) :=
  mirrors_pattern.bind fun target => (mirrors_expectKeyword _).discard.bind fun _ =>
    (Expression.mirrors_read _ _).bind fun iterable => mirrors_loopCondition.bind fun condition =>
    mirrors_endTag.discard.bind fun _ => .pure (target, iterable, condition)

theorem mirrors_setTag : Mirrors p (setTag n opening) (setTag n (move p.shift opening)) := by
  refine mirrors_pattern.bind fun target => (mirrors_expectSymbol _).discard.bind fun _ =>
    (Expression.mirrors_read _ _).bind fun value => (mirrors_expectSymbol _).bind fun close =>
    .value ?_
  exact congrArg (Statement.assign (move p.shift target) (move p.shift value))
    (Span.move_combine p opening close).symm

theorem mirrors_callArguments : Mirrors p (callArguments n) (callArguments n) := by
  refine (mirrors_atSymbol _).bind fun atParen => .ite Iff.rfl ?_ (.pure ([] : List Expression))
  exact (Expression.mirrors_arguments (Expression.mirrors_descend n)).bind fun (args, _) =>
    .pure args

theorem mirrors_callHead : Mirrors p (callHead n) (callHead n) :=
  mirrors_expectName.bind fun name => mirrors_callArguments.bind fun args =>
    mirrors_endTag.discard.bind fun _ => .pure (name, args)

theorem mirrors_closingName (name : String) : Mirrors p (closingName name) (closingName name) := by
  refine mirrors_peek.bind fun l => ?_
  obtain ⟨token, span⟩ := l
  cases token with
  | identifier closing =>
    exact .ite Iff.rfl mirrors_next.discard (.throw ⟨.wrongBlockName name, span⟩)
  | _ => exact .pure PUnit.unit

theorem mirrors_blockHead : Mirrors p blockHead blockHead :=
  mirrors_expectName.bind fun name => mirrors_endTag.discard.bind fun _ => .pure name

theorem mirrors_blockEnd (name : String) : Mirrors p (blockEnd name) (blockEnd name) :=
  (mirrors_closingName name).bind fun _ => mirrors_endTag

theorem mirrors_parameter : Mirrors p (parameter n) (parameter n) := by
  refine mirrors_expectName.bind fun name => (mirrors_atSymbol _).bind fun atAssign =>
    .ite Iff.rfl ?_ (.value ?_)
  · refine mirrors_next.discard.bind fun _ => (Expression.mirrors_read _ _).bind fun fallback =>
      .value ?_
    refine congrArg (Parameter.mk (move p.shift name) (some (move p.shift fallback))) ?_
    rw [Expression.span_move]
    exact (Span.move_combine p name.span fallback.span).symm
  · exact congrArg (Parameter.mk (move p.shift name) none)
      (Span.move_combine p name.span name.span).symm

theorem mirrors_macroHead : Mirrors p (macroHead n) (macroHead n) :=
  mirrors_expectName.bind fun name => (mirrors_expectSymbol _).discard.bind fun _ =>
    (mirrors_items mirrors_parameter).bind fun (parameters, _) =>
    mirrors_endTag.discard.bind fun _ => .pure (name, parameters)

end Draft
end TemplateSyntax
