import TemplateSyntax.Proofs.Progress

/-!
# Which reader calls which

The readers of expressions and of bodies call each other through the readers that are passed to
them. A `Routine` is one such reader with its arguments, and `Routine.plan` tells what it does:
steps of its own on the draft, calls of routines, and what follows them. The passes of a loop that
are still to come are a routine too; a pass that asks for another one ends in a call of the same
loop. Carrying out the plan of a routine is running the reader itself.
-/
namespace TemplateSyntax
open Reader Expression Draft

/-- The loops of the readers. -/
inductive Repetition : Type → Type where
  /-- Properties and calls behind a term. -/
  | suffixes (n : Nat) : Repetition Expression
  /-- Operators and their right sides. -/
  | joints (n : Nat) (stops : List String) (minimum : Nat) : Repetition Expression
  /-- Arguments of a call. -/
  | arguments (n : Nat) : Repetition (List Expression)
  /-- Parameters of a macro. -/
  | parameters (n : Nat) : Repetition (List Parameter)
  /-- Names of a pattern. -/
  | names : Repetition (List Variable × Span)
  /-- Filters of a placeable. -/
  | filters (n : Nat) : Repetition (List Expression)
  /-- Arms of an `if`. -/
  | arms (n : Nat) : Repetition (List (Arm Statement) × Closing)
  /-- Pieces of a body. -/
  | pieces (n : Nat) (closers : List Keyword) : Repetition (Option Closing)

/-- The words before which an argument ends. -/
def argumentStops : List String := [Symbol.comma.spelling, Symbol.closeParen.spelling]

/-- One pass of a loop. -/
def Repetition.pass {β : Type} : Repetition β → β → DraftM (ForInStep β)
  | suffixes n, e => liftM (nextSuffix (descend n) e)
  | joints n stops minimum, left => liftM (nextJoint (descend n) stops minimum left)
  | arguments n, found => liftM (nextItem (operation (descend n) argumentStops 0) found)
  | parameters n, found => liftM (nextItem (parameter n) found)
  | names, found => liftM (nextName found)
  | filters n, found => liftM (nextFilter n found)
  | arms n, found => nextArm n (body n) found
  | pieces n closers, _ => piece n (body n) closers

/-- A reader of expressions or bodies with its arguments. The number is that of the levels that can
still be opened. -/
inductive Routine : Type → Type 1 where
  | operation (n : Nat) (stops : List String) (minimum : Nat) : Routine Expression
  | operand (n : Nat) : Routine Expression
  | term (n : Nat) : Routine Expression
  | primary (n : Nat) : Routine Expression
  | arguments (n : Nat) : Routine (List Expression × Span)
  | body (n : Nat) (closers : List Keyword) : Routine (Body × Closing)
  | tag (n : Nat) (opening : Span) (name : Identifier) : Routine Unit
  | ifTag (n : Nat) (opening : Span) : Routine Statement
  | forTag (n : Nat) (opening : Span) : Routine Statement
  | callTag (n : Nat) (opening : Span) : Routine Statement
  | filterTag (n : Nat) (opening : Span) : Routine Statement
  | blockTag (n : Nat) (opening : Span) : Routine Statement
  | macroTag (n : Nat) (opening : Span) : Routine Unit
  /-- The passes of a loop that are still to come. -/
  | passes {β : Type} (p : Repetition β) (b : β) : Routine β

/-- The reader itself. -/
def Routine.run {α : Type} : Routine α → DraftM α
  | operation n stops minimum => liftM (Expression.operation (descend n) stops minimum)
  | operand n => liftM (Expression.operand (descend n))
  | term n => liftM (Expression.term (descend n))
  | primary n => liftM (Expression.primary (descend n))
  | arguments n => liftM (Expression.arguments (descend n))
  | body n closers => Draft.body n closers
  | tag n opening word => Draft.tag n (Draft.body n) opening word
  | ifTag n opening => Draft.ifTag n (Draft.body n) opening
  | forTag n opening => Draft.forTag n (Draft.body n) opening
  | callTag n opening => Draft.callTag n (Draft.body n) opening
  | filterTag n opening => Draft.filterTag n (Draft.body n) opening
  | blockTag n opening => Draft.blockTag (Draft.body n) opening
  | macroTag n opening => Draft.macroTag n (Draft.body n) opening
  | passes p b => loop Draft.size p.pass b

/-- What a reader does: steps of its own, and calls of routines. -/
inductive Plan (α : Type) : Type 1 where
  | done (a : α)
  | act {β : Type} (m : DraftM β) (next : β → Plan α)
  | call {β : Type} (c : Routine β) (next : β → Plan α)

namespace Plan
variable {α β : Type}

/-- One plan behind the other. -/
protected def bind : Plan α → (α → Plan β) → Plan β
  | done a, f => f a
  | act m next, f => act m fun x => (next x).bind f
  | call c next, f => call c fun x => (next x).bind f

instance : Monad Plan where
  pure := done
  bind := Plan.bind

instance : MonadLift DraftM Plan where
  monadLift m := act m done

/-- The plan that is one call. -/
def ofCall (c : Routine α) : Plan α := call c done

/-- Carry out a plan. -/
def run : Plan α → DraftM α
  | done a => pure a
  | act m next => m >>= fun x => (next x).run
  | call c next => c.run >>= fun x => (next x).run

/-- Open a level at a span, and go on with the levels that are left then. -/
def opened (n : Nat) (span : Span) (next : Nat → Plan α) : Plan α :=
  match n with
  | 0 => (throw ⟨.tooDeep, span⟩ : DraftM α)
  | n + 1 => next n

/-! ## Plans of the readers -/

def read (n : Nat) (stops : List String) : Plan Expression := ofCall (.operation n stops 0)

def lastExpression (n : Nat) : Plan Expression := do
  let e ← read n [Symbol.endTag.spelling]
  let _ ← endTag
  return e

def pattern : Plan Pattern := do
  let first ← variableName
  if ← atSymbol .comma then
    let (names, span) ← ofCall (.passes .names ([first], first.span))
    return .unpack names span
  else
    return .single first

def placeable (n : Nat) (opening : Span) : Plan Statement := do
  let value ← read n [Symbol.bar.spelling, Symbol.endPut.spelling]
  let filters ← ofCall (.passes (.filters n) [])
  let close ← expectSymbol .endPut
  return .put value filters (opening.combine close)

def items (p : Repetition (List α)) : Plan (List α × Span) := do
  let found ← ofCall (.passes p [])
  let close ← expectSymbol .closeParen
  return (found, close)

def nextItem (item : Plan α) (found : List α) : Plan (ForInStep (List α)) := do
  if ← atSymbol .closeParen then return .done found
  else
    let x ← item
    if ← atSymbol .closeParen then return .yield (found ++ [x])
    else
      let _ ← expectSymbol .comma
      return .yield (found ++ [x])

def parameter (n : Nat) : Plan Parameter := do
  let name ← expectName
  if ← atSymbol .assign then
    let _ ← next
    let fallback ← read n [Symbol.comma.spelling, Symbol.closeParen.spelling]
    return ⟨name, some fallback, name.span.combine fallback.span⟩
  else
    return ⟨name, none, name.span.combine name.span⟩

def setTag (n : Nat) (opening : Span) : Plan Statement := do
  let target ← pattern
  let _ ← expectSymbol .assign
  let value ← read n [Symbol.endTag.spelling]
  let close ← expectSymbol .endTag
  return .assign target value (opening.combine close)

def extendsTag (n : Nat) : Plan Unit := do
  let target ← lastExpression n
  if ← setParent target then return ()
  else (throw ⟨.secondParent, target.span⟩ : DraftM Unit)

def loopCondition (n : Nat) : Plan (Option Expression) := do
  if ← atKeyword .ifWord then
    let _ ← next
    let condition ← read n [Symbol.endTag.spelling]
    return some condition
  else
    return none

def callArguments (n : Nat) : Plan (List Expression) := do
  if ← atSymbol .openParen then
    let (args, _) ← ofCall (.arguments n)
    return args
  else
    return []

end Plan
open Plan

def Repetition.plan {β : Type} : Repetition β → β → Plan (ForInStep β)
  | suffixes n, e => do
    if ← atSymbol .dot then
      let _ ← next
      let property ← variableName
      return .yield (.member e property (e.span.combine property.span))
    else if ← atSymbol .openParen then
      let (args, close) ← ofCall (.arguments n)
      return .yield (.call e args (e.span.combine close))
    else
      return .done e
  | joints n stops minimum, left => do
    let l ← peek
    match joint? stops minimum l.token with
    | none => return .done left
    | some (.filter, _) =>
      let _ ← next
      let filter ← ofCall (.term n)
      return .yield (.filter left filter (left.span.combine filter.span))
    | some (.binary op, binding) =>
      let _ ← next
      opened n l.span fun n => do
        let right ← ofCall (.operation n stops binding.rightMinimum)
        return .yield (.binary ⟨op, l.span⟩ left right (left.span.combine right.span))
  | arguments n, found => Plan.nextItem (ofCall (.operation n argumentStops 0)) found
  | parameters n, found => Plan.nextItem (Plan.parameter n) found
  | names, (found, span) => do
    if ← atSymbol .comma then
      let _ ← next
      let name ← variableName
      return .yield (found ++ [name], span.combine name.span)
    else
      return .done (found, span)
  | filters n, found => do
    if ← atSymbol .bar then
      let _ ← next
      let filter ← ofCall (.term n)
      return .yield (found ++ [filter])
    else
      return .done found
  | arms n, (found, closing) => do
    if closing.keyword = .elifWord then
      let condition ← Plan.lastExpression n
      let (scope, next) ← ofCall (.body n armClosers)
      let arm : Arm Statement := ⟨condition, scope.body, ⟨closing.opening.start, next.span.stop⟩⟩
      return .yield (found ++ [arm], next)
    else
      return .done (found, closing)
  | pieces n closers, _ => do
    match ← opening with
    | none => return .done none
    | some l =>
      match l.token with
      | .symbol .beginPut =>
        push (← Plan.placeable n l.span)
        return .yield none
      | .symbol .beginTag =>
        let name ← expectName
        note (.tag name.value name.span)
        match closers.find? (·.spelling = name.value) with
        | some keyword => return .done (some ⟨keyword, l.span, name.span⟩)
        | none =>
          ofCall (.tag n l.span name)
          return .yield none
      | _ => (throw (.unexpected .opening l) : DraftM _)

def Routine.plan {α : Type} : Routine α → Plan α
  | operation n stops minimum => do
    let e ← ofCall (.operand n)
    ofCall (.passes (.joints n stops minimum) e)
  | operand n => do
    let l ← peek
    match sign? l.token with
    | none => ofCall (.term n)
    | some op =>
      let _ ← next
      opened n l.span fun n => do
        let argument ← ofCall (.operand n)
        return .unary ⟨op, l.span⟩ argument (l.span.combine argument.span)
  | term n => do
    let e ← ofCall (.primary n)
    ofCall (.passes (.suffixes n) e)
  | primary n => do
    let l ← next
    match l.token with
    | .number value => return .number value l.span
    | .string raw => stringValue raw l.span
    | .identifier word => return .name ⟨word, l.span⟩
    | .symbol .openParen =>
      opened n l.span fun n => do
        let inner ← ofCall (.operation n [Symbol.closeParen.spelling] 0)
        let _ ← expectSymbol .closeParen
        return inner
    | _ => (throw (.unexpected .operand l) : ReadM Expression)
  | arguments n => do
    let opening ← expectSymbol .openParen
    opened n opening fun n => Plan.items (.arguments n)
  | body 0 _ => do
    let place ← position
    (throw ⟨.tooDeep, .empty place⟩ : DraftM (Body × Closing))
  | body (n + 1) closers => do
    openBody
    match ← ofCall (.passes (.pieces n closers) none) with
    | some closing => return (← closeBody closing.opening.start, closing)
    | none =>
      let place ← position
      (throw ⟨.unclosedBody closers, .empty place⟩ : DraftM (Body × Closing))
  | tag n opening word => do
    match Keyword.ofSpelling? word.value with
    | some .ifWord => push (← ofCall (.ifTag n opening))
    | some .forWord => push (← ofCall (.forTag n opening))
    | some .setWord => push (← Plan.setTag n opening)
    | some .callWord => push (← ofCall (.callTag n opening))
    | some .filterWord => push (← ofCall (.filterTag n opening))
    | some .blockWord => push (← ofCall (.blockTag n opening))
    | some .macroWord => ofCall (.macroTag n opening)
    | some .extendsWord => Plan.extendsTag n
    | _ => (throw ⟨.unknownTag word.value, word.span⟩ : DraftM Unit)
  | ifTag n opening => do
    let condition ← Plan.lastExpression n
    let (first, closing) ← ofCall (.body n armClosers)
    let (arms, closing) ← ofCall (.passes (.arms n)
      ([⟨condition, first.body, ⟨opening.start, closing.span.stop⟩⟩], closing))
    if closing.keyword = .elseWord then
      let _ ← endTag
      let boundary := closing.opening.start
      let (scope, last) ← ofCall (.body n [.endIf])
      let _ ← endTag
      let arm : Arm Statement :=
        ⟨.boolean true (.empty boundary), scope.body, ⟨boundary, last.span.stop⟩⟩
      return .cases (arms ++ [arm]) ⟨opening.start, last.span.stop⟩
    else
      let _ ← endTag
      return .cases arms ⟨opening.start, closing.span.stop⟩
  | forTag n opening => do
    let target ← Plan.pattern
    let _ ← expectKeyword .inWord
    let iterable ← Plan.read n [Keyword.ifWord.spelling, Symbol.endTag.spelling]
    let condition ← Plan.loopCondition n
    let _ ← endTag
    let (main, closing) ← ofCall (.body n [.elseWord, .endFor])
    if closing.keyword = .elseWord then
      let _ ← endTag
      let (alternative, last) ← ofCall (.body n [.endFor])
      let _ ← endTag
      return .loop target iterable condition main (some alternative.body)
        ⟨opening.start, last.span.stop⟩
    else
      let _ ← endTag
      return .loop target iterable condition main none ⟨opening.start, closing.span.stop⟩
  | callTag n opening => do
    let name ← expectName
    let args ← Plan.callArguments n
    let _ ← endTag
    let (scope, closing) ← ofCall (.body n [.endCall])
    let _ ← endTag
    return .macroCall name args scope ⟨opening.start, closing.span.stop⟩
  | filterTag n opening => do
    let filter ← Plan.lastExpression n
    let (scope, closing) ← ofCall (.body n [.endFilter])
    let _ ← endTag
    return .filterBlock filter scope ⟨opening.start, closing.span.stop⟩
  | blockTag n opening => do
    let name ← blockHead
    let (scope, _) ← ofCall (.body n [.endBlock])
    let close ← blockEnd name.value
    let span := opening.combine close
    define (.ofBlock ⟨name, scope, span⟩)
    return .blockCall name span
  | macroTag n opening => do
    let name ← expectName
    let _ ← expectSymbol .openParen
    let (parameters, _) ← Plan.items (.parameters n)
    let _ ← endTag
    let (scope, closing) ← ofCall (.body n [.endMacro])
    let _ ← endTag
    define (.ofMacro ⟨name, parameters, scope, ⟨opening.start, closing.span.stop⟩⟩)
  | passes p b => do
    match ← p.plan b with
    | .done b' => return b'
    | .yield b' => ofCall (.passes p b')

/-! ## Carrying out plans -/

section Lifting
variable {α β : Type}

theorem lift_pure (a : α) : (liftM (pure a : ReadM α) : DraftM α) = pure a := rfl

theorem lift_bind (m : ReadM α) (f : α → ReadM β) :
    (liftM (m >>= f) : DraftM β) = liftM m >>= fun a => liftM (f a) := by
  funext d
  simp only [run_lift, run_bind]
  cases m d.reader <;> rfl

/-- A loop of a reader is the same loop on the draft. -/
theorem lift_loop (step : β → ReadM (ForInStep β)) (b : β) :
    (liftM (loop Reader.size step b) : DraftM β) =
      loop Draft.size (fun b => (liftM (step b) : DraftM _)) b := by
  funext d
  generalize hn : d.size = n
  induction n using Nat.strong_induction_on generalizing d b with
  | h n ih =>
    rw [run_lift, loop, loop, run_lift]
    cases hr : step b d.reader with
    | error f t => rfl
    | ok r t =>
      cases r with
      | done b' => rfl
      | yield b' =>
        dsimp only
        by_cases hlt : t.size < d.reader.size
        · have hlt' : Draft.size { d with reader := t } < d.size := hlt
          rw [if_pos hlt, if_pos hlt']
          exact ih _ (hn ▸ hlt) b' { d with reader := t } rfl
        · have hlt' : ¬ Draft.size { d with reader := t } < d.size := hlt
          rw [if_neg hlt, if_neg hlt']

end Lifting

namespace Plan
variable {α β : Type}

@[simp] theorem run_pure (a : α) : (pure a : Plan α).run = pure a := rfl

@[simp] theorem run_bind (p : Plan α) (f : α → Plan β) :
    (p >>= f).run = p.run >>= fun a => (f a).run := by
  change (p.bind f).run = _
  induction p with
  | done a => exact (pure_bind a fun a => (f a).run).symm
  | act m next ih => simp only [Plan.bind, run, ih, bind_assoc]
  | call c next ih => simp only [Plan.bind, run, ih, bind_assoc]

@[simp] theorem run_act (m : DraftM α) : (liftM m : Plan α).run = m := bind_pure m

@[simp] theorem run_read (m : ReadM α) : (liftM m : Plan α).run = liftM m :=
  bind_pure (liftM m : DraftM α)

@[simp] theorem run_ofCall (c : Routine α) : (ofCall c).run = c.run := bind_pure c.run

/-- Going down to the next level and on from there is opening a level. -/
theorem run_opened {f : Level → ReadM β} {next : Nat → Plan β} {n : Nat} {span : Span}
    (h : ∀ n, (liftM (f ⟨Expression.operand (descend n), Expression.operation (descend n)⟩)
      : DraftM β) = (next n).run) :
    (liftM (descend n span >>= f) : DraftM β) = (opened n span next).run := by
  cases n with
  | zero => rfl
  | succ n => exact h n

theorem run_lastExpression (n : Nat) :
    (lastExpression n).run = liftM (Draft.lastExpression n) := by
  simp only [lastExpression, read, Draft.lastExpression, run_bind, run_ofCall, run_read, run_pure,
    lift_bind, discard_bind, lift_pure]
  rfl

theorem run_pattern : pattern.run = liftM Draft.pattern := by
  simp only [pattern, Draft.pattern, run_bind, run_read, lift_bind]
  refine bind_congr fun first => bind_congr fun atComma => ?_
  cases atComma with
  | false => rfl
  | true =>
    simp only [if_true, run_bind, run_ofCall, lift_bind, lift_loop, Routine.run]
    rfl

theorem run_placeable (n : Nat) (opening : Span) :
    (placeable n opening).run = liftM (Draft.placeable n opening) := by
  simp only [placeable, read, Draft.placeable, run_bind, run_ofCall, run_read, run_pure, lift_bind,
    lift_loop, lift_pure, Routine.run]
  rfl

theorem run_items {α : Type} {p : Repetition (List α)} {item : ReadM α}
    (h : ∀ found, p.pass found = liftM (Reader.nextItem item found)) :
    (items p).run = liftM (Reader.items item) := by
  simp only [items, Reader.items, run_bind, run_ofCall, run_read, run_pure, lift_bind, lift_loop,
    lift_pure, Routine.run]
  rw [funext h]

theorem run_nextItem {α : Type} {p : Plan α} {item : ReadM α} (h : p.run = liftM item)
    (found : List α) : (nextItem p found).run = liftM (Reader.nextItem item found) := by
  simp only [nextItem, Reader.nextItem, run_bind, run_read, lift_bind]
  refine bind_congr fun atEnd => ?_
  cases atEnd with
  | true => rfl
  | false =>
    simp only [Bool.false_eq_true, if_false, run_bind, run_read, lift_bind, h]
    refine bind_congr fun x => bind_congr fun atClose => ?_
    cases atClose with
    | true => rfl
    | false =>
      simp only [Bool.false_eq_true, if_false, run_bind, run_read, discard_bind, lift_bind]
      rfl

theorem run_parameter (n : Nat) : (parameter n).run = liftM (Draft.parameter n) := by
  simp only [parameter, read, Draft.parameter, run_bind, run_read, lift_bind]
  refine bind_congr fun name => bind_congr fun atAssign => ?_
  cases atAssign with
  | false => rfl
  | true =>
    simp only [if_true, run_bind, run_ofCall, run_read, lift_bind, discard_bind]
    rfl

theorem run_setTag (n : Nat) (opening : Span) :
    (setTag n opening).run = liftM (Draft.setTag n opening) := by
  simp only [setTag, read, Draft.setTag, run_bind, run_ofCall, run_read, run_pure, run_pattern,
    lift_bind, discard_bind, lift_pure, Routine.run, Expression.read]

theorem run_extendsTag (n : Nat) : (extendsTag n).run = Draft.extendsTag n := by
  simp only [extendsTag, Draft.extendsTag, run_bind, run_act, run_lastExpression]
  refine bind_congr fun target => bind_congr fun first => ?_
  cases first <;> rfl

theorem run_loopCondition (n : Nat) : (loopCondition n).run = liftM (Draft.loopCondition n) := by
  simp only [loopCondition, read, Draft.loopCondition, run_bind, run_read, lift_bind]
  refine bind_congr fun atIf => ?_
  cases atIf with
  | false => rfl
  | true =>
    simp only [if_true, run_bind, run_ofCall, run_read, lift_bind, discard_bind]
    rfl

theorem run_callArguments (n : Nat) : (callArguments n).run = liftM (Draft.callArguments n) := by
  simp only [callArguments, Draft.callArguments, run_bind, run_read, lift_bind]
  refine bind_congr fun atParen => ?_
  cases atParen with
  | false => rfl
  | true =>
    simp only [if_true, run_bind, run_ofCall, lift_bind]
    rfl

end Plan

namespace Repetition
variable {β : Type}

theorem descends_pass (p : Repetition β) : Descends Draft.size p.pass := by
  have lifted {step : β → ReadM (ForInStep β)} (h : Descends Reader.size step) :
      Descends Draft.size fun b => (liftM (step b) : DraftM _) := by
    intro b d b' t hr
    change (liftM (step b) : DraftM _) d = _ at hr
    rw [run_lift] at hr
    split at hr
    next hs => cases hr; exact h b _ b' _ hs
    next => cases hr
  cases p with
  | suffixes n => exact lifted (descends_nextSuffix (tokenWise_descend n))
  | joints n stops minimum => exact lifted (descends_nextJoint (tokenWise_descend n) stops minimum)
  | arguments n =>
    exact lifted (descends_nextItem (consumes_operation (tokenWise_descend n) _ 0))
  | parameters n => exact lifted (descends_nextItem consumes_parameter)
  | names => exact lifted descends_nextName
  | filters n => exact lifted descends_nextFilter
  | arms n => exact descends_nextArm (pieceWise_body n)
  | pieces n closers => exact descends_piece (pieceWise_body n) closers

theorem run_plan_suffixes (n : Nat) (e : Expression) :
    ((suffixes n).plan e).run = (suffixes n).pass e := by
  simp only [plan, pass, nextSuffix, Plan.run_bind, run_read, lift_bind]
  refine bind_congr fun atDot => ?_
  cases atDot with
  | true =>
    simp only [if_true, Plan.run_bind, run_read, discard_bind, lift_bind]
    rfl
  | false =>
    simp only [Bool.false_eq_true, if_false, Plan.run_bind, run_read, lift_bind]
    refine bind_congr fun atParen => ?_
    cases atParen with
    | true =>
      simp only [if_true, Plan.run_bind, run_ofCall, lift_bind]
      rfl
    | false => rfl

theorem run_plan_joints (n : Nat) (stops : List String) (minimum : Nat) (left : Expression) :
    ((joints n stops minimum).plan left).run = (joints n stops minimum).pass left := by
  simp only [plan, pass, nextJoint, Plan.run_bind, run_read, lift_bind]
  refine bind_congr fun l => ?_
  rcases joint? stops minimum l.token with - | ⟨- | op, binding⟩
  · rfl
  · simp only [Plan.run_bind, run_ofCall, run_read, discard_bind, lift_bind]
    rfl
  · simp only [Plan.run_bind, run_read, discard_bind]
    rw [lift_bind]
    refine bind_congr fun _ => (run_opened fun n => ?_).symm
    simp only [Plan.run_bind, run_ofCall, lift_bind]
    rfl

theorem run_plan_names (found : List Variable) (span : Span) :
    (names.plan (found, span)).run = names.pass (found, span) := by
  simp only [plan, pass, nextName, Plan.run_bind, run_read, lift_bind]
  refine bind_congr fun atComma => ?_
  cases atComma with
  | false => rfl
  | true =>
    simp only [if_true, Plan.run_bind, run_read, discard_bind, lift_bind]
    rfl

theorem run_plan_filters (n : Nat) (found : List Expression) :
    ((filters n).plan found).run = (filters n).pass found := by
  simp only [plan, pass, nextFilter, Plan.run_bind, run_read, lift_bind]
  refine bind_congr fun atBar => ?_
  cases atBar with
  | false => rfl
  | true =>
    simp only [if_true, Plan.run_bind, run_ofCall, run_read, discard_bind, lift_bind]
    rfl

theorem run_plan_arms (n : Nat) (found : List (Arm Statement)) (closing : Closing) :
    ((arms n).plan (found, closing)).run = (arms n).pass (found, closing) := by
  simp only [plan, pass, nextArm]
  split
  · simp only [Plan.run_bind, run_ofCall, run_lastExpression]
    rfl
  · rfl

theorem run_plan_pieces (n : Nat) (closers : List Keyword) (b : Option Closing) :
    ((pieces n closers).plan b).run = (pieces n closers).pass b := by
  simp only [plan, pass, piece, Plan.run_bind, run_act]
  refine bind_congr fun found => ?_
  cases found with
  | none => rfl
  | some l =>
    obtain ⟨token, span⟩ := l
    cases token with
    | symbol s =>
      cases s with
      | beginPut =>
        simp only [Plan.run_bind, run_act, run_placeable]
        rfl
      | beginTag =>
        simp only [Plan.run_bind, run_act, run_read]
        refine bind_congr fun name => bind_congr fun _ => ?_
        cases closers.find? (·.spelling = name.value) with
        | some keyword => rfl
        | none =>
          simp only [Plan.run_bind, run_ofCall]
          rfl
      | _ => rfl
    | _ => rfl

/-- Carrying out the plan of a pass is making the pass. -/
theorem run_plan (p : Repetition β) (b : β) : (p.plan b).run = p.pass b := by
  cases p with
  | suffixes n => exact run_plan_suffixes n b
  | joints n stops minimum => exact run_plan_joints n stops minimum b
  | arguments n => exact run_nextItem (run_ofCall _) b
  | parameters n => exact run_nextItem (run_parameter n) b
  | names => exact run_plan_names b.1 b.2
  | filters n => exact run_plan_filters n b
  | arms n => exact run_plan_arms n b.1 b.2
  | pieces n closers => exact run_plan_pieces n closers b

end Repetition

namespace Routine
variable {α : Type}

theorem run_plan_operand (n : Nat) : (operand n).plan.run = (operand n).run := by
  simp only [plan, run, Expression.operand, Plan.run_bind, run_read, lift_bind]
  refine bind_congr fun l => ?_
  cases sign? l.token with
  | none => exact run_ofCall _
  | some op =>
    simp only [Plan.run_bind, run_read, discard_bind]
    rw [lift_bind]
    refine bind_congr fun _ => (run_opened fun n => ?_).symm
    simp only [Plan.run_bind, run_ofCall, lift_bind]
    rfl

theorem run_plan_primary (n : Nat) : (primary n).plan.run = (primary n).run := by
  simp only [plan, run, Expression.primary, primaryFrom, Plan.run_bind, run_read, lift_bind]
  refine bind_congr fun l => ?_
  obtain ⟨token, span⟩ := l
  cases token with
  | number value => rfl
  | string raw => exact run_read _
  | identifier word => rfl
  | symbol s =>
    by_cases hs : s = .openParen
    · subst hs
      refine (run_opened fun n => ?_).symm
      simp only [Plan.run_bind, run_ofCall, run_read, discard_bind, lift_bind]
      rfl
    · cases s <;> first | rfl | exact (hs rfl).elim
  | text _ => rfl
  | endOfSource => rfl

theorem run_plan_arguments (n : Nat) : (arguments n).plan.run = (arguments n).run := by
  simp only [plan, run, Expression.arguments, Plan.run_bind, run_read]
  rw [lift_bind]
  exact bind_congr fun opening => (run_opened fun n => (run_items fun _ => rfl).symm).symm

theorem run_plan_body (n : Nat) (closers : List Keyword) :
    (body n closers).plan.run = (body n closers).run := by
  cases n with
  | zero => rfl
  | succ n =>
    simp only [plan, run, Draft.body, Plan.run_bind, run_act, run_ofCall]
    refine bind_congr fun _ => bind_congr fun closing => ?_
    cases closing <;> rfl

theorem run_plan_tag (n : Nat) (opening : Span) (word : Identifier) :
    (tag n opening word).plan.run = (tag n opening word).run := by
  simp only [plan, run, Draft.tag]
  generalize Keyword.ofSpelling? word.value = keyword
  cases keyword with
  | none => rfl
  | some keyword =>
    cases keyword with
    | setWord => simp only [Plan.run_bind, run_act, run_setTag]
    | extendsWord => exact run_extendsTag n
    | ifWord | forWord | callWord | filterWord | blockWord =>
      simp only [Plan.run_bind, run_act, run_ofCall]
      rfl
    | macroWord => exact run_ofCall _
    | _ => rfl

theorem run_plan_ifTag (n : Nat) (opening : Span) :
    (ifTag n opening).plan.run = (ifTag n opening).run := by
  simp only [plan, run, Draft.ifTag, Plan.run_bind, run_ofCall, run_lastExpression]
  refine bind_congr fun condition => bind_congr fun (first, closing) =>
    bind_congr fun (arms, closing) => ?_
  dsimp only
  split
  · simp only [Plan.run_bind, run_read, run_ofCall, discard_bind]
    rfl
  · simp only [Plan.run_bind, run_read, discard_bind]
    rfl

theorem run_plan_forTag (n : Nat) (opening : Span) :
    (forTag n opening).plan.run = (forTag n opening).run := by
  simp only [plan, Plan.read, run, Draft.forTag, loopHead, Plan.run_bind, run_read, run_ofCall,
    run_pattern, run_loopCondition, discard_bind, lift_bind, bind_assoc, lift_pure, pure_bind]
  refine bind_congr fun target => bind_congr fun _ => bind_congr fun iterable =>
    bind_congr fun condition => bind_congr fun _ => bind_congr fun (main, closing) => ?_
  dsimp only
  split
  · simp only [Plan.run_bind, run_read, run_ofCall]
    rfl
  · simp only [Plan.run_bind, run_read]
    rfl

theorem run_plan_callTag (n : Nat) (opening : Span) :
    (callTag n opening).plan.run = (callTag n opening).run := by
  simp only [plan, run, Draft.callTag, callHead, Plan.run_bind, run_read, run_ofCall,
    run_callArguments, discard_bind, lift_bind, bind_assoc, lift_pure, pure_bind]
  rfl

theorem run_plan_filterTag (n : Nat) (opening : Span) :
    (filterTag n opening).plan.run = (filterTag n opening).run := by
  simp only [plan, run, Draft.filterTag, Plan.run_bind, run_read, run_ofCall, run_lastExpression,
    discard_bind]
  rfl

theorem run_plan_blockTag (n : Nat) (opening : Span) :
    (blockTag n opening).plan.run = (blockTag n opening).run := by
  simp only [plan, run, Draft.blockTag, Plan.run_bind, run_read, run_act, run_ofCall]
  rfl

theorem run_plan_macroTag (n : Nat) (opening : Span) :
    (macroTag n opening).plan.run = (macroTag n opening).run := by
  simp only [plan, run, Draft.macroTag, macroHead, Plan.run_bind, run_read, run_act, run_ofCall,
    discard_bind, lift_bind, bind_assoc, lift_pure, pure_bind,
    run_items (p := .parameters n) fun _ => rfl]

/-- Carrying out the plan of a routine is running the reader. -/
theorem run_plan (c : Routine α) : c.plan.run = c.run := by
  cases c with
  | operation n stops minimum =>
    simp only [plan, run, Expression.operation, Plan.run_bind, run_ofCall, lift_bind, lift_loop]
    rfl
  | operand n => exact run_plan_operand n
  | term n =>
    simp only [plan, run, Expression.term, Plan.run_bind, run_ofCall, lift_bind, lift_loop]
    rfl
  | primary n => exact run_plan_primary n
  | arguments n => exact run_plan_arguments n
  | body n closers => exact run_plan_body n closers
  | tag n opening word => exact run_plan_tag n opening word
  | ifTag n opening => exact run_plan_ifTag n opening
  | forTag n opening => exact run_plan_forTag n opening
  | callTag n opening => exact run_plan_callTag n opening
  | filterTag n opening => exact run_plan_filterTag n opening
  | blockTag n opening => exact run_plan_blockTag n opening
  | macroTag n opening => exact run_plan_macroTag n opening
  | passes p b =>
    simp only [plan, run, Plan.run_bind, p.run_plan]
    rw [loop_eq p.descends_pass]
    refine bind_congr fun r => ?_
    cases r with
    | done b' => rfl
    | yield b' => exact run_ofCall _

end Routine
end TemplateSyntax
