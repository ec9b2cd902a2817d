import TemplateSyntax.Proofs.Nodes
import TemplateSyntax.Proofs.Progress
import TemplateSyntax.Proofs.Session

/-!
# How deep the nodes of a template nest

A body, an argument, the right side of an operator and the operand of a sign are read a level deeper
than the node they belong to; all other parts of a node are read in its own level. So no way down a
template goes through more of the former than there are levels. It may go through any number of the
latter: the left side of an operator, the value of a filter, and what a property or a call is taken
of.
-/
namespace TemplateSyntax

namespace Node

/-- The children that are read a level deeper than their parent. -/
def deeper : Node → List Node
  | expression (.call _ args _) => args.map expression
  | expression (.binary _ _ right _) => [expression right]
  | expression (.unary _ argument _) => [expression argument]
  | statement (.loop _ _ _ body alternative _) =>
    scope body :: (alternative.getD []).map statement
  | statement (.macroCall _ args body _) => args.map expression ++ [scope body]
  | statement (.filterBlock _ body _) => [scope body]
  | arm a => a.body.map statement
  | ofMacro m => [scope m.body]
  | ofBlock b => [scope b.body]
  | _ => []

/-- The children that are read in the level of their parent. -/
def beside : Node → List Node
  | expression (.call function _ _) => [expression function]
  | expression (.binary op left _ _) => [expression left, operator op]
  | expression (.unary op _ _) => [operator op]
  | statement (.loop target iterable condition _ _ _) =>
    pattern target :: expression iterable :: condition.toList.map expression
  | statement (.macroCall called _ _ _) => [identifier called]
  | statement (.filterBlock filter _ _) => [expression filter]
  | arm a => [expression a.condition]
  | ofMacro m => identifier m.name :: m.parameters.map parameter
  | ofBlock b => [identifier b.name]
  | n => n.children

theorem mem_children_iff {n c : Node} : c ∈ n.children ↔ c ∈ n.beside ∨ c ∈ n.deeper := by
  cases n with
  | expression e => cases e <;> simp [children, beside, deeper]; tauto
  | statement s => cases s <;> simp [children, beside, deeper, or_assoc]
  | arm a => simp [children, beside, deeper]
  | ofMacro m => simp [children, beside, deeper, or_assoc]
  | _ => simp [children, beside, deeper]

/-- There is a way down from the first node to the second that opens this many levels. -/
inductive Opens : Nat → Node → Node → Prop
  | refl (n : Node) : Opens 0 n n
  | beside {k : Nat} {a b c : Node} (h : b ∈ a.beside) (hb : Opens k b c) : Opens k a c
  | deeper {k : Nat} {a b c : Node} (h : b ∈ a.deeper) (hb : Opens k b c) : Opens (k + 1) a c

/-- Whatever is in a template can be come to by some way down. -/
theorem exists_opens_of_within {a b : Node} (h : Relation.ReflTransGen HasChild a b) :
    ∃ k, Opens k a b := by
  induction h using Relation.ReflTransGen.head_induction_on with
  | refl => exact ⟨0, .refl _⟩
  | head hc _ ih =>
    obtain ⟨k, hk⟩ := ih
    rcases mem_children_iff.mp hc with h | h
    · exact ⟨k, .beside h hk⟩
    · exact ⟨k + 1, .deeper h hk⟩

/-- No way down from the node opens more levels than these. -/
def Shallow (levels : Nat) (n : Node) : Prop := ∀ k m, Opens k n m → k ≤ levels

/-- Every way down from the node opens fewer levels than these. -/
def Below (levels : Nat) (n : Node) : Prop := ∃ fewer < levels, n.Shallow fewer

variable {levels more : Nat} {n : Node}

theorem Shallow.mono (h : n.Shallow levels) (hle : levels ≤ more) : n.Shallow more :=
  fun k m hk => Nat.le_trans (h k m hk) hle

theorem Shallow.below (h : n.Shallow levels) : n.Below (levels + 1) :=
  ⟨levels, Nat.lt_succ_self _, h⟩

theorem Below.shallow (h : n.Below levels) : n.Shallow levels := by
  obtain ⟨fewer, hlt, hn⟩ := h
  exact hn.mono (Nat.le_of_lt hlt)

theorem shallow_of_parts (hbeside : ∀ c ∈ n.beside, c.Shallow levels)
    (hdeeper : ∀ c ∈ n.deeper, c.Below levels) : n.Shallow levels := by
  intro k m hk
  cases hk with
  | refl => exact Nat.zero_le _
  | beside h hb => exact hbeside _ h _ _ hb
  | deeper h hb =>
    obtain ⟨fewer, hlt, hc⟩ := hdeeper _ h
    have hle := hc _ _ hb
    omega

theorem shallow_of_no_children (hbeside : n.beside = []) (hdeeper : n.deeper = []) :
    n.Shallow levels :=
  shallow_of_parts (by simp [hbeside]) (by simp [hdeeper])

theorem shallow_name (v : Variable) : (name v).Shallow levels := shallow_of_no_children rfl rfl

theorem shallow_identifier (i : Identifier) : (identifier i).Shallow levels :=
  shallow_of_no_children rfl rfl

theorem shallow_operator (o : WrittenOperator) : (operator o).Shallow levels :=
  shallow_of_no_children rfl rfl

theorem shallow_pattern (p : Pattern) : (pattern p).Shallow levels := by
  cases p with
  | single v => exact shallow_of_no_children rfl rfl
  | unpack names span =>
    refine shallow_of_parts (fun c hc => ?_) (by simp [deeper])
    obtain ⟨v, -, rfl⟩ := List.mem_map.mp hc
    exact shallow_name v

end Node

/-- An expression that opens at most this many levels. -/
abbrev Expression.Shallow (levels : Nat) (e : Expression) : Prop :=
  (Node.expression e).Shallow levels

/-- An expression that opens fewer levels than these. -/
abbrev Expression.Below (levels : Nat) (e : Expression) : Prop := (Node.expression e).Below levels

/-! ## Values of computations -/

/-- Where the invariant holds, every value of the computation is as stated, and the invariant holds
behind it. -/
def Gives {σ α : Type} (I : σ → Prop) (m : EStateM Fault σ α) (Q : α → Prop) : Prop :=
  Ensures I m (fun a s => Q a ∧ I s) fun _ _ => True

/-- What a pass of a loop hands on, or ends the loop with. -/
def HandsOn {β : Type} (Q : β → Prop) : ForInStep β → Prop
  | .done b | .yield b => Q b

namespace Gives
variable {σ α β : Type} {I : σ → Prop} {Q : α → Prop} {R : β → Prop}

theorem pure {a : α} (h : Q a) : Gives I (pure a : EStateM Fault σ α) Q :=
  Ensures.pure fun _ hs => ⟨h, hs⟩

theorem throw (f : Fault) : Gives I (throw f : EStateM Fault σ α) Q :=
  Ensures.throw fun _ _ => trivial

theorem bind {m : EStateM Fault σ α} {f : α → EStateM Fault σ β} (hm : Gives I m Q)
    (hf : ∀ a, Q a → Gives I (f a) R) : Gives I (m >>= f) R :=
  Ensures.bind hm fun a => Ensures.given (hf a)

theorem after {m : EStateM Fault σ α} {Q' : α → Prop} (hm : Gives I m Q) (h : ∀ a, Q a → Q' a) :
    Gives I m Q' :=
  Ensures.after hm fun a _ ha => ⟨h a ha.1, ha.2⟩

theorem discard {m : EStateM Fault σ α} (hm : Gives I m Q) :
    Gives I (discard m : EStateM Fault σ PUnit) fun _ => True :=
  hm.bind fun _ _ => pure trivial

theorem loop {size : σ → Nat} {step : β → EStateM Fault σ (ForInStep β)}
    (h : ∀ b, R b → Gives I (step b) (HandsOn R)) {b : β} (hb : R b) :
    Gives I (loop size step b) R := by
  refine (Ensures.loop_weak (I := fun b s => R b ∧ I s) (fun b => ?_) b).before
    fun s hs => ⟨hb, hs⟩
  refine Ensures.given fun hb => Ensures.after (h b hb) fun r s hr => ?_
  cases r <;> exact hr

end Gives

namespace Reader
variable {α β : Type} {Q : α → Prop} {R : β → Prop}

/-- Every value of the reader is as stated. -/
abbrev Gives (m : ReadM α) (Q : α → Prop) : Prop := TemplateSyntax.Gives (fun _ => True) m Q

theorem gives_any (m : ReadM α) : Gives m fun _ => True := by
  intro r _
  cases m r with
  | ok a r' => exact ⟨trivial, trivial⟩
  | error f r' => trivial

/-- What a reader gives does not depend on tokens that it only takes. -/
theorem gives_behind {m : ReadM α} {f : α → ReadM β} (hf : ∀ a, Gives (f a) R) :
    Gives (m >>= f) R := (gives_any m).bind fun a _ => hf a

theorem gives_nextItem {item : ReadM α} (h : Gives item Q) {found : List α}
    (hfound : ∀ x ∈ found, Q x) :
    Gives (nextItem item found) (HandsOn fun xs => ∀ x ∈ xs, Q x) := by
  refine gives_behind fun atEnd => ?_
  split
  · exact .pure hfound
  · refine h.bind fun x hx => gives_behind fun atClose => ?_
    have hmore : ∀ y ∈ found ++ [x], Q y := by
      intro y hy
      rcases List.mem_append.mp hy with hy | hy
      · exact hfound y hy
      · rwa [List.mem_singleton.mp hy]
    split
    · exact .pure hmore
    · exact gives_behind fun _ => .pure hmore

theorem gives_items {item : ReadM α} (h : Gives item Q) :
    Gives (items item) fun r => ∀ x ∈ r.1, Q x :=
  (Gives.loop (fun _ => gives_nextItem h) (by simp)).bind fun _ hfound =>
    gives_behind fun _ => .pure hfound

end Reader

/-! ## Expressions -/

namespace Expression
open Node
variable {levels : Nat} {deeper : Descent}

theorem shallow_member {object : Expression} (h : object.Shallow levels) (property : Variable)
    (span : Span) : (member object property span).Shallow levels := by
  refine shallow_of_parts ?_ (by simp [Node.deeper])
  simpa [beside, children] using ⟨h, shallow_name property⟩

theorem shallow_call {function : Expression} {args : List Expression}
    (h : function.Shallow levels) (hargs : ∀ a ∈ args, a.Below levels) (span : Span) :
    (call function args span).Shallow levels :=
  shallow_of_parts (by simpa [beside] using h) (by simpa [Node.deeper] using hargs)

theorem shallow_binary {left right : Expression} (h : left.Shallow levels)
    (hright : right.Below levels) (op : WrittenOperator) (span : Span) :
    (binary op left right span).Shallow levels := by
  refine shallow_of_parts ?_ (by simpa [Node.deeper] using hright)
  simpa [beside] using ⟨h, shallow_operator op⟩

theorem shallow_unary {argument : Expression} (h : argument.Below levels) (op : WrittenOperator)
    (span : Span) : (unary op argument span).Shallow levels := by
  refine shallow_of_parts ?_ (by simpa [Node.deeper] using h)
  simpa [beside] using shallow_operator op

theorem shallow_filter {value filter : Expression} (h : value.Shallow levels)
    (hf : filter.Shallow levels) (span : Span) :
    (Expression.filter value filter span).Shallow levels := by
  refine shallow_of_parts ?_ (by simp [Node.deeper])
  simpa [beside, children] using ⟨h, hf⟩

/-- Both readers of a level give expressions that open fewer levels than these. -/
structure Level.Gives (levels : Nat) (level : Level) : Prop where
  operand : Reader.Gives level.operand (Below levels)
  operation (stops : List String) (minimum : Nat) :
    Reader.Gives (level.operation stops minimum) (Below levels)

/-- What is read a level down opens fewer levels than these. -/
def Descent.Gives (levels : Nat) (deeper : Descent) : Prop :=
  ∀ span, Reader.Gives (deeper span) (Level.Gives levels)

theorem gives_stringValue (raw : String) (span : Span) :
    Reader.Gives (stringValue raw span) (Shallow levels) := by
  unfold stringValue
  split
  · exact .throw _
  · split
    · exact .pure (shallow_of_no_children rfl rfl)
    · exact .throw _
    · exact .throw _

theorem gives_arguments (hd : deeper.Gives levels) :
    Reader.Gives (arguments deeper) fun r => ∀ a ∈ r.1, a.Below levels :=
  Reader.gives_behind fun opening => (hd opening).bind fun _ h =>
    Reader.gives_items (h.operation _ _)

theorem gives_primaryFrom (hd : deeper.Gives levels) (l : Lexeme) :
    Reader.Gives (primaryFrom deeper l) (Shallow levels) := by
  unfold primaryFrom
  split
  · exact .pure (shallow_of_no_children rfl rfl)
  · exact gives_stringValue _ _
  · exact .pure (shallow_of_no_children rfl rfl)
  · -- Parentheses open a level and leave no node, so the expression in them has levels to spare.
    refine (hd l.span).bind fun level h => (h.operation _ _).bind fun inner hi => ?_
    exact Reader.gives_behind fun _ => .pure hi.shallow
  · exact .throw _

theorem gives_primary (hd : deeper.Gives levels) :
    Reader.Gives (primary deeper) (Shallow levels) :=
  Reader.gives_behind fun l => gives_primaryFrom hd l

theorem gives_nextSuffix (hd : deeper.Gives levels) {e : Expression} (he : e.Shallow levels) :
    Reader.Gives (nextSuffix deeper e) (HandsOn (Shallow levels)) := by
  refine Reader.gives_behind fun atDot => ?_
  split
  · refine Reader.gives_behind fun _ => Reader.gives_behind fun property => ?_
    exact .pure (shallow_member he _ _)
  · refine Reader.gives_behind fun atParen => ?_
    split
    · exact (gives_arguments hd).bind fun _ hargs => .pure (shallow_call he hargs _)
    · exact .pure he

theorem gives_term (hd : deeper.Gives levels) : Reader.Gives (term deeper) (Shallow levels) :=
  (gives_primary hd).bind fun _ he => .loop (fun _ => gives_nextSuffix hd) he

theorem gives_operand (hd : deeper.Gives levels) :
    Reader.Gives (operand deeper) (Shallow levels) := by
  refine Reader.gives_behind fun l => ?_
  split
  · exact gives_term hd
  · refine Reader.gives_behind fun _ => (hd l.span).bind fun level h => ?_
    exact h.operand.bind fun argument ha => .pure (shallow_unary ha _ _)

theorem gives_nextJoint (hd : deeper.Gives levels) (stops : List String) (minimum : Nat)
    {left : Expression} (hl : left.Shallow levels) :
    Reader.Gives (nextJoint deeper stops minimum left) (HandsOn (Shallow levels)) := by
  refine Reader.gives_behind fun l => ?_
  split
  · exact .pure hl
  · refine Reader.gives_behind fun _ => (gives_term hd).bind fun filter hf => ?_
    exact .pure (shallow_filter hl hf _)
  · refine Reader.gives_behind fun _ => (hd l.span).bind fun level h => ?_
    exact (h.operation _ _).bind fun right hr => .pure (shallow_binary hl hr _ _)

theorem gives_operation (hd : deeper.Gives levels) (stops : List String) (minimum : Nat) :
    Reader.Gives (operation deeper stops minimum) (Shallow levels) :=
  (gives_operand hd).bind fun _ he => .loop (fun _ => gives_nextJoint hd stops minimum) he

theorem gives_descend (levels : Nat) : (descend levels).Gives levels := by
  induction levels with
  | zero => exact fun span => .throw _
  | succ n ih =>
    intro span
    refine .pure ⟨?_, fun stops minimum => ?_⟩
    · exact (gives_operand ih).after fun _ h => h.below
    · exact (gives_operation ih stops minimum).after fun _ h => h.below

theorem gives_read (levels : Nat) (stops : List String) :
    Reader.Gives (read levels stops) (Shallow levels) :=
  gives_operation (gives_descend levels) stops 0

theorem gives_readFilter (levels : Nat) : Reader.Gives (readFilter levels) (Shallow levels) :=
  gives_term (gives_descend levels)

end Expression

/-! ## Tags -/

namespace Draft
open Node
variable {levels : Nat} {body : BodyReader} {opening : Span}

theorem gives_lastExpression : Reader.Gives (lastExpression levels) (·.Shallow levels) :=
  (Expression.gives_read _ _).bind fun _ he => Reader.gives_behind fun _ => .pure he

theorem gives_nextFilter {filters : List Expression} (h : ∀ f ∈ filters, f.Shallow levels) :
    Reader.Gives (nextFilter levels filters) (HandsOn fun fs => ∀ f ∈ fs, f.Shallow levels) := by
  refine Reader.gives_behind fun atBar => ?_
  split
  · refine Reader.gives_behind fun _ => (Expression.gives_readFilter _).bind fun filter hf => ?_
    exact .pure (List.forall_mem_append.mpr ⟨h, by simpa using hf⟩)
  · exact .pure h

theorem gives_placeable :
    Reader.Gives (placeable levels opening) fun s => (statement s).Shallow levels := by
  refine (Expression.gives_read _ _).bind fun value hvalue => ?_
  refine Gives.bind (.loop (fun _ => gives_nextFilter) (by simp)) fun filters hfilters => ?_
  refine Reader.gives_behind fun close => .pure ?_
  refine shallow_of_parts ?_ (by simp [Node.deeper])
  simpa [Node.beside, children] using ⟨hvalue, hfilters⟩

theorem gives_loopCondition :
    Reader.Gives (loopCondition levels) fun c => ∀ e ∈ c, e.Shallow levels := by
  refine Reader.gives_behind fun atIf => ?_
  split
  · refine Reader.gives_behind fun _ => (Expression.gives_read _ _).bind fun e he => ?_
    exact .pure (by simpa using he)
  · exact .pure (by simp)

theorem gives_loopHead :
    Reader.Gives (loopHead levels)
      fun r => r.2.1.Shallow levels ∧ ∀ e ∈ r.2.2, e.Shallow levels := by
  refine Reader.gives_behind fun target => Reader.gives_behind fun _ => ?_
  refine (Expression.gives_read _ _).bind fun iterable hi => ?_
  refine gives_loopCondition.bind fun condition hc => ?_
  exact Reader.gives_behind fun _ => .pure ⟨hi, hc⟩

theorem gives_setTag :
    Reader.Gives (setTag levels opening) fun s => (statement s).Shallow levels := by
  refine Reader.gives_behind fun target => Reader.gives_behind fun _ => ?_
  refine (Expression.gives_read _ _).bind fun value hvalue => Reader.gives_behind fun close => ?_
  refine .pure (shallow_of_parts ?_ (by simp [Node.deeper]))
  simpa [Node.beside, children] using ⟨shallow_pattern target, hvalue⟩

theorem gives_callHead :
    Reader.Gives (callHead levels) fun r => ∀ a ∈ r.2, a.Below levels := by
  refine Reader.gives_behind fun name => ?_
  have hargs : Reader.Gives (callArguments levels) fun args => ∀ a ∈ args, a.Below levels := by
    refine Reader.gives_behind fun atParen => ?_
    split
    · exact (Expression.gives_arguments (Expression.gives_descend _)).bind fun _ h => .pure h
    · exact .pure (by simp)
  exact hargs.bind fun args h => Reader.gives_behind fun _ => .pure h

theorem gives_macroHead :
    Reader.Gives (macroHead levels) fun r => ∀ p ∈ r.2, (Node.parameter p).Shallow levels := by
  have hparameter :
      Reader.Gives (parameter levels) fun p => (Node.parameter p).Shallow levels := by
    refine Reader.gives_behind fun name => Reader.gives_behind fun atAssign => ?_
    split
    · refine Reader.gives_behind fun _ => (Expression.gives_read _ _).bind fun e he => .pure ?_
      refine shallow_of_parts ?_ (by simp [Node.deeper])
      simpa [Node.beside, children] using ⟨shallow_identifier name, he⟩
    · refine .pure (shallow_of_parts ?_ (by simp [Node.deeper]))
      simpa [Node.beside, children] using shallow_identifier name
  refine Reader.gives_behind fun name => Reader.gives_behind fun _ => ?_
  exact (Reader.gives_items hparameter).bind fun _ h => Reader.gives_behind fun _ => .pure h

/-! ## Drafts -/

/-- Each open body, the innermost first, holds statements that open at most so many levels, and all
that is apart from the bodies opens no more levels than there are. -/
structure Shallow (bounds : List Nat) (d : Draft) : Prop where
  bodies : List.Forall₂ (fun n (b : Body) => ∀ s ∈ b.body, (statement s).Shallow n) bounds
    (d.current :: d.enclosing)
  macros : ∀ e ∈ d.macros.entries, (ofMacro e.2).Shallow depthLimit
  blocks : ∀ e ∈ d.blocks.entries, (ofBlock e.2).Shallow depthLimit
  parent : ∀ e ∈ d.parent, e.Shallow depthLimit

/-- Every value of the computation is as stated, and it adds to the open bodies only what their
bounds allow. -/
abbrev Gives {α : Type} (bounds : List Nat) (m : DraftM α) (Q : α → Prop) : Prop :=
  TemplateSyntax.Gives (Shallow bounds) m Q

variable {α : Type} {Q : α → Prop} {outer : List Nat}

theorem gives_lift {bounds : List Nat} {m : ReadM α} (h : Reader.Gives m Q) :
    Gives bounds (liftM m : DraftM α) Q := by
  intro d hd
  have hm := h d.reader trivial
  rw [run_lift]
  cases hr : m d.reader with
  | ok a r =>
    rw [hr] at hm
    exact ⟨hm.1, { hd with }⟩
  | error f r => trivial

theorem gives_token {bounds : List Nat} (m : ReadM α) :
    Gives bounds (liftM m : DraftM α) fun _ => True := gives_lift (Reader.gives_any m)

/-- An open body with one more statement. -/
theorem Shallow.push {d : Draft} (hd : d.Shallow (levels :: outer)) {s : Statement}
    (h : (statement s).Shallow levels) :
    ({ d with current := d.current.push s } : Draft).Shallow (levels :: outer) := by
  obtain ⟨hcurrent, henclosing⟩ := List.forall₂_cons.mp hd.bodies
  refine { hd with bodies := .cons ?_ henclosing }
  exact List.forall_mem_append.mpr ⟨hcurrent, by simpa using h⟩

theorem gives_push {s : Statement} (h : (statement s).Shallow levels) :
    Gives (levels :: outer) (push s) fun _ => True :=
  fun _ hd => ⟨trivial, hd.push h⟩

theorem shallow_text (run : String) (span : Span) :
    (statement (.text run span)).Shallow levels := shallow_of_no_children rfl rfl

theorem gives_opening : Gives (levels :: outer) Draft.opening fun _ => True := by
  intro d hd
  have htext : d.behindText.Shallow (levels :: outer) := by
    unfold behindText
    dsimp only
    split
    · exact { hd with }
    · exact { hd.push (shallow_text _ _) with }
  rw [run_opening]
  split
  · exact ⟨trivial, htext⟩
  · cases Reader.next d.behindText.reader with
    | ok l r => exact ⟨trivial, { htext with }⟩
    | error f r => trivial

theorem gives_openBody (levels : Nat) (bounds : List Nat) :
    Ensures (Shallow bounds) openBody (fun _ => Shallow (levels :: bounds)) fun _ _ => True :=
  fun _ hd => { hd with bodies := .cons (by simp [Scope.opened]) hd.bodies }

theorem shallow_scope {b : Body} (h : ∀ s ∈ b.body, (statement s).Shallow levels) :
    (scope b).Shallow levels := by
  refine shallow_of_parts (fun c hc => ?_) (by simp [Node.deeper])
  rcases List.mem_append.mp hc with hc | hc
  · obtain ⟨i, -, rfl⟩ := List.mem_map.mp hc
    exact shallow_identifier i
  · obtain ⟨s, hs, rfl⟩ := List.mem_map.mp hc
    exact h s hs

theorem gives_closeBody {bound : Nat} (stop : Position) :
    Ensures (Shallow (levels :: bound :: outer)) (closeBody stop)
      (fun b d => (scope b).Shallow levels ∧ d.Shallow (bound :: outer)) fun _ _ => True := by
  intro d hd
  obtain ⟨hcurrent, henclosing⟩ := List.forall₂_cons.mp hd.bodies
  have hclosed : (scope (d.current.closed stop)).Shallow levels := shallow_scope hcurrent
  rw [closeBody, run_modifyGet]
  cases he : d.enclosing with
  | nil => rw [he] at henclosing; cases henclosing
  | cons b bs =>
    rw [he] at henclosing
    exact ⟨hclosed, { hd with bodies := henclosing }⟩

/-- The definition may be kept in a table. -/
def ShallowDefinition : Definition → Prop
  | .ofMacro m => (ofMacro m).Shallow depthLimit
  | .ofBlock b => (ofBlock b).Shallow depthLimit

theorem gives_define {bounds : List Nat} {x : Definition} (h : ShallowDefinition x) :
    Gives bounds (define x) fun _ => True := by
  intro d hd
  cases x with
  | ofMacro m =>
    refine ⟨trivial, { hd with macros := fun e he => ?_ }⟩
    rcases Table.mem_bind he with rfl | he
    · exact h
    · exact hd.macros e he
  | ofBlock b =>
    refine ⟨trivial, { hd with blocks := fun e he => ?_ }⟩
    rcases Table.mem_bind he with rfl | he
    · exact h
    · exact hd.blocks e he

theorem gives_setParent {bounds : List Nat} {target : Expression}
    (h : target.Shallow depthLimit) : Gives bounds (setParent target) fun _ => True := by
  intro d hd
  change True ∧ Shallow bounds (if d.parent.isSome then (false, d)
    else (true, { d with parent := some target })).2
  split
  · exact ⟨trivial, hd⟩
  · exact ⟨trivial, { hd with parent := by simpa using h }⟩

/-! ## Tags and bodies -/

/-- A reader of bodies that open fewer levels than these, inside whatever bodies are open. -/
def BodyReader.Gives (levels : Nat) (body : BodyReader) : Prop :=
  ∀ bound outer closers,
    Draft.Gives (bound :: outer) (body closers) fun r => (scope r.1).Below levels

theorem below_statements {b : Body} (h : (scope b).Below levels) :
    ∀ s ∈ b.body, (statement s).Below levels := by
  obtain ⟨fewer, hlt, hb⟩ := h
  intro s hs
  refine ⟨fewer, hlt, fun k m hk => hb k m (.beside ?_ hk)⟩
  exact List.mem_append_right _ (List.mem_map_of_mem hs)

theorem shallow_arm {condition : Expression} (h : condition.Shallow levels) {b : Body}
    (hb : (scope b).Below levels) (span : Span) :
    (arm ⟨condition, b.body, span⟩).Shallow levels :=
  shallow_of_parts (by simpa [Node.beside] using h)
    (by simpa [Node.deeper] using below_statements hb)

theorem shallow_cases {arms : List (Arm Statement)} (h : ∀ a ∈ arms, (arm a).Shallow levels)
    (span : Span) : (statement (.cases arms span)).Shallow levels :=
  shallow_of_parts (by simpa [Node.beside, children] using h) (by simp [Node.deeper])

theorem gives_nextArm (hb : body.Gives levels) {b : List (Arm Statement) × Closing}
    (h : ∀ a ∈ b.1, (arm a).Shallow levels) :
    Gives (levels :: outer) (nextArm levels body b)
      (HandsOn fun r => ∀ a ∈ r.1, (arm a).Shallow levels) := by
  obtain ⟨arms, closing⟩ := b
  unfold nextArm
  dsimp only
  split
  · refine (gives_lift gives_lastExpression).bind fun condition hc => ?_
    refine (hb _ _ _).bind fun (b, next) hbody => .pure ?_
    exact List.forall_mem_append.mpr ⟨h, by simpa using shallow_arm hc hbody _⟩
  · exact .pure h

theorem gives_ifTag (hb : body.Gives levels) :
    Gives (levels :: outer) (ifTag levels body opening) fun s => (statement s).Shallow levels := by
  refine (gives_lift gives_lastExpression).bind fun condition hc => ?_
  refine (hb _ _ _).bind fun (first, closing) hfirst => ?_
  refine Gives.bind (.loop (fun _ => gives_nextArm hb) (by simpa using shallow_arm hc hfirst _))
    fun (arms, closing) harms => ?_
  dsimp only
  split
  · refine (gives_token _).discard.bind fun _ _ => (hb _ _ _).bind fun (b, last) hlast => ?_
    refine (gives_token _).discard.bind fun _ _ => .pure (shallow_cases ?_ _)
    have halways : (Expression.boolean true (.empty closing.opening.start)).Shallow levels :=
      shallow_of_no_children rfl rfl
    exact List.forall_mem_append.mpr ⟨harms, by simpa using shallow_arm halways hlast _⟩
  · exact (gives_token _).discard.bind fun _ _ => .pure (shallow_cases harms _)

theorem shallow_loop {target : Pattern} {iterable : Expression} {condition : Option Expression}
    {main : Body} {alternative : Option (List Statement)} (hi : iterable.Shallow levels)
    (hc : ∀ e ∈ condition, e.Shallow levels) (hmain : (scope main).Below levels)
    (ha : ∀ s ∈ alternative.getD [], (statement s).Below levels) (span : Span) :
    (statement (.loop target iterable condition main alternative span)).Shallow levels := by
  refine shallow_of_parts ?_ ?_
  · simpa [Node.beside] using ⟨shallow_pattern target, hi, hc⟩
  · simpa [Node.deeper] using ⟨hmain, ha⟩

theorem gives_forTag (hb : body.Gives levels) :
    Gives (levels :: outer) (forTag levels body opening) fun s => (statement s).Shallow levels := by
  refine (gives_lift gives_loopHead).bind fun (target, iterable, condition) ⟨hi, hc⟩ => ?_
  refine (hb _ _ _).bind fun (main, closing) hmain => ?_
  dsimp only
  split
  · refine (gives_token _).discard.bind fun _ _ => ?_
    refine (hb _ _ _).bind fun (alternative, last) ha => ?_
    refine (gives_token _).discard.bind fun _ _ => .pure (shallow_loop hi hc hmain ?_ _)
    exact below_statements ha
  · refine (gives_token _).discard.bind fun _ _ => .pure (shallow_loop hi hc hmain ?_ _)
    simp

theorem gives_callTag (hb : body.Gives levels) :
    Gives (levels :: outer) (callTag levels body opening)
      fun s => (statement s).Shallow levels := by
  refine (gives_lift gives_callHead).bind fun (called, args) hargs => ?_
  refine (hb _ _ _).bind fun (b, closing) hbody => (gives_token _).discard.bind fun _ _ => .pure ?_
  refine shallow_of_parts ?_ (List.forall_mem_append.mpr ⟨?_, ?_⟩)
  · simpa [Node.beside] using shallow_identifier called
  · simpa using hargs
  · simpa using hbody

theorem gives_filterTag (hb : body.Gives levels) :
    Gives (levels :: outer) (filterTag levels body opening)
      fun s => (statement s).Shallow levels := by
  refine (gives_lift gives_lastExpression).bind fun filter hf => ?_
  refine (hb _ _ _).bind fun (b, closing) hbody => (gives_token _).discard.bind fun _ _ => .pure ?_
  refine shallow_of_parts ?_ ?_
  · simpa [Node.beside] using hf
  · simpa [Node.deeper] using hbody

theorem gives_blockTag (hlevels : levels ≤ depthLimit) (hb : body.Gives levels) :
    Gives (levels :: outer) (blockTag body opening) fun s => (statement s).Shallow levels := by
  refine (gives_token _).bind fun name _ => (hb _ _ _).bind fun (b, _) hbody => ?_
  refine (gives_token _).bind fun close _ => ?_
  have hkept : ShallowDefinition (.ofBlock ⟨name, b, opening.combine close⟩) := by
    refine Node.Shallow.mono ?_ hlevels
    refine shallow_of_parts ?_ ?_
    · simpa [Node.beside] using shallow_identifier name
    · simpa [Node.deeper] using hbody
  refine Gives.bind (α := PUnit) (gives_define hkept) fun _ _ => .pure ?_
  refine shallow_of_parts ?_ (by simp [Node.deeper])
  simpa [Node.beside, children] using shallow_identifier name

theorem gives_macroTag (hlevels : levels ≤ depthLimit) (hb : body.Gives levels) :
    Gives (levels :: outer) (macroTag levels body opening) fun _ => True := by
  refine (gives_lift gives_macroHead).bind fun (defined, parameters) hp => ?_
  refine (hb _ _ _).bind fun (b, closing) hbody => (gives_token _).discard.bind fun _ _ => ?_
  refine gives_define (Node.Shallow.mono ?_ hlevels)
  refine shallow_of_parts ?_ ?_
  · simpa [Node.beside] using ⟨shallow_identifier defined, hp⟩
  · simpa [Node.deeper] using hbody

theorem gives_extendsTag (hlevels : levels ≤ depthLimit) :
    Gives (levels :: outer) (extendsTag levels) fun _ => True := by
  refine (gives_lift gives_lastExpression).bind fun target ht => ?_
  refine (gives_setParent (ht.mono hlevels)).bind fun isFirst _ => ?_
  split
  · exact .pure trivial
  · exact .throw _

theorem gives_tag (hlevels : levels ≤ depthLimit) (hb : body.Gives levels) (name : Identifier) :
    Gives (levels :: outer) (tag levels body opening name) fun _ => True := by
  unfold tag
  split
  · exact (gives_ifTag hb).bind fun _ h => gives_push h
  · exact (gives_forTag hb).bind fun _ h => gives_push h
  · exact (gives_lift gives_setTag).bind fun _ h => gives_push h
  · exact (gives_callTag hb).bind fun _ h => gives_push h
  · exact (gives_filterTag hb).bind fun _ h => gives_push h
  · exact (gives_blockTag hlevels hb).bind fun _ h => gives_push h
  · exact gives_macroTag hlevels hb
  · exact gives_extendsTag hlevels
  · exact .throw _

theorem gives_piece (hlevels : levels ≤ depthLimit) (hb : body.Gives levels)
    (closers : List Keyword) :
    Gives (levels :: outer) (piece levels body closers) (HandsOn fun _ => True) := by
  refine gives_opening.bind fun found _ => ?_
  split
  · exact .pure trivial
  · split
    · refine (gives_lift gives_placeable).bind fun s hs => ?_
      exact Gives.bind (α := PUnit) (gives_push hs) fun _ _ => .pure trivial
    · refine (gives_token _).bind fun name _ => ?_
      have hnote : Gives (levels :: outer) (note (.tag name.value name.span)) fun _ => True :=
        fun _ hd => ⟨trivial, { hd with }⟩
      refine Gives.bind (α := PUnit) hnote fun _ _ => ?_
      split
      · exact .pure trivial
      · exact Gives.bind (α := PUnit) (gives_tag hlevels hb name) fun _ _ => .pure trivial
    · exact .throw _

theorem gives_content (hlevels : levels ≤ depthLimit) (hb : body.Gives levels)
    (closers : List Keyword) :
    Gives (levels :: outer) (content levels body closers) fun _ => True :=
  .loop (fun _ _ => gives_piece hlevels hb closers) trivial

theorem gives_position {bounds : List Nat} : Gives bounds position fun _ => True :=
  fun _ hd => ⟨trivial, hd⟩

/-- What a body adds to the bodies around it stands in them; what it holds is a level deeper. -/
theorem gives_body (hlevels : levels ≤ depthLimit) : (Draft.body levels).Gives levels := by
  induction levels with
  | zero => exact fun _ _ _ => gives_position.bind fun _ _ => .throw _
  | succ n ih =>
    have hn := Nat.le_of_succ_le hlevels
    intro bound outer closers
    refine Ensures.bind (gives_openBody n _) fun _ => ?_
    refine Ensures.bind (gives_content hn (ih hn) closers) fun found => Ensures.given fun _ => ?_
    split
    · refine Ensures.bind (gives_closeBody _) fun b => Ensures.given fun hbody => ?_
      exact Gives.pure hbody.below
    · exact Ensures.bind gives_position fun _ => Ensures.throw fun _ _ => trivial

end Draft

/-! ## Templates -/

/-- What a source was read to opens no more levels than there are. -/
theorem Draft.shallow_template {text : String} {d : Draft}
    (h : Draft.readAll (.ofText text) = .ok () d) :
    (Node.template d.template).Shallow depthLimit := by
  have hstart : (ofText text).Shallow [depthLimit] :=
    ⟨.cons (by simp [ofText, Scope.opened]) .nil, nofun, nofun, nofun⟩
  have hd : d.Shallow [depthLimit] :=
    ((gives_content (Nat.le_refl _) (gives_body (Nat.le_refl _)) []).discard.ok hstart h).2
  obtain ⟨hcurrent, -⟩ := List.forall₂_cons.mp hd.bodies
  have hbody : (Node.scope (d.current.closed d.reader.cursor.position)).Shallow depthLimit :=
    shallow_scope hcurrent
  refine Node.shallow_of_parts (fun c hc => ?_) (by simp [Node.deeper])
  simp only [Node.beside, Node.children, template, List.mem_cons, List.mem_append,
    List.mem_map] at hc
  rcases hc with rfl | (⟨e, he, rfl⟩ | ⟨e, he, rfl⟩) | ⟨e, he, rfl⟩
  · exact hbody
  · exact hd.parent e (Option.mem_toList.mp he)
  · exact hd.blocks e he
  · exact hd.macros e he

/-- However a node of a template is come to, the bodies, arguments, right sides and operands of
signs on the way to it are no more than there are levels. -/
theorem compile_opens_le {text : String} {name : Option String} {t : Template}
    (h : compile text name = .ok t) {k : Nat} {n : Node} (hn : Node.Opens k (.template t) n) :
    k ≤ depthLimit := by
  obtain ⟨d, hr, -, rfl⟩ := compile_eq_ok_iff.mp h
  exact Draft.shallow_template hr k n hn

/-- A position in the first line, where each character so far is a single byte. -/
def Position.inFirstLine (n : Nat) : Position := ⟨n, 1, n⟩

/-- A sign in an argument in an arm: the name behind it is three levels down. -/
theorem compile_opens_le_sign :
    ∃ t n, compile "\x7b% if a %\x7d\x7b\x7b f(-b) \x7d\x7d\x7b% endif %\x7d" = .ok t ∧
      Node.Opens 3 (.template t) n ∧ 3 ≤ depthLimit := by
  have hread : compile "\x7b% if a %\x7d\x7b\x7b f(-b) \x7d\x7d\x7b% endif %\x7d" = .ok
      ⟨none, .empty, .empty, ⟨[], [.cases [⟨.name ⟨"a", .inFirstLine 6, .inFirstLine 7⟩,
        [.put (.call (.name ⟨"f", .inFirstLine 13, .inFirstLine 14⟩)
          [.unary ⟨.subtract, .inFirstLine 15, .inFirstLine 16⟩
            (.name ⟨"b", .inFirstLine 16, .inFirstLine 17⟩) ⟨.inFirstLine 15, .inFirstLine 17⟩]
          ⟨.inFirstLine 13, .inFirstLine 18⟩) [] ⟨.inFirstLine 10, .inFirstLine 21⟩],
        ⟨.start, .inFirstLine 29⟩⟩] ⟨.start, .inFirstLine 29⟩], ⟨.start, .inFirstLine 32⟩⟩,
        ⟨.start, .inFirstLine 32⟩⟩ := by decide +kernel
  have hpath (condition function b : Expression) (op : WrittenOperator)
      (inner outer put arm all whole : Span) : Node.Opens 3 (.template ⟨none, .empty, .empty,
        ⟨[], [.cases [⟨condition, [.put (.call function [.unary op b inner] outer) [] put], arm⟩]
          all], whole⟩, whole⟩) (.expression b) := by
    have hsign : Node.Opens 1 (.expression (.unary op b inner)) (.expression b) :=
      .deeper List.mem_cons_self (.refl _)
    have hcall : Node.Opens 2 (.expression (.call function [.unary op b inner] outer)) _ :=
      .deeper List.mem_cons_self hsign
    have harm : Node.Opens 3
        (.arm ⟨condition, [.put (.call function [.unary op b inner] outer) [] put], arm⟩) _ :=
      .deeper List.mem_cons_self (.beside List.mem_cons_self hcall)
    have hcases : Node.Opens 3 (.statement (.cases
        [⟨condition, [.put (.call function [.unary op b inner] outer) [] put], arm⟩] all)) _ :=
      .beside List.mem_cons_self harm
    exact .beside List.mem_cons_self (.beside List.mem_cons_self hcases)
  exact ⟨_, _, hread, hpath _ _ _ _ _ _ _ _ _ _, compile_opens_le hread (hpath _ _ _ _ _ _ _ _ _ _)⟩

/-! ## Expressions in one level -/

namespace Expression

/-- Each expression is a child of the one before. -/
def Chain (es : List Expression) : Prop :=
  es.IsChain fun a b => (Node.expression a).HasChild (.expression b)

/-- The expressions that an expression is put together from. -/
def parts : Expression → List Expression
  | member object _ _ => [object]
  | call function args _ => function :: args
  | binary _ left right _ => [left, right]
  | unary _ argument _ => [argument]
  | filter value applied _ => [value, applied]
  | _ => []

theorem hasChild_iff {a b : Expression} :
    (Node.expression a).HasChild (.expression b) ↔ b ∈ a.parts := by
  cases a <;> simp [Node.HasChild, Node.children, parts]

instance (es : List Expression) : Decidable (Chain es) :=
  decidable_of_iff (es.IsChain fun a b => b ∈ a.parts) (by simp only [Chain, hasChild_iff])

/-- The sum of as many terms and one more, where each is the letter `a`. It begins behind the
opening of a placeable, and has no blanks. -/
def repeated : Nat → Expression
  | 0 => .name ⟨"a", .inFirstLine 2, .inFirstLine 3⟩
  | n + 1 =>
    .binary ⟨.add, .inFirstLine (2 * n + 3), .inFirstLine (2 * n + 4)⟩ (repeated n)
      (.name ⟨"a", .inFirstLine (2 * n + 4), .inFirstLine (2 * n + 5)⟩)
      ⟨.inFirstLine 2, .inFirstLine (2 * n + 5)⟩

end Expression

/-- Sums are read in one level, however many terms they have, and each sum is a part of the next.
So a chain of expressions may be longer than levels can be opened. -/
theorem not_chain_length_le : ¬ ∀ text t, compile text = .ok t →
    ∀ es : List Expression, Expression.Chain es →
      (∀ e ∈ es.head?, Relation.ReflTransGen Node.HasChild (.template t) (.expression e)) →
      es.length ≤ depthLimit + 1 := by
  intro h
  have hread : compile ("\x7b\x7ba" ++ String.join (List.replicate 65 "+a") ++ "\x7d\x7d") = .ok
      ⟨none, .empty, .empty, ⟨[], [.put (.repeated 65) [] ⟨.start, .inFirstLine 135⟩],
        ⟨.start, .inFirstLine 135⟩⟩, ⟨.start, .inFirstLine 135⟩⟩ := by decide +kernel
  have hchain : Expression.Chain ((List.range 66).reverse.map .repeated) := by decide +kernel
  have hpath (value : Expression) (span : Span) : Relation.ReflTransGen Node.HasChild
      (.template ⟨none, .empty, .empty, ⟨[], [.put value [] span], span⟩, span⟩)
      (.expression value) := by
    have hbody : (Node.template ⟨none, .empty, .empty, ⟨[], [.put value [] span], span⟩,
        span⟩).HasChild (.scope ⟨[], [.put value [] span], span⟩) := List.mem_cons_self
    have hput : (Node.scope ⟨[], [.put value [] span], span⟩).HasChild
        (.statement (.put value [] span)) := List.mem_cons_self
    exact .tail (.tail (.single hbody) hput) List.mem_cons_self
  have hhead : ((List.range 66).reverse.map Expression.repeated).head? = some (.repeated 65) := by
    decide +kernel
  have hle := h _ _ hread _ hchain fun e he => by
    obtain rfl : .repeated 65 = e := Option.some.inj (hhead.symm.trans he)
    exact hpath _ _
  rw [List.length_map, List.length_reverse, List.length_range] at hle
  exact absurd hle (by decide)

end TemplateSyntax
