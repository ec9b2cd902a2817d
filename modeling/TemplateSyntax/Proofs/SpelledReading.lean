import TemplateSyntax.Proofs.OrderedReading
import TemplateSyntax.Proofs.Session
import TemplateSyntax.Proofs.Spelling

/-!
# Readers spell what they read

Every leaf of a tree is made from a token that was read in the text, with the span of that token; so
it is spelled there. The readers are gone through one by one: each gives values whose leaves are
spelled in the text, and puts only such values into the draft. The token that a reader has looked at
is one of the text too, so a leaf made from it later is spelled as well.
-/
namespace TemplateSyntax

/-- Types of what readers give. -/
class Traceable (α : Type) where
  /-- All that the value is made of can be found again in the text. -/
  TracedIn : String → α → Prop

export Traceable (TracedIn)

section Values
variable {α β : Type} [Traceable α] [Traceable β] {text : String}

instance : Traceable PUnit := ⟨fun _ _ => True⟩
instance : Traceable Bool := ⟨fun _ _ => True⟩
instance : Traceable Span := ⟨fun _ _ => True⟩
instance : Traceable Position := ⟨fun _ _ => True⟩
instance : Traceable (List α) := ⟨fun text as => ∀ a ∈ as, TracedIn text a⟩
instance : Traceable (Option α) := ⟨fun text o => ∀ a ∈ o, TracedIn text a⟩
instance : Traceable (α × β) := ⟨fun text x => TracedIn text x.1 ∧ TracedIn text x.2⟩
instance : Traceable (Table α) := ⟨fun text t => ∀ e ∈ t.entries, TracedIn text e.2⟩

instance : Traceable (ForInStep α) where
  TracedIn text
    | .done a | .yield a => TracedIn text a

instance : Traceable Lexeme := ⟨fun text l => l.IsReadIn text⟩
instance : Traceable Variable := ⟨fun text v => (Node.name v).Traced text⟩
instance : Traceable Identifier := ⟨fun text i => (Node.identifier i).Traced text⟩
instance : Traceable Expression := ⟨fun text e => (Node.expression e).Traced text⟩
instance : Traceable Pattern := ⟨fun text p => (Node.pattern p).Traced text⟩
instance : Traceable Statement := ⟨fun text s => (Node.statement s).Traced text⟩
instance : Traceable (Arm Statement) := ⟨fun text a => (Node.arm a).Traced text⟩
instance : Traceable Body := ⟨fun text b => (Node.scope b).Traced text⟩
instance : Traceable Parameter := ⟨fun text p => (Node.parameter p).Traced text⟩
instance : Traceable Macro := ⟨fun text m => (Node.ofMacro m).Traced text⟩
instance : Traceable Block := ⟨fun text b => (Node.ofBlock b).Traced text⟩
instance : Traceable Closing := ⟨fun text c => c.keyword.OpensTagAt text c.opening.start⟩

instance : Traceable Definition where
  TracedIn text
    | .ofMacro m => TracedIn text m
    | .ofBlock b => TracedIn text b

theorem tracedIn_nil : TracedIn text ([] : List α) := by
  intro a ha
  cases ha

theorem tracedIn_cons {a : α} {as : List α} (ha : TracedIn text a) (has : TracedIn text as) :
    TracedIn text (a :: as) := List.forall_mem_cons.mpr ⟨ha, has⟩

theorem tracedIn_snoc {a : α} {as : List α} (has : TracedIn text as) (ha : TracedIn text a) :
    TracedIn text (as ++ [a]) := by
  intro b hb
  rcases List.mem_append.mp hb with hb | hb
  · exact has b hb
  · obtain rfl := List.mem_singleton.mp hb
    exact ha

theorem tracedIn_none : TracedIn text (none : Option α) := by
  intro a ha
  cases ha

theorem tracedIn_some {a : α} (ha : TracedIn text a) : TracedIn text (some a) := by
  intro b hb
  cases hb
  exact ha

theorem tracedIn_insert {t : Table α} (ht : TracedIn text t) (name : String) {a : α}
    (ha : TracedIn text a) : TracedIn text (t.insert name a) := by
  intro e he
  rcases Table.mem_bind he with rfl | he
  · exact ha
  · exact ht e he

end Values

/-! ## Nodes made from traced parts -/

namespace Node
variable {text : String} {e f : Expression} {es : List Expression} {v : Variable} {i : Identifier}
  {b : Body} {span : Span}

theorem traced_member (he : TracedIn text e) (hv : TracedIn text v) :
    TracedIn text (Expression.member e v span) :=
  traced_of_children trivial (by simpa [children] using ⟨he, hv⟩)

theorem traced_call (he : TracedIn text e) (hes : TracedIn text es) :
    TracedIn text (Expression.call e es span) :=
  traced_of_children trivial (by simpa [children] using ⟨he, hes⟩)

theorem traced_filter (he : TracedIn text e) (hf : TracedIn text f) :
    TracedIn text (Expression.filter e f span) :=
  traced_of_children trivial (by simpa [children] using ⟨he, hf⟩)

theorem traced_binary {op : WrittenOperator} (ho : (operator op).Spelled text)
    (he : TracedIn text e) (hf : TracedIn text f) : TracedIn text (Expression.binary op e f span) :=
  traced_of_children trivial (by simpa [children] using ⟨he, traced_of_leaf ho rfl, hf⟩)

theorem traced_unary {op : WrittenOperator} (ho : (operator op).Spelled text)
    (he : TracedIn text e) : TracedIn text (Expression.unary op e span) :=
  traced_of_children trivial (by simpa [children] using ⟨traced_of_leaf ho rfl, he⟩)

theorem traced_unpack {names : List Variable} (h : TracedIn text names) :
    TracedIn text (Pattern.unpack names span) :=
  traced_of_children trivial (List.forall_mem_map.mpr h)

theorem traced_single (h : TracedIn text v) : TracedIn text (Pattern.single v) :=
  traced_of_leaf (n := pattern (.single v)) h.spelled rfl

theorem traced_put (he : TracedIn text e) (hes : TracedIn text es) :
    TracedIn text (Statement.put e es span) :=
  traced_of_children trivial (by simpa [children] using ⟨he, hes⟩)

theorem traced_assign {p : Pattern} (hp : TracedIn text p) (he : TracedIn text e) :
    TracedIn text (Statement.assign p e span) :=
  traced_of_children trivial (by simpa [children] using ⟨hp, he⟩)

theorem traced_cases {arms : List (Arm Statement)} (h : TracedIn text arms) :
    TracedIn text (Statement.cases arms span) :=
  traced_of_children trivial (List.forall_mem_map.mpr h)

theorem traced_loop {p : Pattern} {condition : Option Expression}
    {alternative : Option (List Statement)} (hp : TracedIn text p) (he : TracedIn text e)
    (hc : TracedIn text condition) (hb : TracedIn text b) (ha : TracedIn text alternative) :
    TracedIn text (Statement.loop p e condition b alternative span) := by
  refine traced_of_children trivial fun c hmem => ?_
  simp only [children, List.mem_cons, List.mem_append, List.mem_map, Option.mem_toList] at hmem
  rcases hmem with rfl | rfl | ⟨x, hx, rfl⟩ | rfl | ⟨x, hx, rfl⟩
  · exact hp
  · exact he
  · exact hc x hx
  · exact hb
  · cases alternative with
    | none => cases hx
    | some xs => exact ha xs rfl x hx

theorem traced_macroCall (hi : TracedIn text i) (hes : TracedIn text es) (hb : TracedIn text b) :
    TracedIn text (Statement.macroCall i es b span) := by
  refine traced_of_children trivial fun c hmem => ?_
  simp only [children, List.mem_cons, List.mem_append, List.mem_map, List.not_mem_nil,
    or_false] at hmem
  rcases hmem with rfl | ⟨x, hx, rfl⟩ | rfl
  · exact hi
  · exact hes x hx
  · exact hb

theorem traced_blockCall (hi : TracedIn text i) : TracedIn text (Statement.blockCall i span) :=
  traced_of_children trivial (List.forall_mem_singleton.mpr hi)

theorem traced_filterBlock (he : TracedIn text e) (hb : TracedIn text b) :
    TracedIn text (Statement.filterBlock e b span) :=
  traced_of_children trivial (by simpa [children] using ⟨he, hb⟩)

theorem traced_arm {body : List Statement} (he : TracedIn text e) (hb : TracedIn text body) :
    TracedIn text (⟨e, body, span⟩ : Arm Statement) :=
  traced_of_children trivial (by simpa [children] using ⟨he, hb⟩)

/-- The arm of an `else` needs no condition that is spelled. -/
theorem traced_else {body : List Statement} {first stop : Position}
    (hw : Keyword.OpensTagAt text .elseWord first) (hb : TracedIn text body) :
    TracedIn text (⟨.boolean true (.empty first), body, ⟨first, stop⟩⟩ : Arm Statement) := by
  refine .intro trivial fun c hmem hc => ?_
  simp only [children, List.mem_cons, List.mem_map] at hmem
  rcases hmem with rfl | ⟨x, hx, rfl⟩
  · exact absurd ⟨_, rfl, rfl, rfl, hw⟩ hc
  · exact hb x hx

theorem traced_parameter {fallback : Option Expression} (hi : TracedIn text i)
    (hf : TracedIn text fallback) : TracedIn text (⟨i, fallback, span⟩ : Parameter) := by
  refine traced_of_children trivial fun c hmem => ?_
  simp only [children, List.mem_cons, List.mem_map, Option.mem_toList] at hmem
  rcases hmem with rfl | ⟨x, hx, rfl⟩
  · exact hi
  · exact hf x hx

theorem traced_macro {parameters : List Parameter} (hi : TracedIn text i)
    (hp : TracedIn text parameters) (hb : TracedIn text b) :
    TracedIn text (⟨i, parameters, b, span⟩ : Macro) := by
  refine traced_of_children trivial fun c hmem => ?_
  simp only [children, List.mem_cons, List.mem_append, List.mem_map, List.not_mem_nil,
    or_false] at hmem
  rcases hmem with rfl | ⟨x, hx, rfl⟩ | rfl
  · exact hi
  · exact hp x hx
  · exact hb

theorem traced_block (hi : TracedIn text i) (hb : TracedIn text b) :
    TracedIn text (⟨i, b, span⟩ : Block) :=
  traced_of_children trivial (by simpa [children] using ⟨hi, hb⟩)

theorem traced_opened (p : Position) : TracedIn text (Scope.opened p : Body) :=
  traced_of_leaf (n := scope _) trivial rfl

theorem traced_closed (hb : TracedIn text b) (p : Position) : TracedIn text (b.closed p) :=
  traced_of_children (n := scope _) trivial fun _ hc => hb.of_mem (by simp) hc

theorem traced_push (hb : TracedIn text b) {s : Statement} (hs : TracedIn text s) :
    TracedIn text (b.push s) := by
  refine traced_of_children (n := scope _) trivial fun c hc => ?_
  simp only [children, Scope.push, List.map_append, List.mem_append, List.map_cons, List.map_nil,
    List.mem_singleton] at hc
  rcases hc with hc | hc | rfl
  · exact hb.of_mem (by simp) (List.mem_append_left _ hc)
  · exact hb.of_mem (by simp) (List.mem_append_right _ hc)
  · exact hs

theorem Traced.body (hb : TracedIn text b) : TracedIn text b.body := fun s hs =>
  hb.of_mem (c := statement s) (by simp) (by simp [children, hs])

end Node

/-! ## Computations -/

/-- Where the invariant holds the computation keeps it, and its value is traced in the text. -/
def Traces {σ α : Type} [Traceable α] (text : String) (I : σ → Prop) (m : EStateM Fault σ α) :
    Prop := Ensures I m (fun a s => TracedIn text a ∧ I s) fun _ _ => True

namespace Traces
variable {σ α β : Type} [Traceable α] [Traceable β] {text : String} {I : σ → Prop}

theorem pure {a : α} (h : TracedIn text a) : Traces text I (pure a : EStateM Fault σ α) :=
  Ensures.pure fun _ hs => ⟨h, hs⟩

theorem throw (f : Fault) : Traces text I (throw f : EStateM Fault σ α) :=
  Ensures.throw fun _ _ => trivial

theorem bind {m : EStateM Fault σ α} {f : α → EStateM Fault σ β} (hm : Traces text I m)
    (hf : ∀ a, TracedIn text a → Traces text I (f a)) : Traces text I (m >>= f) :=
  Ensures.bind hm fun a => Ensures.given (hf a)

theorem discard {m : EStateM Fault σ α} (hm : Traces text I m) :
    Traces text I (discard m : EStateM Fault σ PUnit) := hm.bind fun _ _ => pure trivial

theorem loop {size : σ → Nat} {step : β → EStateM Fault σ (ForInStep β)}
    (h : ∀ b, TracedIn text b → Traces text I (step b)) {b : β} (hb : TracedIn text b) :
    Traces text I (loop size step b) := by
  refine (Ensures.loop_weak (I := fun b s => TracedIn text b ∧ I s) (fun b => ?_) b).before
    fun s hs => ⟨hb, hs⟩
  refine Ensures.given fun hb => (h b hb).after fun r s hr => ?_
  cases r <;> exact hr

end Traces

namespace Reader
variable {text : String} {α : Type} [Traceable α]

/-- The reader stands in the text, and a token that was looked at is one of the text. -/
def StandsIn (text : String) (r : Reader) : Prop :=
  (Cursor.ofText text).Reaches r.cursor ∧ ∀ l ∈ r.peeked, l.IsReadIn text

/-- A reader of the text whose values are traced in it. -/
abbrev Traces (text : String) (m : ReadM α) : Prop := TemplateSyntax.Traces text (StandsIn text) m

theorem traces_next : Traces text next := by
  rintro r ⟨hc, hp⟩
  cases h : next r with
  | error f t => trivial
  | ok l t =>
    rcases next_eq_ok h with ⟨hl, rfl⟩ | ⟨hl, hr, rfl⟩
    · exact ⟨hp l hl, hc, by simp⟩
    · refine ⟨⟨r.cursor, hc, congrArg Prod.fst hr⟩, hc.trans (r.cursor.reaches_behindNext true), ?_⟩
      simp [fetched, hl]

theorem traces_peek : Traces text peek := by
  intro r hr
  have hn := traces_next r hr
  rw [run_peek]
  cases h : next r with
  | error f t => trivial
  | ok l t =>
    rw [h] at hn
    exact ⟨hn.1, hn.2.1, tracedIn_some hn.1⟩

theorem traces_atSymbol (s : Symbol) : Traces text (atSymbol s) :=
  traces_peek.bind fun _ _ => .pure trivial

theorem traces_atKeyword (k : Keyword) : Traces text (atKeyword k) :=
  traces_peek.bind fun _ _ => .pure trivial

theorem traces_expectSymbol (s : Symbol) : Traces text (expectSymbol s) := by
  refine traces_next.bind fun l _ => ?_
  split
  · exact .pure trivial
  · exact .throw _

theorem traces_expectKeyword (k : Keyword) : Traces text (expectKeyword k) := by
  refine traces_next.bind fun l _ => ?_
  split
  · exact .pure trivial
  · exact .throw _

theorem traces_expectName : Traces text expectName := by
  refine traces_next.bind fun l hl => ?_
  split
  · next name ht =>
    exact .pure (Node.traced_of_leaf (n := .identifier _) (hl.slice_of_identifier ht) rfl)
  · exact .throw _

theorem traces_variableName : Traces text variableName :=
  traces_expectName.bind fun name h =>
    .pure (Node.traced_of_leaf (n := .name ⟨name.value, name.span⟩) h.spelled rfl)

theorem traces_nextItem {item : ReadM α} (h : Traces text item) {found : List α}
    (hfound : TracedIn text found) : Traces text (nextItem item found) := by
  refine (traces_atSymbol _).bind fun atEnd _ => ?_
  split
  · exact .pure hfound
  · refine h.bind fun x hx => (traces_atSymbol _).bind fun atClose _ => ?_
    split
    · exact .pure (tracedIn_snoc hfound hx)
    · exact (traces_expectSymbol _).discard.bind fun _ _ => .pure (tracedIn_snoc hfound hx)

theorem traces_items {item : ReadM α} (h : Traces text item) : Traces text (items item) :=
  (Traces.loop (fun _ => traces_nextItem h) tracedIn_nil).bind fun _ hfound =>
    (traces_expectSymbol _).bind fun _ _ => .pure ⟨hfound, trivial⟩

end Reader

namespace Expression
variable {text : String} {deeper : Descent}

/-- Both readers of a level give expressions traced in the text. -/
structure Level.Traces (text : String) (level : Level) : Prop where
  operand : Reader.Traces text level.operand
  operation (stops : List String) (minimum : Nat) :
    Reader.Traces text (level.operation stops minimum)

/-- Going down to the next level, and on with readers of that level. -/
def Descent.Traces (text : String) (deeper : Descent) : Prop :=
  ∀ (span : Span) {β : Type} [Traceable β] (f : Level → ReadM β),
    (∀ level : Level, level.Traces text → Reader.Traces text (f level)) →
      Reader.Traces text (deeper span >>= f)

theorem traces_stringValue {l : Lexeme} (h : l.IsReadIn text) {raw : String}
    (hl : l.token = .string raw) : Reader.Traces text (stringValue raw l.span) := by
  unfold stringValue
  split
  · exact .throw _
  · next hraw =>
    split
    · next hd => exact .pure (Node.traced_of_leaf (h.spelled_string hl hraw hd) rfl)
    · exact .throw _
    · exact .throw _

theorem traces_arguments (hd : deeper.Traces text) : Reader.Traces text (arguments deeper) :=
  (Reader.traces_expectSymbol _).bind fun span _ =>
    hd span _ fun _ h => Reader.traces_items (h.operation _ _)

theorem traces_primaryFrom (hd : deeper.Traces text) {l : Lexeme} (hl : l.IsReadIn text) :
    Reader.Traces text (primaryFrom deeper l) := by
  unfold primaryFrom
  split
  · next ht => exact .pure (Node.traced_of_leaf (hl.spelled_number ht) rfl)
  · next ht => exact traces_stringValue hl ht
  · next word ht =>
    exact .pure (Node.traced_of_leaf (n := .expression (.name ⟨word, l.span⟩))
      (hl.slice_of_identifier ht) rfl)
  · exact hd l.span _ fun level h => (h.operation _ _).bind fun _ hinner =>
      (Reader.traces_expectSymbol _).discard.bind fun _ _ => .pure hinner
  · exact .throw _

theorem traces_primary (hd : deeper.Traces text) : Reader.Traces text (primary deeper) :=
  Reader.traces_next.bind fun _ hl => traces_primaryFrom hd hl

theorem traces_nextSuffix (hd : deeper.Traces text) {e : Expression} (he : TracedIn text e) :
    Reader.Traces text (nextSuffix deeper e) := by
  refine (Reader.traces_atSymbol _).bind fun atDot _ => ?_
  split
  · exact Reader.traces_next.discard.bind fun _ _ => Reader.traces_variableName.bind fun p hp =>
      .pure (Node.traced_member he hp)
  · refine (Reader.traces_atSymbol _).bind fun atParen _ => ?_
    split
    · exact (traces_arguments hd).bind fun (args, close) ⟨hargs, _⟩ =>
        .pure (Node.traced_call he hargs)
    · exact .pure he

theorem traces_term (hd : deeper.Traces text) : Reader.Traces text (term deeper) :=
  (traces_primary hd).bind fun _ he => .loop (fun _ => traces_nextSuffix hd) he

/-- A sign is spelled by the token that it was read as. -/
theorem spelled_of_sign? {l : Lexeme} (hl : l.IsReadIn text) {op : Operator}
    (h : sign? l.token = some op) : (Node.operator ⟨op, l.span⟩).Spelled text := by
  unfold sign? at h
  split at h
  · next ht =>
    cases h
    exact hl.slice_of_symbol ht
  · next word ht =>
    split at h
    · next hword =>
      cases h
      rw [hword] at ht
      exact hl.slice_of_identifier ht
    · cases h
  · cases h

/-- An operator is spelled by the token that it was read as. -/
theorem spelled_of_joint? {l : Lexeme} (hl : l.IsReadIn text) {stops : List String} {minimum : Nat}
    {op : Operator} {binding : Binding}
    (h : joint? stops minimum l.token = some (.binary op, binding)) :
    (Node.operator ⟨op, l.span⟩).Spelled text := by
  have htoken : Joint.ofToken? l.token = some (.binary op) := by
    simp only [joint?, Option.bind_eq_bind] at h
    split at h
    · cases h
    · obtain ⟨j, hj, b, -, hif⟩ := by simpa only [Option.bind_eq_some_iff] using h
      split at hif
      · cases hif
        exact hj
      · cases hif
  have hwritten := Joint.ofToken?_eq_binary_iff.mp htoken
  generalize ht : l.token = t at hwritten
  cases hwritten with
  | symbol hs =>
    have hslice := hl.slice_of_symbol ht
    rwa [hs] at hslice
  | word _ => exact hl.slice_of_identifier ht

theorem traces_operand (hd : deeper.Traces text) : Reader.Traces text (operand deeper) := by
  refine Reader.traces_peek.bind fun l hl => ?_
  split
  · exact traces_term hd
  · next op hop =>
    refine Reader.traces_next.discard.bind fun _ _ => hd l.span _ fun level h => ?_
    exact h.operand.bind fun e he => .pure (Node.traced_unary (spelled_of_sign? hl hop) he)

theorem traces_nextJoint (hd : deeper.Traces text) (stops : List String) (minimum : Nat)
    {left : Expression} (hleft : TracedIn text left) :
    Reader.Traces text (nextJoint deeper stops minimum left) := by
  refine Reader.traces_peek.bind fun l hl => ?_
  split
  · exact .pure hleft
  · exact Reader.traces_next.discard.bind fun _ _ => (traces_term hd).bind fun e he =>
      .pure (Node.traced_filter hleft he)
  · next op binding hop =>
    refine Reader.traces_next.discard.bind fun _ _ => hd l.span _ fun level h => ?_
    exact (h.operation _ _).bind fun e he =>
      .pure (Node.traced_binary (spelled_of_joint? hl hop) hleft he)

theorem traces_operation (hd : deeper.Traces text) (stops : List String) (minimum : Nat) :
    Reader.Traces text (operation deeper stops minimum) :=
  (traces_operand hd).bind fun _ he => .loop (fun _ => traces_nextJoint hd stops minimum) he

theorem traces_descend (n : Nat) : (descend n).Traces text := by
  induction n with
  | zero =>
    intro span _ _ f _
    rw [descend_zero_bind]
    exact .throw _
  | succ n ih =>
    intro span _ _ f hf
    rw [descend_succ_bind]
    exact hf _ ⟨traces_operand ih, traces_operation ih⟩

theorem traces_read (n : Nat) (stops : List String) : Reader.Traces text (read n stops) :=
  traces_operation (traces_descend n) stops 0

theorem traces_readFilter (n : Nat) : Reader.Traces text (readFilter n) :=
  traces_term (traces_descend n)

end Expression

namespace Draft
variable {text : String} {α : Type} [Traceable α] {n : Nat} {body : BodyReader} {opening : Span}

/-! ## Parts of tags -/

theorem traces_endTag : Reader.Traces text endTag := Reader.traces_expectSymbol _

theorem traces_lastExpression : Reader.Traces text (lastExpression n) :=
  (Expression.traces_read _ _).bind fun _ he => traces_endTag.discard.bind fun _ _ => .pure he

theorem traces_nextName {names : List Variable × Span} (h : TracedIn text names) :
    Reader.Traces text (nextName names) := by
  refine (Reader.traces_atSymbol _).bind fun atComma _ => ?_
  split
  · exact Reader.traces_next.discard.bind fun _ _ => Reader.traces_variableName.bind fun v hv =>
      .pure ⟨tracedIn_snoc h.1 hv, trivial⟩
  · exact .pure h

theorem traces_pattern : Reader.Traces text pattern := by
  refine Reader.traces_variableName.bind fun first hfirst => ?_
  refine (Reader.traces_atSymbol _).bind fun atComma _ => ?_
  split
  · have hstart : TracedIn text [first] := tracedIn_cons hfirst tracedIn_nil
    exact Traces.bind (.loop (fun _ => traces_nextName) ⟨hstart, trivial⟩)
      fun _ h => .pure (Node.traced_unpack h.1)
  · exact .pure (Node.traced_single hfirst)

theorem traces_nextFilter {filters : List Expression} (h : TracedIn text filters) :
    Reader.Traces text (nextFilter n filters) := by
  refine (Reader.traces_atSymbol _).bind fun atBar _ => ?_
  split
  · exact Reader.traces_next.discard.bind fun _ _ =>
      (Expression.traces_readFilter _).bind fun e he => .pure (tracedIn_snoc h he)
  · exact .pure h

theorem traces_placeable : Reader.Traces text (placeable n opening) := by
  refine (Expression.traces_read _ _).bind fun value hvalue => ?_
  refine Traces.bind (.loop (fun _ => traces_nextFilter) tracedIn_nil) fun filters hfilters => ?_
  exact (Reader.traces_expectSymbol _).bind fun _ _ => .pure (Node.traced_put hvalue hfilters)

theorem traces_loopCondition : Reader.Traces text (loopCondition n) := by
  refine (Reader.traces_atKeyword _).bind fun atIf _ => ?_
  split
  · exact Reader.traces_next.discard.bind fun _ _ =>
      (Expression.traces_read _ _).bind fun e he => .pure (tracedIn_some he)
  · exact .pure tracedIn_none

theorem traces_loopHead : Reader.Traces text (loopHead n) := by
  refine traces_pattern.bind fun target htarget => ?_
  refine (Reader.traces_expectKeyword _).discard.bind fun _ _ => ?_
  refine (Expression.traces_read _ _).bind fun iterable hiterable => ?_
  refine traces_loopCondition.bind fun condition hcondition => ?_
  exact traces_endTag.discard.bind fun _ _ => .pure ⟨htarget, hiterable, hcondition⟩

theorem traces_setTag : Reader.Traces text (setTag n opening) := by
  refine traces_pattern.bind fun target htarget => ?_
  refine (Reader.traces_expectSymbol _).discard.bind fun _ _ => ?_
  refine (Expression.traces_read _ _).bind fun value hvalue => ?_
  exact (Reader.traces_expectSymbol _).bind fun _ _ => .pure (Node.traced_assign htarget hvalue)

theorem traces_callArguments : Reader.Traces text (callArguments n) := by
  refine (Reader.traces_atSymbol _).bind fun atParen _ => ?_
  split
  · exact (Expression.traces_arguments (Expression.traces_descend _)).bind fun _ h => .pure h.1
  · exact .pure tracedIn_nil

theorem traces_callHead : Reader.Traces text (callHead n) := by
  refine Reader.traces_expectName.bind fun name hname => ?_
  refine traces_callArguments.bind fun args hargs => ?_
  exact traces_endTag.discard.bind fun _ _ => .pure ⟨hname, hargs⟩

theorem traces_closingName (name : String) : Reader.Traces text (closingName name) := by
  refine Reader.traces_peek.bind fun l _ => ?_
  split
  · split
    · exact Reader.traces_next.discard
    · exact .throw _
  · exact .pure trivial

theorem traces_blockHead : Reader.Traces text blockHead :=
  Reader.traces_expectName.bind fun _ hname => traces_endTag.discard.bind fun _ _ => .pure hname

theorem traces_blockEnd (name : String) : Reader.Traces text (blockEnd name) :=
  (traces_closingName name).bind fun _ _ => traces_endTag

theorem traces_parameter : Reader.Traces text (parameter n) := by
  refine Reader.traces_expectName.bind fun name hname => ?_
  refine (Reader.traces_atSymbol _).bind fun atAssign _ => ?_
  split
  · exact Reader.traces_next.discard.bind fun _ _ => (Expression.traces_read _ _).bind fun e he =>
      .pure (Node.traced_parameter hname (tracedIn_some he))
  · exact .pure (Node.traced_parameter hname tracedIn_none)

theorem traces_macroHead : Reader.Traces text (macroHead n) := by
  refine Reader.traces_expectName.bind fun name hname => ?_
  refine (Reader.traces_expectSymbol _).discard.bind fun _ _ => ?_
  refine (Reader.traces_items traces_parameter).bind fun (parameters, close) h => ?_
  exact traces_endTag.discard.bind fun _ _ => .pure ⟨hname, h.1⟩

/-! ## Drafts -/

/-- The draft stands in the text before no token that was looked at, and all that it holds is traced
in the text. -/
structure StandsIn (text : String) (d : Draft) : Prop where
  peeked : d.reader.peeked = none
  reaches : (Cursor.ofText text).Reaches d.reader.cursor
  current : TracedIn text d.current
  enclosing : TracedIn text d.enclosing
  macros : TracedIn text d.macros
  blocks : TracedIn text d.blocks
  parent : TracedIn text d.parent

/-- A computation on drafts of the text whose values are traced in it. -/
abbrev Traces (text : String) (m : DraftM α) : Prop := TemplateSyntax.Traces text (StandsIn text) m

theorem traces_lift {m : ReadM α} (h : Reader.Traces text m) (hs : Reader.Settles m) :
    Traces text (liftM m : DraftM α) := by
  intro d hd
  have hm := h d.reader ⟨hd.reaches, by simp [hd.peeked]⟩
  rw [run_lift]
  cases hr : m d.reader with
  | error f r => trivial
  | ok a r =>
    rw [hr] at hm
    exact ⟨hm.1, { hd with peeked := hs _ _ _ hr, reaches := hm.2.1 }⟩

theorem traces_discard_endTag : Traces text (discard (liftM endTag : DraftM Span) : DraftM PUnit) :=
  (traces_lift traces_endTag settles_endTag).discard

theorem traces_push {s : Statement} (h : TracedIn text s) : Traces text (push s) := fun _ hd =>
  ⟨trivial, { hd with current := Node.traced_push hd.current h }⟩

theorem traces_note (e : Event) : Traces text (note e) := fun _ hd => ⟨trivial, { hd with }⟩

theorem traces_position : Traces text position := fun _ hd => ⟨trivial, hd⟩

theorem traces_openBody : Traces text openBody := fun _ hd =>
  ⟨trivial, { hd with
    current := Node.traced_opened _
    enclosing := tracedIn_cons hd.current hd.enclosing }⟩

theorem traces_closeBody (stop : Position) : Traces text (closeBody stop) := by
  intro d hd
  have hopen := hd.enclosing
  have hclosed := Node.traced_closed hd.current stop
  rw [closeBody, run_modifyGet]
  cases he : d.enclosing with
  | nil => exact ⟨hclosed, hd⟩
  | cons outer others =>
    rw [he] at hopen
    obtain ⟨houter, hothers⟩ := List.forall_mem_cons.mp hopen
    exact ⟨hclosed, { hd with current := houter, enclosing := hothers }⟩

theorem traces_define {x : Definition} (h : TracedIn text x) : Traces text (define x) := by
  intro d hd
  cases x with
  | ofMacro m => exact ⟨trivial, { hd with macros := tracedIn_insert hd.macros _ h }⟩
  | ofBlock b => exact ⟨trivial, { hd with blocks := tracedIn_insert hd.blocks _ h }⟩

theorem traces_setParent {target : Expression} (h : TracedIn text target) :
    Traces text (setParent target) := by
  intro d hd
  rw [run_setParent]
  split
  · exact ⟨trivial, hd⟩
  · exact ⟨trivial, { hd with parent := tracedIn_some h }⟩

theorem StandsIn.behindText {d : Draft} (hd : d.StandsIn text) : d.behindText.StandsIn text := by
  have hreaches := hd.reaches.trans d.reader.cursor.reaches_behindText
  refine { hd with reaches := hreaches, current := ?_ }
  unfold Draft.behindText
  dsimp only
  split
  · exact hd.current
  · refine Node.traced_push hd.current (Node.traced_of_leaf (n := .statement (.text _ _)) ?_ rfl)
    exact hd.reaches.slice?_eq rfl d.reader.cursor.rest_eq_textRun_append

/-- Behind text stands the token that opens a tag or a placeable, right where the text ends. -/
theorem ensures_opening : Ensures (StandsIn text) Draft.opening
    (fun found d => d.StandsIn text ∧ ∀ l ∈ found, l.token = .symbol .beginTag →
      ∃ c : Cursor, (Cursor.ofText text).Reaches c ∧ c.position = l.span.start ∧
        c.Opens .beginTag d.reader.cursor)
    fun _ _ => True := by
  intro d hd
  have htext := hd.behindText
  rcases opening_cases hd.peeked with ⟨-, hr⟩ | ⟨s, l, r, -, ho, hr, hl, hstart, hp⟩
  · rw [hr]
    exact ⟨htext, by simp⟩
  · obtain ⟨span, hnext⟩ := ho.2
    have hreaches := htext.reaches.trans (Cursor.reaches_of_next hnext)
    rw [hr]
    refine ⟨{ htext with peeked := hp, reaches := hreaches }, ?_⟩
    intro l' hl' htag
    obtain rfl := Option.some.inj hl'
    obtain rfl : s = .beginTag := by simpa [hl] using htag
    exact ⟨_, htext.reaches, hstart.symm, ho⟩

/-- The name that is taken next is read from the cursor, as no token was looked at. -/
theorem ensures_expectName (c : Cursor) :
    Ensures (fun d : Draft => d.StandsIn text ∧ d.reader.cursor = c)
      (liftM Reader.expectName : DraftM Identifier)
      (fun name d => d.StandsIn text ∧ ∃ e, c.Reads (.identifier name.value) e)
      fun _ _ => True := by
  rintro d ⟨hd, rfl⟩
  have htraced := traces_lift Reader.traces_expectName .expectName d hd
  have hlands := Reader.Lands.expectName d.reader (.inl ⟨hd.peeked, rfl⟩)
  rw [run_lift] at htraced ⊢
  cases hr : Reader.expectName d.reader with
  | error f r => trivial
  | ok name r =>
    rw [hr] at htraced hlands
    obtain ⟨e, -, he⟩ := hlands
    exact ⟨htraced.2, e, he⟩

/-! ## Tags and bodies -/

/-- A reader of bodies gives bodies traced in the text, whatever words close them. -/
def BodyReader.Traces (text : String) (body : BodyReader) : Prop :=
  ∀ closers, Draft.Traces text (body closers)

theorem traces_nextArm (hb : body.Traces text) {x : List (Arm Statement) × Closing}
    (h : TracedIn text x) : Traces text (nextArm n body x) := by
  obtain ⟨arms, closing⟩ := x
  unfold nextArm
  dsimp only
  split
  · refine (traces_lift traces_lastExpression settles_lastExpression).bind
      fun condition hcondition => ?_
    refine (hb _).bind fun (scope, next) ⟨hscope, hnext⟩ => ?_
    exact .pure ⟨tracedIn_snoc h.1 (Node.traced_arm hcondition hscope.body), hnext⟩
  · exact .pure h

theorem traces_ifTag (hb : body.Traces text) : Traces text (ifTag n body opening) := by
  refine (traces_lift traces_lastExpression settles_lastExpression).bind
    fun condition hcondition => ?_
  refine (hb _).bind fun (first, closing) ⟨hfirst, hclosing⟩ => ?_
  have harms : TracedIn text
      [(⟨condition, first.body, ⟨opening.start, closing.span.stop⟩⟩ : Arm Statement)] :=
    tracedIn_cons (Node.traced_arm hcondition hfirst.body) tracedIn_nil
  refine Traces.bind (.loop (fun _ => traces_nextArm hb) ⟨harms, hclosing⟩)
    fun (arms, closing) ⟨harms, hclosing⟩ => ?_
  dsimp only
  split
  · next hword =>
    refine traces_discard_endTag.bind fun _ _ => ?_
    refine (hb _).bind fun (scope, last) ⟨hscope, _⟩ => ?_
    refine traces_discard_endTag.bind fun _ _ => ?_
    have helse : Keyword.OpensTagAt text .elseWord closing.opening.start := hword ▸ hclosing
    exact .pure (Node.traced_cases (tracedIn_snoc harms (Node.traced_else helse hscope.body)))
  · exact traces_discard_endTag.bind fun _ _ => .pure (Node.traced_cases harms)

theorem traces_forTag (hb : body.Traces text) : Traces text (forTag n body opening) := by
  refine (traces_lift traces_loopHead settles_loopHead).bind
    fun (target, iterable, condition) ⟨htarget, hiterable, hcondition⟩ => ?_
  refine (hb _).bind fun (main, closing) ⟨hmain, _⟩ => ?_
  dsimp only
  split
  · refine traces_discard_endTag.bind fun _ _ => ?_
    refine (hb _).bind fun (alternative, last) ⟨halternative, _⟩ => ?_
    refine traces_discard_endTag.bind fun _ _ => ?_
    exact .pure (Node.traced_loop htarget hiterable hcondition hmain
      (tracedIn_some (α := List Statement) halternative.body))
  · refine traces_discard_endTag.bind fun _ _ => ?_
    exact .pure (Node.traced_loop htarget hiterable hcondition hmain
      (tracedIn_none (α := List Statement)))

theorem traces_callTag (hb : body.Traces text) : Traces text (callTag n body opening) := by
  refine (traces_lift traces_callHead settles_callHead).bind fun (name, args) ⟨hname, hargs⟩ => ?_
  refine (hb _).bind fun (scope, _) ⟨hscope, _⟩ => ?_
  exact traces_discard_endTag.bind fun _ _ => .pure (Node.traced_macroCall hname hargs hscope)

theorem traces_filterTag (hb : body.Traces text) : Traces text (filterTag n body opening) := by
  refine (traces_lift traces_lastExpression settles_lastExpression).bind fun filter hfilter => ?_
  refine (hb _).bind fun (scope, _) ⟨hscope, _⟩ => ?_
  exact traces_discard_endTag.bind fun _ _ => .pure (Node.traced_filterBlock hfilter hscope)

theorem traces_blockTag (hb : body.Traces text) : Traces text (blockTag body opening) := by
  refine (traces_lift traces_blockHead settles_blockHead).bind fun name hname => ?_
  refine (hb _).bind fun (scope, _) ⟨hscope, _⟩ => ?_
  refine (traces_lift (traces_blockEnd _) (settles_blockEnd _)).bind fun close _ => ?_
  refine Traces.bind (α := PUnit) (traces_define (Node.traced_block hname hscope)) fun _ _ => ?_
  exact .pure (Node.traced_blockCall hname)

theorem traces_macroTag (hb : body.Traces text) : Traces text (macroTag n body opening) := by
  refine (traces_lift traces_macroHead settles_macroHead).bind
    fun (name, parameters) ⟨hname, hparameters⟩ => ?_
  refine (hb _).bind fun (scope, closing) ⟨hscope, _⟩ => ?_
  refine traces_discard_endTag.bind fun _ _ => ?_
  exact traces_define (Node.traced_macro hname hparameters hscope)

theorem traces_extendsTag : Traces text (extendsTag n) := by
  refine (traces_lift traces_lastExpression settles_lastExpression).bind fun target htarget => ?_
  refine (traces_setParent htarget).bind fun isFirst _ => ?_
  split
  · exact .pure trivial
  · exact .throw _

theorem traces_tag (hb : body.Traces text) (name : Identifier) :
    Traces text (tag n body opening name) := by
  unfold tag
  split
  · exact (traces_ifTag hb).bind fun _ h => traces_push h
  · exact (traces_forTag hb).bind fun _ h => traces_push h
  · exact (traces_lift traces_setTag settles_setTag).bind fun _ h => traces_push h
  · exact (traces_callTag hb).bind fun _ h => traces_push h
  · exact (traces_filterTag hb).bind fun _ h => traces_push h
  · exact (traces_blockTag hb).bind fun _ h => traces_push h
  · exact traces_macroTag hb
  · exact traces_extendsTag
  · exact .throw _

theorem traces_piece (hb : body.Traces text) (closers : List Keyword) :
    Traces text (piece n body closers) := by
  refine ensures_opening.bind fun found => ?_
  split
  · exact (Traces.pure tracedIn_none).before fun _ h => h.1
  · next l =>
    split
    · refine Ensures.before ?_ fun d (h : d.StandsIn text ∧ _) => h.1
      refine (traces_lift traces_placeable settles_placeable).bind fun s hs => ?_
      exact Traces.bind (α := PUnit) (traces_push hs) fun _ _ => .pure tracedIn_none
    · next htoken =>
      rintro d ⟨hd, hl⟩
      obtain ⟨c, hc, hstart, ho⟩ := hl l rfl htoken
      refine (ensures_expectName d.reader.cursor).bind (fun name => ?_) d ⟨hd, rfl⟩
      refine Ensures.bind (Q := fun _ d' =>
        (∃ e, d.reader.cursor.Reads (.identifier name.value) e) ∧ d'.StandsIn text)
        (fun d' ⟨hd', he⟩ => ⟨he, (traces_note _ d' hd').2⟩) fun _ => ?_
      refine Ensures.given fun ⟨e, he⟩ => ?_
      split
      · next keyword hkeyword =>
        have hword : keyword.spelling = name.value := by simpa using List.find?_some hkeyword
        have hreads : d.reader.cursor.ReadsWord keyword e := by
          rw [Cursor.ReadsWord, hword]
          exact he
        exact Traces.pure (tracedIn_some (a := (⟨keyword, l.span, name.span⟩ : Closing))
          ⟨c, _, e, hc, hstart, ho, hreads⟩)
      · exact Traces.bind (α := PUnit) (traces_tag hb name) fun _ _ => .pure tracedIn_none
    · exact (Traces.throw _).before fun _ h => h.1

theorem traces_content (hb : body.Traces text) (closers : List Keyword) :
    Traces text (content n body closers) :=
  .loop (fun _ _ => traces_piece hb closers) tracedIn_none

theorem traces_body (n : Nat) : (Draft.body n).Traces text := by
  induction n with
  | zero => exact fun _ => traces_position.bind fun _ _ => .throw _
  | succ n ih =>
    intro closers
    refine Traces.bind (α := PUnit) traces_openBody fun _ _ => ?_
    refine (traces_content ih closers).bind fun found hfound => ?_
    split
    · exact (traces_closeBody _).bind fun _ h => .pure ⟨h, hfound _ rfl⟩
    · exact traces_position.bind fun _ _ => .throw _

theorem traces_readAll : Traces text readAll := (traces_content (traces_body _) []).discard

theorem standsIn_ofText (text : String) : (ofText text).StandsIn text where
  peeked := rfl
  reaches := .refl _
  current := Node.traced_opened _
  enclosing := tracedIn_nil
  macros := by
    intro e he
    cases he
  blocks := by
    intro e he
    cases he
  parent := tracedIn_none

/-- What a draft holds is traced in the text, and so is the template that it comes to. -/
theorem StandsIn.template {d : Draft} (hd : d.StandsIn text) :
    (Node.template d.template).Traced text := by
  refine Node.traced_of_children trivial fun c hmem => ?_
  simp only [Node.children, Draft.template, List.mem_cons, List.mem_append, List.mem_map,
    Option.mem_toList] at hmem
  rcases hmem with rfl | (⟨e, he, rfl⟩ | ⟨e, he, rfl⟩) | ⟨e, he, rfl⟩
  · exact Node.traced_closed hd.current _
  · exact hd.parent e he
  · exact hd.blocks e he
  · exact hd.macros e he

end Draft

/-- Every leaf of a template is spelled in its source. The source at the span of a text, a name or
an operator is that text, name or operator; at the span of a number it is a decimal literal that is
read as that number when it stands alone; at the span of a string it is a quoted literal with that
value. The one leaf for which nothing is written is the condition of an `else`, which stands where
the tag of the `else` opens. -/
theorem compile_spelled {text : String} {name : Option String} {t : Template}
    (h : compile text name = .ok t) {parent leaf : Node}
    (hp : Relation.ReflTransGen Node.HasChild (.template t) parent) (hl : parent.HasChild leaf) :
    leaf.Spelled text ∨ parent.IsElseCondition text leaf := by
  obtain ⟨d, hr, -, rfl⟩ := compile_eq_ok_iff.mp h
  have hd := (Draft.traces_readAll.ok (Draft.standsIn_ofText text) hr).2
  exact (hd.template.of_hasChild hp hl).imp (·.spelled) id

/-- A literal with an escape, behind a text of two bytes. -/
theorem compile_spelled_literal :
    ∃ t put, compile "ä\x7b\x7b '\\'b' \x7d\x7d" = .ok t ∧
      Relation.ReflTransGen Node.HasChild (.template t) (.statement put) ∧
      (Node.statement put).HasChild (.expression (.string "'b" ⟨⟨5, 1, 4⟩, ⟨10, 1, 9⟩⟩)) ∧
      (Node.expression (.string "'b" ⟨⟨5, 1, 4⟩, ⟨10, 1, 9⟩⟩)).Spelled
        "ä\x7b\x7b '\\'b' \x7d\x7d" := by
  let put := Statement.put (.string "'b" ⟨⟨5, 1, 4⟩, ⟨10, 1, 9⟩⟩) [] ⟨⟨2, 1, 1⟩, ⟨13, 1, 12⟩⟩
  let body : Body := ⟨[], [.text "ä" ⟨⟨0, 1, 0⟩, ⟨2, 1, 1⟩⟩, put], ⟨⟨0, 1, 0⟩, ⟨13, 1, 12⟩⟩⟩
  let t : Template := ⟨none, .empty, .empty, body, body.span⟩
  have h : compile "ä\x7b\x7b '\\'b' \x7d\x7d" = .ok t := by decide +kernel
  have hput : Relation.ReflTransGen Node.HasChild (.template t) (.statement put) := by
    refine .tail (.single (b := .scope body) ?_) ?_
    · exact List.mem_cons_self
    · exact List.mem_cons_of_mem _ List.mem_cons_self
  refine ⟨t, put, h, hput, List.mem_cons_self, ?_⟩
  rcases compile_spelled h hput List.mem_cons_self with hspelled | ⟨a, ha, -⟩
  · exact hspelled
  · cases ha

end TemplateSyntax
