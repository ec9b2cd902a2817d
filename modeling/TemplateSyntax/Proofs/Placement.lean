import TemplateSyntax.Draft

/-!
# The positions in a value

Tokens, faults, syntax trees and drafts hold positions, most of them as the ends of spans.
`Everywhere P x` says that `P` holds of every position in `x`, at any depth.
-/
namespace TemplateSyntax

/-- Types whose values may hold positions. -/
class HasPositions (α : Type) where
  /-- A property that every position in a value has. -/
  Everywhere : (Position → Prop) → α → Prop

export HasPositions (Everywhere)

variable {P : Position → Prop} {α β : Type}

section Containers
variable [HasPositions α] [HasPositions β]

instance : HasPositions PUnit := ⟨fun _ _ => True⟩
instance : HasPositions Bool := ⟨fun _ _ => True⟩
instance : HasPositions (List α) := ⟨fun P l => ∀ a ∈ l, Everywhere P a⟩
instance : HasPositions (Option α) := ⟨fun P o => ∀ a ∈ o, Everywhere P a⟩
instance : HasPositions (α × β) := ⟨fun P x => Everywhere P x.1 ∧ Everywhere P x.2⟩
instance : HasPositions (Table α) := ⟨fun P t => ∀ e ∈ t.entries, Everywhere P e.2⟩

instance : HasPositions (ForInStep α) where
  Everywhere P
    | .done a | .yield a => Everywhere P a

instance {ε : Type} [HasPositions ε] : HasPositions (Except ε α) where
  Everywhere P
    | .ok a => Everywhere P a
    | .error e => Everywhere P e

theorem everywhere_nil : Everywhere P ([] : List α) := by
  intro a ha
  cases ha

theorem everywhere_append {as bs : List α} (ha : Everywhere P as) (hb : Everywhere P bs) :
    Everywhere P (as ++ bs) := by
  intro a h
  rcases List.mem_append.mp h with h | h
  · exact ha a h
  · exact hb a h

theorem everywhere_cons {a : α} {as : List α} (ha : Everywhere P a) (has : Everywhere P as) :
    Everywhere P (a :: as) := by
  intro b h
  rcases List.mem_cons.mp h with rfl | h
  · exact ha
  · exact has b h

theorem everywhere_singleton {a : α} (ha : Everywhere P a) : Everywhere P [a] :=
  everywhere_cons ha everywhere_nil

theorem everywhere_none : Everywhere P (none : Option α) := by
  intro a h
  cases h

theorem everywhere_some {a : α} (ha : Everywhere P a) : Everywhere P (some a) := by
  intro b h
  cases h
  exact ha

/-- A table with one more binding holds no other positions. -/
theorem everywhere_insert {t : Table α} (ht : Everywhere P t) (name : String) {a : α}
    (ha : Everywhere P a) : Everywhere P (t.insert name a) := by
  intro e he
  rcases Table.mem_bind he with rfl | he
  · exact ha
  · exact ht e he

end Containers

/-! ## Spans -/

instance : HasPositions Position := ⟨fun P p => P p⟩
instance : HasPositions Span := ⟨fun P s => P s.start ∧ P s.stop⟩

theorem everywhere_empty {p : Position} (h : P p) : Everywhere P (Span.empty p) := ⟨h, h⟩

/-- A combined span has its ends from the two spans. -/
theorem everywhere_combine {a b : Span} (ha : Everywhere P a) (hb : Everywhere P b) :
    Everywhere P (a.combine b) := by
  constructor
  · simp only [Span.combine]
    split
    · exact hb.1
    · exact ha.1
  · simp only [Span.combine]
    split
    · exact hb.2
    · exact ha.2

/-! ## Tokens and trees -/

instance : HasPositions Lexeme := ⟨fun P l => Everywhere P l.span⟩
instance : HasPositions Fault := ⟨fun P f => Everywhere P f.span⟩
instance : HasPositions Variable := ⟨fun P v => Everywhere P v.span⟩
instance : HasPositions Identifier := ⟨fun P i => Everywhere P i.span⟩
instance : HasPositions WrittenOperator := ⟨fun P o => Everywhere P o.span⟩

/-- A property of every position in an expression. -/
inductive Expression.All (P : Position → Prop) : Expression → Prop
  | name {v : Variable} : Everywhere P v → All P (.name v)
  | number {n : Number} {s : Span} : Everywhere P s → All P (.number n s)
  | string {t : String} {s : Span} : Everywhere P s → All P (.string t s)
  | boolean {b : Bool} {s : Span} : Everywhere P s → All P (.boolean b s)
  | member {object : Expression} {property : Variable} {s : Span} : All P object →
      Everywhere P property → Everywhere P s →
      All P (.member object property s)
  | call {function : Expression} {args : List Expression} {s : Span} : All P function →
      (∀ a ∈ args, All P a) → Everywhere P s →
      All P (.call function args s)
  | binary {op : WrittenOperator} {left right : Expression} {s : Span} :
      Everywhere P op → All P left → All P right →
      Everywhere P s → All P (.binary op left right s)
  | unary {op : WrittenOperator} {argument : Expression} {s : Span} :
      Everywhere P op → All P argument → Everywhere P s →
      All P (.unary op argument s)
  | filter {value filter : Expression} {s : Span} : All P value → All P filter →
      Everywhere P s → All P (.filter value filter s)

instance : HasPositions Expression := ⟨Expression.All⟩

theorem Expression.everywhere_span {e : Expression} (h : Everywhere P e) :
    Everywhere P e.span := by
  cases h <;> assumption

instance : HasPositions Pattern where
  Everywhere P
    | .single v => Everywhere P v
    | .unpack names s => Everywhere P names ∧ Everywhere P s

/-- A property of every position in a statement. -/
inductive Statement.All (P : Position → Prop) : Statement → Prop
  | text {run : String} {s : Span} : Everywhere P s → All P (.text run s)
  | put {value : Expression} {filters : List Expression} {s : Span} :
      Everywhere P value → Everywhere P filters →
      Everywhere P s → All P (.put value filters s)
  | cases {arms : List (Arm Statement)} {s : Span} :
      (∀ arm ∈ arms, Everywhere P arm.condition) →
      (∀ arm ∈ arms, ∀ x ∈ arm.body, All P x) →
      (∀ arm ∈ arms, Everywhere P arm.span) → Everywhere P s →
      All P (.cases arms s)
  | loop {pattern : Pattern} {iterable : Expression} {condition : Option Expression}
      {declared : List Identifier} {body : List Statement} {span : Span}
      {alternative : Option (List Statement)} {s : Span} : Everywhere P pattern →
      Everywhere P iterable → Everywhere P condition →
      Everywhere P declared → (∀ x ∈ body, All P x) →
      Everywhere P span → (∀ xs ∈ alternative, ∀ x ∈ xs, All P x) →
      Everywhere P s →
      All P (.loop pattern iterable condition ⟨declared, body, span⟩ alternative s)
  | assign {pattern : Pattern} {value : Expression} {s : Span} :
      Everywhere P pattern → Everywhere P value →
      Everywhere P s → All P (.assign pattern value s)
  | macroCall {name : Identifier} {args : List Expression} {declared : List Identifier}
      {body : List Statement} {span s : Span} : Everywhere P name →
      Everywhere P args → Everywhere P declared →
      (∀ x ∈ body, All P x) → Everywhere P span →
      Everywhere P s →
      All P (.macroCall name args ⟨declared, body, span⟩ s)
  | blockCall {name : Identifier} {s : Span} : Everywhere P name →
      Everywhere P s → All P (.blockCall name s)
  | filterBlock {filter : Expression} {declared : List Identifier} {body : List Statement}
      {span s : Span} : Everywhere P filter → Everywhere P declared →
      (∀ x ∈ body, All P x) → Everywhere P span →
      Everywhere P s → All P (.filterBlock filter ⟨declared, body, span⟩ s)

instance : HasPositions Statement := ⟨Statement.All⟩

instance [HasPositions α] : HasPositions (Scope α) where
  Everywhere P s := Everywhere P s.declared ∧ Everywhere P s.body ∧ Everywhere P s.span

instance [HasPositions α] : HasPositions (Arm α) where
  Everywhere P a := Everywhere P a.condition ∧ Everywhere P a.body ∧ Everywhere P a.span

namespace Scope
variable {s : Scope α} [HasPositions α]

theorem everywhere_opened {p : Position} (h : P p) : Everywhere P (opened p : Scope α) :=
  ⟨everywhere_nil, everywhere_nil, everywhere_empty h⟩

theorem everywhere_closed (hs : Everywhere P s) {p : Position} (h : P p) :
    Everywhere P (s.closed p) := ⟨hs.1, hs.2.1, hs.2.2.1, h⟩

theorem everywhere_push (hs : Everywhere P s) {x : α} (h : Everywhere P x) :
    Everywhere P (s.push x) :=
  ⟨hs.1, everywhere_append hs.2.1 (everywhere_singleton h), hs.2.2⟩

end Scope

namespace Statement

/-- Arms are told by their parts. -/
theorem everywhere_cases {arms : List (Arm Statement)} {s : Span}
    (ha : Everywhere P arms) (hs : Everywhere P s) :
    Everywhere P (cases arms s) :=
  .cases (fun a h => (ha a h).1) (fun a h => (ha a h).2.1) (fun a h => (ha a h).2.2) hs

end Statement

/-! ## Templates and drafts -/

instance : HasPositions Closing where
  Everywhere P c := Everywhere P c.opening ∧ Everywhere P c.span

instance : HasPositions Parameter where
  Everywhere P p := Everywhere P p.name ∧ Everywhere P p.fallback ∧ Everywhere P p.span

instance : HasPositions Macro where
  Everywhere P m := Everywhere P m.name ∧ Everywhere P m.parameters ∧ Everywhere P m.body ∧
    Everywhere P m.span

instance : HasPositions Block where
  Everywhere P b := Everywhere P b.name ∧ Everywhere P b.body ∧ Everywhere P b.span

instance : HasPositions Template where
  Everywhere P t := Everywhere P t.parent ∧ Everywhere P t.blocks ∧ Everywhere P t.macros ∧
    Everywhere P t.body ∧ Everywhere P t.span

instance : HasPositions Definition where
  Everywhere P
    | .ofMacro m => Everywhere P m
    | .ofBlock b => Everywhere P b

instance : HasPositions Event where
  Everywhere P
    | .tag _ span => Everywhere P span
    | .defined d | .redefined d => Everywhere P d

instance : HasPositions Cursor := ⟨fun P c => P c.position⟩

instance : HasPositions Reader where
  Everywhere P r := Everywhere P r.cursor ∧ Everywhere P r.peeked

/-- A property of every position in a draft. -/
structure Draft.All (P : Position → Prop) (d : Draft) : Prop where
  reader : Everywhere P d.reader
  current : Everywhere P d.current
  enclosing : Everywhere P d.enclosing
  macros : Everywhere P d.macros
  blocks : Everywhere P d.blocks
  parent : Everywhere P d.parent
  log : Everywhere P d.log

instance : HasPositions Draft := ⟨Draft.All⟩

end TemplateSyntax
