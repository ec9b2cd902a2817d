import TemplateSyntax.Template
import Mathlib.Logic.Relation
import Mathlib.Tactic

/-!
# The nodes of a tree

Whatever has a span of its own in a template is a node, and the parts of a node are its children.
A node is orderly if its children lie inside it and one behind the other; it is tidy if all nodes in
it are orderly. Trees are put together from rows of tidy nodes that follow each other in the text.
-/
namespace TemplateSyntax

namespace Span

/-- The first span ends before the second one begins, or right there. -/
def Before (a b : Span) : Prop := a.stop.offset ≤ b.start.offset

/-- The first span is a part of the second one. -/
def Inside (a b : Span) : Prop :=
  b.start.offset ≤ a.start.offset ∧ a.start.offset ≤ a.stop.offset ∧ a.stop.offset ≤ b.stop.offset

/-- The spans follow each other, and each one may overlap with its neighbours only. -/
def Staggered : List Span → Prop
  | a :: b :: rest =>
    a.start.offset < b.start.offset ∧ a.stop.offset < b.stop.offset ∧ (∀ c ∈ rest, a.Before c) ∧
      Staggered (b :: rest)
  | _ => True

theorem combine_eq {a b : Span} (hstart : a.start.offset ≤ b.start.offset)
    (hstop : a.stop.offset < b.stop.offset) : a.combine b = ⟨a.start, b.stop⟩ := by
  simp [combine, Nat.not_lt.mpr hstart, hstop]

theorem combine_self (a : Span) : a.combine a = a := by
  simp [combine]

theorem isEmpty_eq_false_iff {a : Span} : a.isEmpty = false ↔ a.start.offset < a.stop.offset := by
  simp [isEmpty, length]
  omega

/-- One more span behind the last of staggered spans. -/
theorem Staggered.snoc {spans : List Span} {a b : Span}
    (h : Staggered (spans ++ [a])) (hstart : a.start.offset < b.start.offset)
    (hstop : a.stop.offset < b.stop.offset) (hb : ∀ s ∈ spans, s.Before b) :
    Staggered (spans ++ [a, b]) := by
  induction spans with
  | nil => exact ⟨hstart, hstop, by simp, trivial⟩
  | cons s spans ih =>
    have hrest := fun t ht => hb t (List.mem_cons_of_mem s ht)
    cases spans with
    | nil =>
      obtain ⟨hs, hs', -, ht⟩ := h
      exact ⟨hs, hs', by simpa using hb s (by simp), ih ht hrest⟩
    | cons t spans =>
      obtain ⟨hs, hs', hall, ht⟩ := h
      refine ⟨hs, hs', fun c hc => ?_, ih ht hrest⟩
      have hc : c ∈ spans ++ [a] ∨ c = b := by simpa [or_assoc] using hc
      rcases hc with hc | rfl
      · exact hall c hc
      · exact hb s (by simp)

end Span

/-- A part of a template that has a span of its own. -/
inductive Node where
  | name (v : Variable)
  | identifier (i : Identifier)
  | operator (o : WrittenOperator)
  | expression (e : Expression)
  | pattern (p : Pattern)
  | statement (s : Statement)
  | arm (a : Arm Statement)
  | scope (b : Body)
  | parameter (p : Parameter)
  | ofMacro (m : Macro)
  | ofBlock (b : Block)
  | template (t : Template)

namespace Node

def span : Node → Span
  | name v => v.span
  | identifier i => i.span
  | operator o => o.span
  | expression e => e.span
  | pattern p => p.span
  | statement s => s.span
  | arm a => a.span
  | scope b => b.span
  | parameter p => p.span
  | ofMacro m => m.span
  | ofBlock b => b.span
  | template t => t.span

/-- The parts of a node, in the order of the text. A name that stands for a value is one node with
the expression or pattern that it is. Only the parts of a template are in no order: it keeps its
definitions apart from its body. -/
def children : Node → List Node
  | expression (.member object property _) => [expression object, name property]
  | expression (.call function args _) => expression function :: args.map expression
  | expression (.binary op left right _) => [expression left, operator op, expression right]
  | expression (.unary op argument _) => [operator op, expression argument]
  | expression (.filter value filter _) => [expression value, expression filter]
  | pattern (.unpack names _) => names.map name
  | statement (.put value filters _) => expression value :: filters.map expression
  | statement (.cases arms _) => arms.map arm
  | statement (.loop target iterable condition body alternative _) =>
    pattern target :: expression iterable :: (condition.toList.map expression ++
      scope body :: (alternative.getD []).map statement)
  | statement (.assign target value _) => [pattern target, expression value]
  | statement (.macroCall called args body _) =>
    identifier called :: (args.map expression ++ [scope body])
  | statement (.blockCall called _) => [identifier called]
  | statement (.filterBlock filter body _) => [expression filter, scope body]
  | arm a => expression a.condition :: a.body.map statement
  | scope b => b.declared.map identifier ++ b.body.map statement
  | parameter p => identifier p.name :: p.fallback.toList.map expression
  | ofMacro m => identifier m.name :: (m.parameters.map parameter ++ [scope m.body])
  | ofBlock b => [identifier b.name, scope b.body]
  | template t =>
    scope t.body :: (t.parent.toList.map expression ++
      t.blocks.entries.map (fun e => ofBlock e.2) ++ t.macros.entries.map fun e => ofMacro e.2)
  | name _ | identifier _ | operator _ | expression _ | pattern _ | statement _ => []

/-- The nodes that begin with their first child. -/
def beginsWithChild : Node → Bool
  | expression (.member ..) | expression (.call ..) | expression (.binary ..)
  | expression (.unary ..) | expression (.filter ..) | pattern (.unpack ..) | parameter _ => true
  | _ => false

/-- The children that may be empty: bodies, and the condition of an `else`. -/
def mayBeEmpty : (parent child : Node) → Bool
  | _, scope _ => true
  | arm _, expression (.boolean true _) => true
  | _, _ => false

/-- The children stand one behind the other. Each arm of a conditional reaches over the tag that
the next one begins with. -/
def Ordered : Node → Prop
  | template _ => True
  | statement (.cases arms _) => Span.Staggered (arms.map (·.span))
  | n => n.children.Pairwise fun a b => a.span.Before b.span

/-- What is to be expected of a node and its children. -/
structure Orderly (n : Node) : Prop where
  inside : ∀ c ∈ n.children, c.span.Inside n.span
  ordered : n.Ordered
  begins : n.beginsWithChild = true → n.children.head?.map (·.span.start) = some n.span.start
  filled : ∀ c ∈ n.children, mayBeEmpty n c = false → c.span.isEmpty = false

/-- The second node is a child of the first. -/
def HasChild (n c : Node) : Prop := c ∈ n.children

/-- The node and all nodes in it are orderly. -/
inductive Tidy : Node → Prop
  | intro {n : Node} (h : n.Orderly) (hc : ∀ c ∈ n.children, Tidy c) : Tidy n

theorem Tidy.orderly_of_within {n m : Node} (h : n.Tidy)
    (hm : Relation.ReflTransGen HasChild n m) : m.Orderly := by
  have htidy : m.Tidy := by
    induction hm with
    | refl => exact h
    | tail _ hc ih =>
      obtain ⟨-, hall⟩ := ih
      exact hall _ hc
  obtain ⟨ho, -⟩ := htidy
  exact ho

theorem tidy_of_no_children {n : Node} (h : n.children = []) (hb : n.beginsWithChild = false) :
    n.Tidy := by
  refine .intro ⟨by simp [h], ?_, by simp [hb], by simp [h]⟩ (by simp [h])
  unfold Ordered
  split
  · trivial
  · next arms _ =>
    obtain rfl : arms = [] := by simpa [children] using h
    trivial
  · rw [h]
    exact .nil

/-! ## What holds everywhere in a node -/

/-- The property holds of the node and of all nodes in it. -/
def Throughout (P : Node → Prop) (n : Node) : Prop :=
  ∀ m, Relation.ReflTransGen HasChild n m → P m

namespace Throughout
variable {P Q : Node → Prop} {n c : Node}

theorem here (h : n.Throughout P) : P n := h n .refl

theorem child (h : n.Throughout P) (hc : c ∈ n.children) : c.Throughout P :=
  fun m hm => h m (.head hc hm)

theorem mono (h : n.Throughout P) (hPQ : ∀ m, P m → Q m) : n.Throughout Q :=
  fun m hm => hPQ m (h m hm)

theorem of_children (hn : P n) (h : ∀ c ∈ n.children, c.Throughout P) : n.Throughout P := by
  intro m hm
  rcases Relation.ReflTransGen.cases_head hm with rfl | ⟨c, hc, hm⟩
  · exact hn
  · exact h c hc m hm

/-- What parts inherit holds throughout. -/
theorem of_inherited (hn : P n) (h : ∀ a b, P a → a.HasChild b → P b) : n.Throughout P := by
  intro m hm
  induction hm with
  | refl => exact hn
  | tail _ hc ih => exact h _ _ ih hc

end Throughout

/-! ## Rows -/

/-- The node covers some text, or is a body. -/
def Firm (n : Node) : Prop :=
  n.span.start.offset ≤ n.span.stop.offset ∧
    ((∃ b, n = scope b) ∨ n.span.start.offset < n.span.stop.offset)

/-- Tidy nodes, one behind the other between two offsets. -/
def Row (lo : Nat) : List Node → (hi : Nat) → Prop
  | [], hi => lo ≤ hi
  | n :: ns, hi => n.Tidy ∧ n.Firm ∧ lo ≤ n.span.start.offset ∧ Row n.span.stop.offset ns hi

variable {lo mid hi : Nat} {m n : Node} {ms ns : List Node}

theorem firm_of_lt (h : n.span.start.offset < n.span.stop.offset) : n.Firm :=
  ⟨Nat.le_of_lt h, .inr h⟩

theorem row_single (ht : n.Tidy) (hf : n.Firm) (hlo : lo ≤ n.span.start.offset)
    (hhi : n.span.stop.offset ≤ hi) : Row lo [n] hi := ⟨ht, hf, hlo, hhi⟩

namespace Row

theorem le (h : Row lo ns hi) : lo ≤ hi := by
  induction ns generalizing lo with
  | nil => exact h
  | cons n ns ih =>
    obtain ⟨-, hf, hlo, hs⟩ := h
    have hn := hf.1
    have hle := ih hs
    omega

theorem append (hm : Row lo ms mid) (hn : Row mid ns hi) : Row lo (ms ++ ns) hi := by
  induction ms generalizing lo with
  | nil =>
    cases ns with
    | nil => exact Nat.le_trans hm hn
    | cons n ns =>
      obtain ⟨ht, hf, hlo, hs⟩ := hn
      exact ⟨ht, hf, Nat.le_trans hm hlo, hs⟩
  | cons m ms ih =>
    obtain ⟨ht, hf, hlo, hs⟩ := hm
    exact ⟨ht, hf, hlo, ih hs⟩

theorem widen {lo' hi' : Nat} (h : Row lo ns hi) (hlo : lo' ≤ lo) (hhi : hi ≤ hi') :
    Row lo' ns hi' := by
  have hfirst : Row lo' [] lo := hlo
  have hlast : Row hi [] hi' := hhi
  simpa using (hfirst.append h).append hlast

theorem mem (h : Row lo ns hi) (hn : n ∈ ns) :
    n.Tidy ∧ n.Firm ∧ lo ≤ n.span.start.offset ∧ n.span.stop.offset ≤ hi := by
  induction ns generalizing lo with
  | nil => cases hn
  | cons m ns ih =>
    obtain ⟨ht, hf, hlo, hs⟩ := h
    rcases List.mem_cons.mp hn with rfl | hn
    · exact ⟨ht, hf, hlo, hs.le⟩
    · obtain ⟨ht', hf', hlo', hhi⟩ := ih hs hn
      have hm := hf.1
      exact ⟨ht', hf', by omega, hhi⟩

theorem pairwise (h : Row lo ns hi) : ns.Pairwise fun a b => a.span.Before b.span := by
  induction ns generalizing lo with
  | nil => exact .nil
  | cons n ns ih =>
    obtain ⟨-, -, -, hs⟩ := h
    exact .cons (fun m hm => (hs.mem hm).2.2.1) (ih hs)

/-- The first node of a row may be where the row begins. -/
theorem of_cons (h : Row lo (n :: ns) hi) : Row n.span.start.offset (n :: ns) hi :=
  ⟨h.1, h.2.1, Nat.le_refl _, h.2.2.2⟩

end Row

theorem Firm.isEmpty_eq_false (h : n.Firm) (hn : mayBeEmpty m n = false) :
    n.span.isEmpty = false := by
  obtain ⟨-, ⟨b, rfl⟩ | hlt⟩ := h
  · simp [mayBeEmpty] at hn
  · exact Span.isEmpty_eq_false_iff.mpr hlt

/-- A node around a row of nodes is tidy, unless it is a conditional. -/
theorem tidy_of_row (h : Row n.span.start.offset n.children n.span.stop.offset)
    (hn : ∀ arms s, n ≠ statement (.cases arms s))
    (hb : n.beginsWithChild = true → n.children.head?.map (·.span.start) = some n.span.start) :
    n.Tidy := by
  refine .intro ⟨fun c hc => ?_, ?_, hb, fun c hc he => ?_⟩ fun c hc => (h.mem hc).1
  · obtain ⟨-, hf, hlo, hhi⟩ := h.mem hc
    exact ⟨hlo, hf.1, hhi⟩
  · unfold Ordered
    split
    · trivial
    · next arms s => exact absurd rfl (hn arms s)
    · exact h.pairwise
  · obtain ⟨-, hf, -, -⟩ := h.mem hc
    exact hf.isEmpty_eq_false he

/-- A node of some text that is no conditional, around a row of its children. -/
theorem row_around (h : Row n.span.start.offset n.children n.span.stop.offset)
    (hlt : n.span.start.offset < n.span.stop.offset)
    (hn : ∀ arms s, n ≠ statement (.cases arms s)) (hb : n.beginsWithChild = false)
    (hlo : lo ≤ n.span.start.offset) (hhi : n.span.stop.offset ≤ hi) : Row lo [n] hi :=
  row_single (tidy_of_row h hn (by simp [hb])) (firm_of_lt hlt) hlo hhi

/-- A body around its statements. -/
theorem row_scope {b : Body} {start stop : Position} (hspan : b.span = ⟨start, stop⟩)
    (hd : b.declared = []) (h : Row start.offset (b.body.map statement) stop.offset) :
    Row start.offset [scope b] stop.offset := by
  have hnode : (scope b).span = ⟨start, stop⟩ := hspan
  have hrow : Row start.offset (scope b).children stop.offset := by
    simpa [children, hd] using h
  refine row_single (tidy_of_row ?_ (by simp) (by simp [beginsWithChild])) ⟨?_, .inl ⟨b, rfl⟩⟩ ?_ ?_
  · rwa [hnode]
  · rw [hnode]
    exact h.le
  · rw [hnode]
  · rw [hnode]

/-- A template around its parts, which may overlap. -/
theorem tidy_template {t : Template}
    (h : ∀ c ∈ (template t).children, Row t.span.start.offset [c] t.span.stop.offset) :
    (template t).Tidy := by
  refine .intro ⟨fun c hc => ?_, trivial, by simp [beginsWithChild], fun c hc he => ?_⟩
    fun c hc => (h c hc).1
  · obtain ⟨-, hf, hlo, hhi⟩ := h c hc
    exact ⟨hlo, hf.1, hhi⟩
  · exact (h c hc).2.1.isEmpty_eq_false he

/-! ## Nodes that begin with their first child -/

theorem Firm.lt (h : n.Firm) (hn : ∀ b, n ≠ scope b) :
    n.span.start.offset < n.span.stop.offset := by
  obtain ⟨-, ⟨b, hb⟩ | hlt⟩ := h
  · exact absurd hb (hn b)
  · exact hlt

/-- A node from where its first child begins, through its other children. -/
theorem row_joined {stop : Position} (hc : n.children = m :: ns)
    (hspan : n.span = ⟨m.span.start, stop⟩) (h : Row lo (m :: ns) stop.offset)
    (hhi : stop.offset ≤ hi) (hm : ∀ b, m ≠ scope b)
    (hn : ∀ arms s, n ≠ statement (.cases arms s)) : Row lo [n] hi := by
  have hstart : n.span.start = m.span.start := by rw [hspan]
  have hstop : n.span.stop = stop := by rw [hspan]
  have hlt := h.2.1.lt hm
  have hle := h.2.2.2.le
  refine row_single (tidy_of_row ?_ hn fun _ => ?_) (firm_of_lt ?_) ?_ ?_
  · rw [hstart, hstop, hc]
    exact h.of_cons
  · rw [hc, hstart]
    rfl
  · rw [hstart, hstop]
    omega
  · rw [hstart]
    exact h.2.2.1
  · rwa [hstop]

theorem row_name (v : Variable) (hlo : lo ≤ v.span.start.offset)
    (hlt : v.span.start.offset < v.span.stop.offset) (hhi : v.span.stop.offset ≤ hi) :
    Row lo [name v] hi :=
  row_single (tidy_of_no_children rfl rfl) (firm_of_lt hlt) hlo hhi

/-- A row may end where its last node does. -/
theorem Row.tight (ns : List Node) (h : Row lo (ns ++ [n]) hi) :
    Row lo (ns ++ [n]) n.span.stop.offset ∧ n.span.stop.offset ≤ hi := by
  induction ns generalizing lo with
  | nil => exact ⟨⟨h.1, h.2.1, h.2.2.1, Nat.le_refl _⟩, h.2.2.2⟩
  | cons m ns ih =>
    obtain ⟨ht, hf, hlo, hs⟩ := h
    obtain ⟨hrow, hle⟩ := ih hs
    exact ⟨⟨ht, hf, hlo, hrow⟩, hle⟩

/-- Nodes in a row are combined from where the first one starts to where the last one stops. -/
theorem Row.combine {first last : Node} (ns : List Node)
    (h : Row lo (first :: (ns ++ [last])) hi) (hl : ∀ b, last ≠ scope b) :
    first.span.combine last.span = ⟨first.span.start, last.span.stop⟩ := by
  obtain ⟨-, hfirm, hstart, -⟩ := h.2.2.2.mem (n := last) (by simp)
  have hlt := hfirm.lt hl
  have hle := h.2.1.1
  exact Span.combine_eq (by omega) (by omega)

/-- A node from where its first child begins to where its last child ends. -/
theorem row_combined {first last : Node} (ns : List Node)
    (hc : n.children = first :: (ns ++ [last])) (hspan : n.span = first.span.combine last.span)
    (h : Row lo (first :: (ns ++ [last])) hi) (hf : ∀ b, first ≠ scope b)
    (hl : ∀ b, last ≠ scope b) (hn : ∀ arms s, n ≠ statement (.cases arms s)) : Row lo [n] hi := by
  obtain ⟨hrow, hhi⟩ := Row.tight (first :: ns) h
  rw [Row.combine ns h hl] at hspan
  exact row_joined hc hspan hrow hhi hf hn

section Expressions
variable {e left right : Expression} {op : WrittenOperator}

theorem row_member {v : Variable} (h : Row lo [expression e, name v] hi) :
    Row lo [expression (.member e v (e.span.combine v.span))] hi :=
  row_combined [] rfl rfl h (by simp) (by simp) (by simp)

theorem row_call {args : List Expression} {close : Span}
    (h : Row lo (expression e :: args.map expression) mid) (hmid : mid ≤ close.start.offset)
    (hlt : close.start.offset < close.stop.offset) (hhi : close.stop.offset ≤ hi) :
    Row lo [expression (.call e args (e.span.combine close))] hi := by
  have hle : e.span.start.offset ≤ e.span.stop.offset := h.2.1.1
  have hrest : e.span.stop.offset ≤ mid := h.2.2.2.le
  have hspan : e.span.combine close = ⟨e.span.start, close.stop⟩ :=
    Span.combine_eq (by omega) (by omega)
  exact row_joined rfl hspan (h.widen (Nat.le_refl _) (by omega)) hhi (by simp) (by simp)

theorem row_binary (h : Row lo [expression left, operator op, expression right] hi) :
    Row lo [expression (.binary op left right (left.span.combine right.span))] hi :=
  row_combined [operator op] rfl rfl h (by simp) (by simp) (by simp)

theorem row_unary (h : Row lo [operator op, expression e] hi) :
    Row lo [expression (.unary op e (op.span.combine e.span))] hi :=
  row_combined [] rfl rfl h (by simp) (by simp) (by simp)

theorem row_filter (h : Row lo [expression left, expression right] hi) :
    Row lo [expression (.filter left right (left.span.combine right.span))] hi :=
  row_combined [] rfl rfl h (by simp) (by simp) (by simp)

theorem row_parameter {i : Identifier} (h : Row lo [identifier i] hi) :
    Row lo [parameter ⟨i, none, i.span.combine i.span⟩] hi := by
  rw [Span.combine_self]
  exact row_joined (n := parameter ⟨i, none, i.span⟩) rfl rfl (Row.tight [] h).1 h.2.2.2
    (by simp) (by simp)

theorem row_parameter_fallback {i : Identifier} (h : Row lo [identifier i, expression e] hi) :
    Row lo [parameter ⟨i, some e, i.span.combine e.span⟩] hi :=
  row_combined (n := parameter ⟨i, some e, _⟩) [] rfl rfl h (by simp) (by simp) (by simp)

end Expressions

/-! ## Arms -/

/-- The condition of an `else` is no text of its own, where its arm begins. -/
theorem tidy_elseArm {body : List Statement} {start stop : Position}
    (h : Row start.offset (body.map statement) stop.offset) :
    (arm ⟨.boolean true (.empty start), body, ⟨start, stop⟩⟩).Tidy := by
  have hcondition : (expression (.boolean true (.empty start))).Tidy := tidy_of_no_children rfl rfl
  refine .intro ⟨fun c hc => ?_, ?_, by simp [beginsWithChild], fun c hc he => ?_⟩ fun c hc => ?_
  · rcases List.mem_cons.mp hc with rfl | hc
    · exact ⟨Nat.le_refl _, Nat.le_refl _, h.le⟩
    · obtain ⟨-, hf, hlo, hhi⟩ := h.mem hc
      exact ⟨hlo, hf.1, hhi⟩
  · exact .cons (fun c hc => (h.mem hc).2.2.1) h.pairwise
  · rcases List.mem_cons.mp hc with rfl | hc
    · simp [mayBeEmpty] at he
    · obtain ⟨-, hf, -, -⟩ := h.mem hc
      exact hf.isEmpty_eq_false he
  · rcases List.mem_cons.mp hc with rfl | hc
    · exact hcondition
    · exact (h.mem hc).1

/-- Arms from an offset on. The tag behind them opens at `next`, and all but the last one end there
or before; the last one ends at `hi`, with the keyword of that tag. -/
structure Arms (lo : Nat) (arms : List (Arm Statement)) (next hi : Nat) : Prop where
  tidy : ∀ a ∈ arms, (arm a).Tidy
  bounds : ∀ a ∈ arms, lo ≤ a.span.start.offset ∧ a.span.start.offset < next ∧
    a.span.start.offset < a.span.stop.offset ∧ a.span.stop.offset ≤ hi
  next_lt : next < hi
  staggered : Span.Staggered (arms.map (·.span))
  last : ∃ others a, arms = others ++ [a] ∧ a.span.stop.offset = hi ∧
    ∀ b ∈ others, b.span.stop.offset ≤ next

namespace Arms
variable {arms : List (Arm Statement)} {a : Arm Statement} {next next' : Nat}

theorem single (ht : (arm a).Tidy) (hstart : a.span.start.offset < next)
    (hstop : next < a.span.stop.offset) :
    Arms a.span.start.offset [a] next a.span.stop.offset where
  tidy := by simpa using ht
  bounds := by
    simp only [List.mem_singleton, forall_eq]
    omega
  next_lt := hstop
  staggered := trivial
  last := ⟨[], a, rfl, rfl, by simp⟩

theorem snoc (h : Arms lo arms next hi) (ht : (arm a).Tidy) (hstart : a.span.start.offset = next)
    (hnext : hi ≤ next') (hstop : next' < a.span.stop.offset) :
    Arms lo (arms ++ [a]) next' a.span.stop.offset := by
  have hlt := h.next_lt
  obtain ⟨others, z, rfl, hz, hothers⟩ := h.last
  have hbounds := h.bounds z (by simp)
  refine ⟨fun b hb => ?_, fun b hb => ?_, hstop, ?_, others ++ [z], a, rfl, rfl, fun b hb => ?_⟩
  · rcases List.mem_append.mp hb with hb | hb
    · exact h.tidy b hb
    · rwa [List.mem_singleton.mp hb]
  · rcases List.mem_append.mp hb with hb | hb
    · have := h.bounds b hb
      omega
    · rw [List.mem_singleton.mp hb]
      omega
  · have hs := h.staggered
    simp only [List.map_append, List.map_cons, List.map_nil, List.append_assoc,
      List.cons_append, List.nil_append] at hs ⊢
    refine hs.snoc (by omega) (by omega) fun s hs => ?_
    obtain ⟨b, hb, rfl⟩ := List.mem_map.mp hs
    have := hothers b hb
    change b.span.stop.offset ≤ a.span.start.offset
    omega
  · have := (h.bounds b hb).2.2.2
    omega

/-- Arms make a conditional. -/
theorem row_cases (h : Arms lo arms next hi) {s : Span} (hstart : s.start.offset = lo)
    (hstop : s.stop.offset = hi) : Row lo [statement (.cases arms s)] hi := by
  have hlt : s.start.offset < s.stop.offset := by
    obtain ⟨others, a, rfl, -, -⟩ := h.last
    have := h.bounds a (by simp)
    omega
  refine row_single (.intro ⟨fun c hc => ?_, h.staggered, by simp [beginsWithChild],
    fun c hc _ => ?_⟩ fun c hc => ?_) (firm_of_lt hlt) (Nat.le_of_eq hstart.symm)
    (Nat.le_of_eq hstop)
  · obtain ⟨a, ha, rfl⟩ := List.mem_map.mp hc
    have := h.bounds a ha
    refine ⟨?_, ?_, ?_⟩ <;> simp only [span, Statement.span] <;> omega
  · obtain ⟨a, ha, rfl⟩ := List.mem_map.mp hc
    exact Span.isEmpty_eq_false_iff.mpr (h.bounds a ha).2.2.1
  · obtain ⟨a, ha, rfl⟩ := List.mem_map.mp hc
    exact h.tidy a ha

end Arms
end Node
end TemplateSyntax
