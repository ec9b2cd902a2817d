import TemplateSyntax.Proofs.PulledEntries
import TemplateSyntax.Proofs.WellFormed

/-!
# Where filters stand

Outside of parentheses a filter takes all that was read before it as its value, so the right side of
an operator and the operand of a sign never hold a filter. But reading does not end behind a filter:
an operator that is written there takes the filter as its left operand, however tightly it binds.
Only if no operator is written behind a bar do filters bind loosest of all.
-/
namespace TemplateSyntax

namespace Expression

/-- What an operator is applied to. -/
def operands : Expression → List Expression
  | .binary _ left right _ => [left, right]
  | .unary _ argument _ => [argument]
  | _ => []

/-- There is no filter in the expression. -/
def Unfiltered (e : Expression) : Prop :=
  (Node.expression e).Throughout fun n => ∀ x, n = .expression x → ¬ x.IsFilter

end Expression

/-- A bar is among the first entries behind the cursor. -/
def Cursor.BarBefore (c : Cursor) (k : Nat) : Prop :=
  ∃ i l, i < k ∧ c.entry i = .ok l ∧ l.token = .symbol .bar

/-- The operator is written behind a bar. -/
def WrittenOperator.BehindBar (c : Cursor) (op : WrittenOperator) : Prop :=
  ∃ k l, c.entry k = .ok l ∧ op.value.WrittenAs l.token ∧ op.span = l.span ∧ c.BarBefore k

/-- A filter that is a part of this node is the value of another filter, or the left operand of an
operator behind a bar. -/
def Node.PlacesFilters (c : Cursor) (n : Node) : Prop :=
  ∀ x a, n = .expression x → n.HasChild (.expression a) → a.IsFilter →
    (∃ f s, x = .filter a f s) ∨ ∃ op right s, x = .binary op a right s ∧ op.BehindBar c

/-! ## Trees -/

namespace Expression
variable {c d : Cursor} {e left right argument : Expression} {op : WrittenOperator} {s : Span}
  {j k : Nat} {l : Lexeme}

theorem throughout_of_plain {P : Node → Prop} {n : Node} (hn : n.children = []) (h : P n) :
    n.Throughout P :=
  .of_children h (by simp [hn])

namespace Unfiltered

theorem of_parts (he : ¬ e.IsFilter)
    (h : ∀ c ∈ (Node.expression e).children, (∃ x, c = .expression x ∧ x.Unfiltered) ∨
      c.children = [] ∧ ∀ x, c ≠ .expression x) : e.Unfiltered := by
  refine .of_children (fun x hx => ?_) fun c hc => ?_
  · cases hx
    exact he
  · rcases h c hc with ⟨x, rfl, hx⟩ | ⟨hc, hx⟩
    · exact hx
    · exact throughout_of_plain hc fun x hcx => absurd hcx (hx x)

theorem leaf (he : ¬ e.IsFilter) (hc : (Node.expression e).children = []) : e.Unfiltered :=
  of_parts he (by simp [hc])

theorem member {v : Variable} (h : e.Unfiltered) : (Expression.member e v s).Unfiltered := by
  refine of_parts id fun c hc => ?_
  rcases List.mem_pair.mp hc with rfl | rfl
  · exact .inl ⟨e, rfl, h⟩
  · exact .inr ⟨rfl, by simp⟩

theorem unary (h : argument.Unfiltered) : (Expression.unary op argument s).Unfiltered := by
  refine of_parts id fun c hc => ?_
  rcases List.mem_pair.mp hc with rfl | rfl
  · exact .inr ⟨rfl, by simp⟩
  · exact .inl ⟨argument, rfl, h⟩

theorem binary (hl : left.Unfiltered) (hr : right.Unfiltered) :
    (Expression.binary op left right s).Unfiltered := by
  refine of_parts id fun c hc => ?_
  rcases List.mem_cons.mp hc with rfl | hc
  · exact .inl ⟨left, rfl, hl⟩
  · rcases List.mem_pair.mp hc with rfl | rfl
    · exact .inr ⟨rfl, by simp⟩
    · exact .inl ⟨right, rfl, hr⟩

theorem not_isFilter (h : e.Unfiltered) : ¬ e.IsFilter := h.here e rfl

theorem places (h : e.Unfiltered) : (Node.expression e).Throughout (Node.PlacesFilters c) :=
  fun _ hn _ a _ ha hf => absurd hf (h _ (hn.tail ha) a rfl)

end Unfiltered

/-- An expression of the first entries behind a cursor, in which every filter is at its place. -/
structure Piped (c : Cursor) (k : Nat) (e : Expression) : Prop where
  places : (Node.expression e).Throughout (Node.PlacesFilters c)
  bar : e.IsFilter → c.BarBefore k

theorem Unfiltered.piped (h : e.Unfiltered) : Piped c k e :=
  ⟨h.places, fun hf => absurd hf h.not_isFilter⟩

/-- A bar makes a filter of all that was read before it. -/
theorem Piped.filter {f : Expression} (h : Piped c k e) (hf : f.Unfiltered)
    (hl : c.entry k = .ok l) (hbar : l.token = .symbol .bar) (hj : k < j) :
    Piped c j (.filter e f s) := by
  refine ⟨.of_children (fun x a hx ha hfa => ?_) fun c hc => ?_, fun _ => ⟨k, l, hj, hl, hbar⟩⟩
  · cases hx
    rcases List.mem_pair.mp ha with ha | ha
    · cases ha
      exact .inl ⟨_, _, rfl⟩
    · cases ha
      exact absurd hfa hf.not_isFilter
  · rcases List.mem_pair.mp hc with rfl | rfl
    · exact h.places
    · exact hf.places

/-- An operator takes all that was read before it as its left operand. -/
theorem Piped.binary (h : Piped c k left) (hr : right.Unfiltered) (hl : c.entry k = .ok l)
    (hop : op.value.WrittenAs l.token) (hspan : op.span = l.span) :
    Piped c j (.binary op left right s) := by
  refine ⟨.of_children (fun x a hx ha hfa => ?_) fun c hc => ?_, fun hf => hf.elim⟩
  · cases hx
    rcases List.mem_cons.mp ha with ha | ha
    · cases ha
      exact .inr ⟨_, _, _, rfl, k, l, hl, hop, hspan, h.bar hfa⟩
    · rcases List.mem_pair.mp ha with ha | ha
      · cases ha
      · cases ha
        exact absurd hfa hr.not_isFilter
  · rcases List.mem_cons.mp hc with rfl | hc
    · exact h.places
    · rcases List.mem_pair.mp hc with rfl | rfl
      · exact throughout_of_plain rfl fun x a hx => by cases hx
      · exact hr.places

end Expression

/-! ## Readers without parentheses -/

namespace Cursor
variable {c d e : Cursor} {k : Nat} {l : Lexeme} {t : Token}

/-- The cursor is behind at least this many entries. -/
def Onward (c : Cursor) (k : Nat) (d : Cursor) : Prop := ∃ j, k ≤ j ∧ d = c.behindEntries j

theorem entry_of_next (h : (c.behindEntries k).next true = (.ok l, d)) :
    c.entry k = .ok l ∧ d = c.behindEntries (k + 1) := by
  rw [next_behindEntries] at h
  obtain ⟨hl, hd⟩ := Prod.mk.inj h
  exact ⟨hl, hd.symm⟩

theorem reaches_behindEntries (c : Cursor) (k : Nat) : c.Reaches (c.behindEntries k) := by
  induction k with
  | zero => exact .refl c
  | succ k ih => exact ih.trans ((c.behindEntries k).reaches_behindNext true)

theorem Onward.step (h : c.Onward k d) (hd : d.Reads t e) : c.Onward (k + 1) e := by
  obtain ⟨j, hj, rfl⟩ := h
  obtain ⟨span, hd⟩ := hd
  exact ⟨j + 1, Nat.succ_le_succ hj, (entry_of_next hd).2⟩

theorem Onward.le {j : Nat} (h : c.Onward k d) (hj : j ≤ k) : c.Onward j d := by
  obtain ⟨i, hi, rfl⟩ := h
  exact ⟨i, Nat.le_trans hj hi, rfl⟩

/-- A parenthesis that is read is a character of the text. -/
theorem Onward.not_openParen (hp : '(' ∉ c.rest) (h : c.Onward k d) :
    ¬ d.ReadsSymbol .openParen e := by
  obtain ⟨j, -, rfl⟩ := h
  intro ho
  obtain ⟨taken, hrest, -, hmem⟩ := ho.mem_taken
  obtain ⟨before, hbefore, -⟩ := c.reaches_behindEntries j
  apply hp
  rw [hbefore, hrest]
  simp [hmem]

end Cursor

namespace Expression
open Reader

/-- If no parenthesis opens, then operands and right sides hold no filter. -/
structure PlainReaders (c : Cursor) (n : Nat) : Prop where
  operand : ∀ {k d}, c.Onward k d →
    Lands (operand (descend n)) d fun e d => e.Unfiltered ∧ c.Onward k d
  operation : ∀ {k d} (stops : List String) {minimum : Nat}, 1 < minimum → c.Onward k d →
    Lands (operation (descend n) stops minimum) d fun e d => e.Unfiltered ∧ c.Onward k d

section Readers
variable {c d : Cursor} (hp : '(' ∉ c.rest) {n k : Nat}

include hp in
theorem unfiltered_primary (hd : c.Onward k d) :
    Lands (primary (descend n)) d fun e d => e.Unfiltered ∧ c.Onward (k + 1) d := by
  refine Lands.next.bind fun l e hl => ?_
  have he := hd.step hl
  unfold primaryFrom
  split
  · exact Lands.pure ⟨.leaf id rfl, he⟩
  · unfold stringValue
    split
    · exact Lands.throw _
    · split
      · exact Lands.pure ⟨.leaf id rfl, he⟩
      · exact Lands.throw _
      · exact Lands.throw _
  · exact Lands.pure ⟨.leaf id rfl, he⟩
  · next ht =>
    rw [ht] at hl
    exact absurd hl (hd.not_openParen hp)
  · exact Lands.throw _

include hp in
theorem unfiltered_term (hd : c.Onward k d) :
    Lands (term (descend n)) d fun e d => e.Unfiltered ∧ c.Onward k d := by
  refine (unfiltered_primary hp hd).bind fun e f hf => ?_
  refine Lands.loop (descends_nextSuffix (tokenWise_descend n))
    (I := fun e d => e.Unfiltered ∧ c.Onward k d) (fun e d hd => ?_)
    ⟨hf.1, hf.2.le (Nat.le_succ k)⟩
  refine Lands.atSymbol_bind (fun f hdot => ?_) fun _ => Lands.atSymbol_bind (fun f ho => ?_) ?_
  · refine Lands.skip hdot (Lands.variableName.bind fun v g hg => Lands.pure ?_)
    obtain ⟨name, hg⟩ := hg
    exact ⟨hd.1.member, ((hd.2.step hdot).step hg).le (by omega)⟩
  · exact absurd ho (hd.2.not_openParen hp)
  · exact fun _ => Lands.pure hd

section Levels
variable (hn : ∀ m, n = m + 1 → PlainReaders c m)
include hp hn

theorem unfiltered_operand (hd : c.Onward k d) :
    Lands (operand (descend n)) d fun e d => e.Unfiltered ∧ c.Onward k d := by
  refine Lands.peek_bind fun l f hl => ?_
  split
  · exact unfiltered_term hp hd
  · refine Lands.skip hl (lands_descend fun m hm => ?_)
    exact ((hn m hm).operand (hd.step hl)).bind fun _ g hg =>
      Lands.pure ⟨hg.1.unary, hg.2.le (Nat.le_succ k)⟩

theorem plainReaders_of_deeper : PlainReaders c n where
  operand := unfiltered_operand hp hn
  operation {k d} stops minimum hmin hd := by
    refine (unfiltered_operand hp hn hd).bind fun e f hf => ?_
    refine Lands.loop (descends_nextJoint (tokenWise_descend n) _ _)
      (I := fun e d => e.Unfiltered ∧ c.Onward k d) (fun left g hg => ?_) hf
    refine Lands.peek_bind fun l h hl => ?_
    split
    · exact Lands.pure hg
    · next b hj =>
      -- A filter binds too loosely for a right side.
      obtain ⟨-, -, hb, hle⟩ := joint?_eq_some_iff.mp hj
      cases hb
      exact absurd hle (Nat.not_le.mpr hmin)
    · next op b hj =>
      obtain ⟨-, -, hb, -⟩ := joint?_eq_some_iff.mp hj
      refine Lands.skip hl (lands_descend fun m hm => ?_)
      exact ((hn m hm).operation stops (Operator.one_lt_rightMinimum hb) (hg.2.step hl)).bind
        fun _ i hi => Lands.pure ⟨hg.1.binary hi.1, hi.2.le (Nat.le_succ k)⟩

end Levels

include hp in
theorem plainReaders (n : Nat) : PlainReaders c n := by
  induction n using levels_induction with
  | level n hn => exact plainReaders_of_deeper hp hn

include hp in
/-- One more operator or filter behind what was read. -/
theorem piped_nextJoint {stops : List String} {minimum : Nat} {left : Expression}
    (hl : Piped c k left) :
    Lands (nextJoint (descend n) stops minimum left) (c.behindEntries k)
      (OnPass (fun e _ => ∃ k, Piped c k e) fun e d => ∃ k, d = c.behindEntries k ∧ Piped c k e) := by
  refine Lands.peek_lexeme_bind fun l f hf => ?_
  obtain ⟨hentry, rfl⟩ := Cursor.entry_of_next hf
  have hbehind : c.Onward (k + 1) (c.behindEntries (k + 1)) := ⟨k + 1, Nat.le_refl _, rfl⟩
  split
  · exact Lands.pure ⟨k, hl⟩
  · next hj =>
    obtain ⟨-, hbar, -⟩ := joint?_eq_some_iff.mp hj
    refine Lands.skip ⟨l.span, hf⟩ ((unfiltered_term hp hbehind).bind fun filter g hg => ?_)
    obtain ⟨hfilter, j, hj, rfl⟩ := hg
    exact Lands.pure ⟨j, rfl, hl.filter hfilter hentry (Joint.ofToken?_eq_filter_iff.mp hbar) hj⟩
  · next op b hj =>
    obtain ⟨-, hop, hb, -⟩ := joint?_eq_some_iff.mp hj
    refine Lands.skip ⟨l.span, hf⟩ (lands_descend fun m hm => ?_)
    refine ((plainReaders hp m).operation stops (Operator.one_lt_rightMinimum hb) hbehind).bind
      fun right g hg => ?_
    obtain ⟨hright, j, -, rfl⟩ := hg
    exact Lands.pure
      ⟨j, rfl, hl.binary hright hentry (Joint.ofToken?_eq_binary_iff.mp hop) rfl⟩

include hp in
theorem piped_operation (stops : List String) (minimum : Nat) :
    Lands (operation (descend n) stops minimum) c fun e _ => ∃ k, Piped c k e := by
  have hbegin : c.Onward 0 c := ⟨0, Nat.le_refl _, rfl⟩
  refine ((plainReaders hp n).operand hbegin).bind fun e f hf => ?_
  obtain ⟨he, j, -, rfl⟩ := hf
  refine Lands.loop (descends_nextJoint (tokenWise_descend n) _ _)
    (I := fun e d => ∃ k, d = c.behindEntries k ∧ Piped c k e) (fun left d hl => ?_)
    ⟨j, rfl, he.piped⟩
  obtain ⟨k, rfl, hl⟩ := hl
  exact piped_nextJoint hp hl

end Readers
end Expression

/-- A filter that is a part of this node is no operand, but the value of another filter. -/
structure Node.KeepsFiltersOutside (n : Node) : Prop where
  operands : ∀ x, n = .expression x → ∀ a ∈ x.operands, ¬ a.IsFilter
  value : ∀ x a, n = .expression x → n.HasChild (.expression a) → a.IsFilter →
    ∃ f s, x = .filter a f s

theorem Expression.hasChild_of_mem_operands {x a : Expression} (h : a ∈ x.operands) :
    (Node.expression x).HasChild (.expression a) := by
  cases x <;> simp_all [operands, Node.HasChild, Node.children]

namespace Session
variable {text : String} {name : Option String} {e : Expression} {s : Session}

/-- **Filters stand on the left.** Where no parenthesis opens, a filter that is a part of an
expression is the value of another filter, or the left operand of an operator that is written behind
a bar: it is never a right operand, and never the operand of a sign. So if no operator is written
behind a bar, then filters bind loosest of all. -/
theorem filter_places (hp : '(' ∉ text.toList)
    (h : (start text name).expression [] = (.ok e, s)) :
    (Node.expression e).Throughout (Node.PlacesFilters (.ofText text)) ∧
      ((∀ (k : Nat) (l : Lexeme) (op : Operator), (Cursor.ofText text).entry k = .ok l →
          op.WrittenAs l.token → ¬ (Cursor.ofText text).BarBefore k) →
        (Node.expression e).Throughout Node.KeepsFiltersOutside) := by
  obtain ⟨r, hr, -⟩ := run_lift_eq_ok.mp h
  obtain ⟨-, -, k, hpiped⟩ := (Expression.piped_operation (c := .ofText text) hp [] 0).ok
    (s := { cursor := .ofText text }) (.inl ⟨rfl, rfl⟩) hr
  refine ⟨hpiped.places, fun hbar => hpiped.places.mono fun n hn => ?_⟩
  have hvalue : ∀ x a, n = .expression x → n.HasChild (.expression a) → a.IsFilter →
      ∃ f s, x = .filter a f s := by
    intro x a hx ha hf
    rcases hn x a hx ha hf with hleft | ⟨op, right, span, -, j, l, hl, hop, -, hbefore⟩
    · exact hleft
    · exact absurd hbefore (hbar j l _ hl hop)
  refine ⟨?_, hvalue⟩
  rintro x rfl a ha hf
  obtain ⟨f, span, rfl⟩ := hvalue x a rfl (Expression.hasChild_of_mem_operands ha) hf
  cases ha

/-- In `a | f + b` the sum is applied to the filter. -/
theorem filter_places_sum :
    ((start "a | f + b").expression []).1 = .ok (.binary ⟨.add, ⟨⟨6, 1, 6⟩, ⟨7, 1, 7⟩⟩⟩
      (.filter (.name ⟨"a", ⟨⟨0, 1, 0⟩, ⟨1, 1, 1⟩⟩⟩) (.name ⟨"f", ⟨⟨4, 1, 4⟩, ⟨5, 1, 5⟩⟩⟩)
        ⟨⟨0, 1, 0⟩, ⟨5, 1, 5⟩⟩)
      (.name ⟨"b", ⟨⟨8, 1, 8⟩, ⟨9, 1, 9⟩⟩⟩) ⟨⟨0, 1, 0⟩, ⟨9, 1, 9⟩⟩) ∧
    (Node.expression (.binary ⟨.add, ⟨⟨6, 1, 6⟩, ⟨7, 1, 7⟩⟩⟩
      (.filter (.name ⟨"a", ⟨⟨0, 1, 0⟩, ⟨1, 1, 1⟩⟩⟩) (.name ⟨"f", ⟨⟨4, 1, 4⟩, ⟨5, 1, 5⟩⟩⟩)
        ⟨⟨0, 1, 0⟩, ⟨5, 1, 5⟩⟩)
      (.name ⟨"b", ⟨⟨8, 1, 8⟩, ⟨9, 1, 9⟩⟩⟩) ⟨⟨0, 1, 0⟩, ⟨9, 1, 9⟩⟩)).Throughout
        (Node.PlacesFilters (.ofText "a | f + b")) := by
  have hread : ((start "a | f + b").expression []).1 =
      .ok (.binary ⟨.add, ⟨⟨6, 1, 6⟩, ⟨7, 1, 7⟩⟩⟩
        (.filter (.name ⟨"a", ⟨⟨0, 1, 0⟩, ⟨1, 1, 1⟩⟩⟩) (.name ⟨"f", ⟨⟨4, 1, 4⟩, ⟨5, 1, 5⟩⟩⟩)
          ⟨⟨0, 1, 0⟩, ⟨5, 1, 5⟩⟩)
        (.name ⟨"b", ⟨⟨8, 1, 8⟩, ⟨9, 1, 9⟩⟩⟩) ⟨⟨0, 1, 0⟩, ⟨9, 1, 9⟩⟩) := by decide +kernel
  exact ⟨hread, (filter_places (by decide) (Prod.ext hread rfl)).1⟩

/-- A filter does not bind loosest of all: what is read of `a | f + b` is the sum of `a | f` and
`b`. -/
theorem not_filter_loosest : ¬ ∀ (text : String) (name : Option String) (e : Expression)
    (s : Session), '(' ∉ text.toList → (start text name).expression [] = (.ok e, s) →
      (Node.expression e).Throughout Node.KeepsFiltersOutside := by
  intro h
  have hread : ((start "a | f + b").expression []).1 =
      .ok (.binary ⟨.add, ⟨⟨6, 1, 6⟩, ⟨7, 1, 7⟩⟩⟩
        (.filter (.name ⟨"a", ⟨⟨0, 1, 0⟩, ⟨1, 1, 1⟩⟩⟩) (.name ⟨"f", ⟨⟨4, 1, 4⟩, ⟨5, 1, 5⟩⟩⟩)
          ⟨⟨0, 1, 0⟩, ⟨5, 1, 5⟩⟩)
        (.name ⟨"b", ⟨⟨8, 1, 8⟩, ⟨9, 1, 9⟩⟩⟩) ⟨⟨0, 1, 0⟩, ⟨9, 1, 9⟩⟩) := by decide +kernel
  have houtside := h _ none _ _ (by decide) (Prod.ext hread rfl)
  exact houtside.here.operands _ rfl _ List.mem_cons_self trivial

end Session
end TemplateSyntax
