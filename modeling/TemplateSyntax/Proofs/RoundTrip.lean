import TemplateSyntax.Proofs.ExpressionCompleteness
import TemplateSyntax.Proofs.Printing
import TemplateSyntax.Proofs.Relocation
import TemplateSyntax.Session

/-!
# Printed expressions are read back

Reading a printed expression gives the tree that was printed, up to the places of its nodes. The
proof follows the tree: a term is read by the reader of terms, a sign with its operand by the reader
of operands, and operands that are joined by the loop over operators, at any minimum that the
outermost operator reaches. What stands behind an operation must not go on with its last right side.
-/
namespace TemplateSyntax

/-! ## What single words decide -/

/-- An operator between two operands is read as itself. -/
theorem Operator.writtenAs_of_readAs {op : Operator} (hop : op ≠ .not) {t : Token}
    (h : op.word.ReadAs t) : op.WrittenAs t := by
  cases op <;> first
    | exact absurd rfl hop
    | exact h ▸ .word (.inl rfl)
    | exact h ▸ .word (.inr rfl)
    | exact h ▸ .symbol rfl

theorem Operator.exists_binding {op : Operator} (hop : op ≠ .not) : ∃ b, op.binding? = some b := by
  cases op <;> first
    | exact absurd rfl hop
    | exact ⟨_, rfl⟩

/-- Only the operators of the highest power group from the right. -/
theorem Operator.fromRight_iff {op : Operator} {b : Binding} (h : op.binding? = some b) :
    b.fromRight = true ↔ b.power = 7 := by
  cases op <;> simp only [binding?, Option.some.injEq, reduceCtorEq] at h <;> subst h <;> decide

/-- An operator does not go on with the right side of one that needs no parentheses before it. -/
theorem Operator.power_lt_rightMinimum {op op' : Operator} {b b' : Binding}
    (hb : op.binding? = some b) (hb' : op'.binding? = some b') (h : op.leftMinimum ≤ b'.power) :
    b.power < op'.rightMinimum := by
  have hright := op.fromRight_iff hb
  have hright' := op'.fromRight_iff hb'
  simp only [leftMinimum, rightMinimum, hb, hb', Option.elim_some, Binding.rightMinimum] at h ⊢
  split at h <;> split <;> simp_all <;> omega

theorem Operator.one_lt_power {op : Operator} {b : Binding} (hb : op.binding? = some b) :
    1 < b.power := by
  cases op <;> simp only [binding?, Option.some.injEq, reduceCtorEq] at hb <;> subst hb <;> decide

theorem Operator.power_le_leftMinimum {op : Operator} {b : Binding} (hb : op.binding? = some b) :
    b.power ≤ op.leftMinimum := by
  simp only [leftMinimum, hb, Option.elim_some]
  split <;> omega

namespace Expression
open Reader

/-- What does not go on with an operation does not go on with one that binds tighter. -/
theorem joint?_eq_none_of_le {stops : List String} {m m' : Nat} {t : Token} (hle : m ≤ m')
    (h : joint? stops m t = none) : joint? stops m' t = none := by
  cases hj : joint? stops m' t with
  | none => rfl
  | some x =>
    obtain ⟨joint, b⟩ := x
    obtain ⟨hany, hx, hb, hp⟩ := joint?_eq_some_iff.mp hj
    rw [joint?_eq_some_iff.mpr ⟨hany, hx, hb, hle.trans hp⟩] at h
    cases h

/-- The operation can be read where only operators of at least this power go on. -/
def Fits (minimum : Nat) : Expression → Prop
  | binary op _ _ _ => ∀ b, op.value.binding? = some b → minimum ≤ b.power
  | filter .. => minimum ≤ 1
  | _ => True

/-- The token does not go on with the last right side of the operation. -/
def Closed (stops : List String) (t : Token) : Expression → Prop
  | binary op _ _ _ => joint? stops op.value.rightMinimum t = none
  | _ => True

theorem fits_zero (e : Expression) : e.Fits 0 := by
  cases e <;> simp [Fits]

theorem fits_of_bindsBelow {e : Expression} {m m' : Nat} (h : e.bindsBelow m = false)
    (hle : m' ≤ m) : e.Fits m' := by
  cases e with
  | binary op l r s =>
    intro b hb
    simp only [bindsBelow, hb, Option.any_some, decide_eq_false_iff_not] at h
    omega
  | filter => cases h
  | _ => trivial

/-! ## Reading words back -/

/-- What the readers make of a printed expression. A reader whose loop goes on from the expression,
or from one that is alike, goes on from the words of the expression too. -/
structure Parses (e : Expression) : Prop where
  term : e.isOperation = false → ∀ {n : Nat} {c d f : Cursor} {Q : Expression → Prop},
    e.print.levels ≤ n → Cursor.ReadsAll e.print.words c d →
    (∀ x, Alike x e → Passes (loop Reader.size (nextSuffix (descend n)) x) d f Q) →
    Passes (term (descend n)) c f Q
  operand : e.isJoined = false → ∀ {n : Nat} {c d : Cursor}, e.print.levels ≤ n →
    Cursor.ReadsAll e.print.words c d → d.EndsTerm →
    Passes (operand (descend n)) c d (Alike · e)
  operation : ∀ {n minimum : Nat} {stops : List String} {c d d' f : Cursor} {t : Token}
    {Q : Expression → Prop}, e.print.levels ≤ n → StopsAt true stops → e.Fits minimum →
    Cursor.ReadsAll e.print.words c d → d.Reads t d' → t ≠ .symbol .dot → t ≠ .symbol .openParen →
    e.Closed stops t →
    (∀ x, Alike x e → Passes (loop Reader.size (nextJoint (descend n) stops minimum) x) d f Q) →
    Passes (operation (descend n) stops minimum) c f Q

section Loops
variable {n minimum : Nat} {stops : List String} {c d : Cursor} {t : Token} {e : Expression}

/-- A term ends where no property and no call follows. -/
theorem passes_suffixes_done (h : c.EndsTerm) {x : Expression} (hx : Alike x e) :
    Passes (loop Reader.size (nextSuffix (descend n)) x) c c (Alike · e) := by
  obtain ⟨t, d, hr, hdot, hopen⟩ := h
  refine (Passes.loop_done (descends_nextSuffix (tokenWise_descend n)) ?_).mono fun y hy => hy ▸ hx
  exact Passes.atSymbol_false hr hdot (Passes.atSymbol_false hr hopen (Passes.pure rfl))

/-- An operation ends at a token that does not go on with it. -/
theorem passes_joints_done (hr : c.Reads t d) (ht : joint? stops minimum t = none)
    {x : Expression} (hx : Alike x e) :
    Passes (loop Reader.size (nextJoint (descend n) stops minimum) x) c c (Alike · e) := by
  have hs := descends_nextJoint (tokenWise_descend n) stops minimum
  refine (Passes.loop_done hs ?_).mono fun y hy => hy ▸ hx
  refine Passes.peek_bind hr fun l hl => ?_
  rw [hl, ht]
  exact Passes.pure rfl

end Loops

namespace Parses
variable {e : Expression} {n minimum : Nat} {stops : List String} {c d d' f : Cursor} {t : Token}
  {Q : Expression → Prop}

/-- A whole operation up to a stop. -/
theorem whole (h : Parses e) (hn : e.print.levels ≤ n) (hs : StopsAt true stops)
    (hw : Cursor.ReadsAll e.print.words c d) (hr : d.Reads t d') (hdot : t ≠ .symbol .dot)
    (hopen : t ≠ .symbol .openParen) (hstop : ∀ m, joint? stops m t = none) :
    Passes (Expression.operation (descend n) stops 0) c d (Alike · e) := by
  have hclosed : e.Closed stops t := by
    cases e with
    | binary => exact hstop _
    | _ => trivial
  exact h.operation hn hs e.fits_zero hw hr hdot hopen hclosed fun x hx =>
    passes_joints_done hr (hstop 0) hx

/-- An expression in parentheses. -/
theorem parens (h : Parses e) (hn : (e.print.grouped true).levels ≤ n)
    (hw : Cursor.ReadsAll (e.print.grouped true).words c d) :
    Passes (primary (descend n)) c d (Alike · e) := by
  obtain ⟨m, rfl⟩ : ∃ m, n = m + 1 := ⟨n - 1, by simp [Printed.grouped] at hn; omega⟩
  cases hw with
  | cons ho ht hw =>
    cases ht
    obtain ⟨d', hw, hclose⟩ := hw.of_append
    cases hclose with
    | cons hc ht hnil =>
      cases ht
      cases hnil
      refine (Passes.next ho).bind fun l hl => ?_
      unfold primaryFrom
      simp only [hl]
      rw [descend_succ_bind]
      have hinner := h.whole (by simpa [Printed.grouped] using hn) stopsAt_parens hw hc
        (by decide) (by decide) fun _ => joint?_of_isAnyOf (by decide)
      exact hinner.bind fun x hx =>
        (Passes.expectSymbol hc).discard.bind fun _ _ => Passes.pure hx

/-- An expression that stands where a term does. -/
theorem term_grouped (h : Parses e) {needed : Bool} (hneed : needed = false → e.isOperation = false)
    (hn : (e.print.grouped needed).levels ≤ n)
    (hw : Cursor.ReadsAll (e.print.grouped needed).words c d)
    (hl : ∀ x, Alike x e → Passes (loop Reader.size (nextSuffix (descend n)) x) d f Q) :
    Passes (Expression.term (descend n)) c f Q := by
  cases needed with
  | false => exact h.term (hneed rfl) hn hw hl
  | true => exact (h.parens hn hw).bind hl

/-- An expression that stands where an operand does. -/
theorem operand_grouped (h : Parses e) {needed : Bool} (hneed : needed = false → e.isJoined = false)
    (hn : (e.print.grouped needed).levels ≤ n)
    (hw : Cursor.ReadsAll (e.print.grouped needed).words c d) (hd : d.EndsTerm) :
    Passes (Expression.operand (descend n)) c d (Alike · e) := by
  cases needed with
  | false => exact h.operand (hneed rfl) hn hw hd
  | true =>
    have hterm : Passes (Expression.term (descend n)) c d (Alike · e) :=
      (h.parens hn hw).bind fun x hx => passes_suffixes_done hd hx
    cases hw with
    | cons ho ht _ =>
      cases ht
      refine Passes.peek_bind ho fun l hl => ?_
      rw [hl]
      exact hterm

/-- An expression that stands where an operation does. -/
theorem operation_grouped (h : Parses e) {needed : Bool}
    (hneed : needed = false → e.Fits minimum ∧ e.Closed stops t)
    (hn : (e.print.grouped needed).levels ≤ n) (hs : StopsAt true stops)
    (hw : Cursor.ReadsAll (e.print.grouped needed).words c d) (hr : d.Reads t d')
    (hdot : t ≠ .symbol .dot) (hopen : t ≠ .symbol .openParen)
    (hl : ∀ x, Alike x e →
      Passes (loop Reader.size (nextJoint (descend n) stops minimum) x) d f Q) :
    Passes (Expression.operation (descend n) stops minimum) c f Q := by
  cases needed with
  | false => exact h.operation hn hs (hneed rfl).1 hw hr hdot hopen (hneed rfl).2 hl
  | true => exact (h.operand_grouped (by simp) hn hw ⟨t, d', hr, hdot, hopen⟩).bind hl

/-- What the reader of operands reads is an operation too. -/
theorem of_operand (hop : e.isOperation = true)
    (h : ∀ {n : Nat} {c d : Cursor}, e.print.levels ≤ n → Cursor.ReadsAll e.print.words c d →
      d.EndsTerm → Passes (Expression.operand (descend n)) c d (Alike · e)) : Parses e where
  term hterm := by simp [hop] at hterm
  operand _ := h
  operation hn _ _ hw hr hdot hopen _ hl := (h hn hw ⟨_, _, hr, hdot, hopen⟩).bind hl

/-- What the reader of terms reads is an operand too, unless it begins like a sign. -/
theorem of_term (hp : e.Printable) (hop : e.isOperation = false)
    (h : ∀ {n : Nat} {c d f : Cursor} {Q : Expression → Prop}, e.print.levels ≤ n →
      Cursor.ReadsAll e.print.words c d →
      (∀ x, Alike x e → Passes (loop Reader.size (nextSuffix (descend n)) x) d f Q) →
      Passes (Expression.term (descend n)) c f Q) : Parses e := by
  have hoperand {n : Nat} {c d : Cursor} (hn : e.print.levels ≤ n)
      (hw : Cursor.ReadsAll e.print.words c d) (hd : d.EndsTerm) :
      Passes (Expression.operand (descend n)) c d (Alike · e) := by
    have hterm := h hn hw fun x hx => passes_suffixes_done hd hx
    obtain ⟨w, ws, hwords, -, hminus, hnot⟩ := hp.begins.2 hop
    rw [hwords] at hw
    cases hw with
    | @cons _ _ t _ _ _ hr ht _ =>
      refine Passes.peek_bind hr fun l hl => ?_
      have hsign : sign? t = none := by
        rw [← Option.not_isSome_iff_eq_none, sign?_isSome_iff]
        rintro (rfl | rfl)
        · exact hminus ht.eq_symbol
        · exact hnot ht.eq_name
      rw [hl, hsign]
      exact hterm
  exact {
    term := fun _ => h
    operand := fun _ => hoperand
    operation := fun hn _ _ hw hr hdot hopen _ hl =>
      (hoperand hn hw ⟨_, _, hr, hdot, hopen⟩).bind hl }

theorem name {v : Variable} (hp : Printable (.name v)) : Parses (.name v) := by
  refine .of_term hp rfl fun hn hw hl => ?_
  cases hw with
  | cons hr ht hw =>
    cases ht
    cases hw
    refine ((Passes.next hr).bind fun l hl => ?_).bind hl
    unfold primaryFrom
    simp only [hl]
    exact Passes.pure (.name rfl)

theorem number (value : Number) (s : Span) : Parses (.number value s) := by
  refine .of_term (.number value s) rfl fun hn hw hl => ?_
  cases hw with
  | cons hr ht hw =>
    cases ht
    cases hw
    refine ((Passes.next hr).bind fun l hl => ?_).bind hl
    unfold primaryFrom
    simp only [hl]
    exact Passes.pure rfl

theorem string (value : String) (s : Span) : Parses (.string value s) := by
  refine .of_term (.string value s) rfl fun hn hw hl => ?_
  cases hw with
  | cons hr ht hw =>
    obtain ⟨raw, rfl, hvalue⟩ := ht
    cases hw
    refine ((Passes.next hr).bind fun l hl => ?_).bind hl
    unfold primaryFrom
    simp only [hl, hvalue]
    exact Passes.pure rfl

/-- An object that needs no parentheses is no operation. -/
theorem object_of_needless {b b' : Bool} (h : (b || b') = false) : b = false :=
  (Bool.or_eq_false_iff.mp h).1

theorem member {object : Expression} {property : Variable} {s : Span}
    (hp : Printable (.member object property s)) (ho : Parses object) :
    Parses (.member object property s) := by
  refine .of_term hp rfl fun hn hw hl => ?_
  obtain ⟨d, hobject, hw⟩ := hw.of_append
  cases hw with
  | cons hdot ht hw =>
    cases ht
    cases hw with
    | cons hname ht hw =>
      cases ht
      cases hw
      refine ho.term_grouped object_of_needless hn hobject fun x hx => ?_
      refine Passes.loop_step (descends_nextSuffix (tokenWise_descend _)) ?_ hl
      refine Passes.atSymbol_true hdot (Passes.skip hdot ?_)
      have hproperty : Passes variableName _ _ fun v => v.name = property.name :=
        (Passes.expectName hname).bind fun _ hv => Passes.pure hv
      exact hproperty.bind fun v hv => Passes.pure ⟨_, rfl, hx.member hv⟩

/-- One argument and the comma behind it, if there is one. -/
theorem argument {a : Expression} (h : Parses a) (hp : a.Printable) (hn : a.print.levels ≤ n)
    (hw : Cursor.ReadsAll a.print.words c d)
    (hd : (∃ d', d.ReadsSymbol .closeParen d') ∧ f = d ∨ d.ReadsSymbol .comma f)
    (found : List Expression) :
    Passes (nextItem (Expression.operation (descend n)
      [Symbol.comma.spelling, Symbol.closeParen.spelling] 0) found) c f
      fun x => ∃ xs, x = .yield xs ∧ ∃ y, xs = found ++ [y] ∧ Alike y a := by
  have hitem (t : Token) (e : Cursor) (hr : d.Reads t e)
      (ht : t = .symbol .closeParen ∨ t = .symbol .comma) :
      Passes (Expression.operation (descend n)
        [Symbol.comma.spelling, Symbol.closeParen.spelling] 0) c d (Alike · a) := by
    rcases ht with rfl | rfl
    · exact h.whole hn stopsAt_items hw hr (by decide) (by decide) fun _ =>
        joint?_of_isAnyOf (by decide)
    · exact h.whole hn stopsAt_items hw hr (by decide) (by decide) fun _ =>
        joint?_of_isAnyOf (by decide)
  obtain ⟨w, ws, hwords, hstart⟩ := hp.begins.1
  rw [hwords] at hw
  cases hw with
  | @cons _ _ t _ _ _ hr ht _ =>
    have hne : t ≠ .symbol .closeParen := by
      rintro rfl
      exact hstart ht.eq_symbol
    refine Passes.atSymbol_false hr hne ?_
    rcases hd with ⟨⟨d', hc⟩, rfl⟩ | hc
    · refine (hitem _ _ hc (.inl rfl)).bind fun y hy => ?_
      exact Passes.atSymbol_true hc (Passes.pure ⟨_, rfl, y, rfl, hy⟩)
    · refine (hitem _ _ hc (.inr rfl)).bind fun y hy => ?_
      refine Passes.atSymbol_false hc (by decide) ?_
      exact (Passes.expectSymbol hc).discard.bind fun _ _ => Passes.pure ⟨_, rfl, y, rfl, hy⟩

/-- Arguments up to the parenthesis that closes them. -/
theorem arguments {args : List Expression} (ha : ∀ a ∈ args, Parses a)
    (hp : ∀ a ∈ args, a.Printable) (hn : (Printed.separated (printAll args)).levels ≤ n)
    (hw : Cursor.ReadsAll (Printed.separated (printAll args)).words c d)
    (hc : d.ReadsSymbol .closeParen d') (found : List Expression) :
    Passes (loop Reader.size (nextItem (Expression.operation (descend n)
      [Symbol.comma.spelling, Symbol.closeParen.spelling] 0)) found) c d
      fun xs => ∃ ys, xs = found ++ ys ∧ List.Forall₂ Alike ys args := by
  have hs := descends_nextItem (consumes_operation (tokenWise_descend n)
    [Symbol.comma.spelling, Symbol.closeParen.spelling] 0)
  have hend (found : List Expression) : Passes (loop Reader.size (nextItem (Expression.operation
      (descend n) [Symbol.comma.spelling, Symbol.closeParen.spelling] 0)) found) d d
      fun xs => xs = found :=
    Passes.loop_done hs (Passes.atSymbol_true hc (Passes.pure rfl))
  induction args generalizing c found with
  | nil =>
    cases hw
    exact (hend found).mono fun xs hx => ⟨[], by simp [hx], .nil⟩
  | cons a args ih =>
    cases args with
    | nil =>
      refine Passes.loop_step hs (argument (ha a (by simp)) (hp a (by simp)) hn hw
        (.inl ⟨⟨d', hc⟩, rfl⟩) found) fun xs hxs => (hend xs).mono fun ys hys => ?_
      obtain ⟨y, rfl, hy⟩ := hxs
      exact ⟨[y], hys, .cons hy .nil⟩
    | cons b args =>
      obtain ⟨e, hwa, hw⟩ := hw.of_append
      simp only [printAll, Printed.separated, max_le_iff] at hn
      cases hw with
      | cons hr ht hw =>
        cases ht
        refine Passes.loop_step hs (argument (ha a (by simp)) (hp a (by simp)) hn.1 hwa
          (.inr hr) found) fun xs hxs => ?_
        obtain ⟨y, rfl, hy⟩ := hxs
        refine (ih (fun x hx => ha x (List.mem_cons_of_mem _ hx))
          (fun x hx => hp x (List.mem_cons_of_mem _ hx)) hn.2 hw _).mono fun xs hxs => ?_
        obtain ⟨ys, rfl, hys⟩ := hxs
        exact ⟨y :: ys, by simp, .cons hy hys⟩

theorem call {function : Expression} {args : List Expression} {s : Span}
    (hp : Printable (.call function args s)) (hf : Parses function) (ha : ∀ a ∈ args, Parses a)
    (hpa : ∀ a ∈ args, a.Printable) : Parses (.call function args s) := by
  refine .of_term hp rfl fun {n c g f Q} hn hw hl => ?_
  simp only [print, max_le_iff] at hn
  obtain ⟨m, rfl⟩ : ∃ m, n = m + 1 := ⟨n - 1, by omega⟩
  obtain ⟨d, hfunction, hw⟩ := hw.of_append
  cases hw with
  | cons hopen ht hw =>
    cases ht
    obtain ⟨e, hargs, hw⟩ := hw.of_append
    cases hw with
    | cons hclose ht hw =>
      cases ht
      cases hw
      refine hf.term_grouped object_of_needless hn.1 hfunction fun x hx => ?_
      refine Passes.loop_step (descends_nextSuffix (tokenWise_descend _)) ?_ hl
      refine Passes.atSymbol_false hopen (by decide) (Passes.atSymbol_true hopen ?_)
      have hloop := arguments ha hpa (Nat.le_of_succ_le_succ hn.2) hargs hclose []
      have hread : Passes (Expression.arguments (descend (m + 1))) d g
          fun y => List.Forall₂ Alike y.1 args := by
        refine (Passes.expectSymbol hopen).bind fun span _ => ?_
        rw [descend_succ_bind]
        refine hloop.bind fun xs hxs => (Passes.expectSymbol hclose).bind fun close _ => ?_
        obtain ⟨ys, rfl, hys⟩ := hxs
        exact Passes.pure hys
      exact hread.bind fun y hy => Passes.pure ⟨_, rfl, hx.call hy⟩

/-- The left operand of an operator ends there if it needs no parentheses. -/
theorem closed_left {left : Expression} (hp : left.Printable) {op : Operator} {b : Binding}
    (hb : op.binding? = some b) (ht : op.WrittenAs t)
    (hl : left.bindsBelow op.leftMinimum = false) : left.Closed stops t := by
  cases hp with
  | @binary op' _ _ _ hop =>
    obtain ⟨b', hb'⟩ := op'.value.exists_binding hop
    simp only [bindsBelow, hb', Option.any_some, decide_eq_false_iff_not, not_lt] at hl
    exact joint?_eq_none_of_lt (Joint.ofToken?_eq_binary_iff.mpr ht) hb
      (Operator.power_lt_rightMinimum hb hb' hl)
  | _ => trivial

/-- What does not go on with the right side of an operator does not go on with any operation in it
that needs no parentheses. -/
theorem closed_right {right : Expression} (hp : right.Printable) {op : Operator}
    (ht : joint? stops op.rightMinimum t = none)
    (hr : right.bindsBelow op.rightMinimum = false) : right.Closed stops t := by
  cases hp with
  | @binary op' _ _ _ hop =>
    obtain ⟨b', hb'⟩ := op'.value.exists_binding hop
    simp only [bindsBelow, hb', Option.any_some, decide_eq_false_iff_not, not_lt] at hr
    refine joint?_eq_none_of_le (hr.trans ?_) ht
    simp only [Operator.rightMinimum, hb', Option.elim_some, Binding.rightMinimum]
    split <;> omega
  | _ => trivial

/-- A filter ends whatever stands before its bar. -/
theorem closed_bar {value : Expression} (hp : value.Printable) :
    value.Closed stops (.symbol .bar) := by
  cases hp with
  | @binary op _ _ _ hop =>
    obtain ⟨b, hb⟩ := op.value.exists_binding hop
    have hlt : 1 < op.value.rightMinimum := by
      simpa [Operator.rightMinimum, hb] using Operator.one_lt_rightMinimum hb
    exact joint?_eq_none_of_lt (Joint.ofToken?_eq_filter_iff.mpr rfl) rfl hlt
  | _ => trivial

theorem binary {op : WrittenOperator} {left right : Expression} {s : Span} (hop : op.value ≠ .not)
    (hpl : left.Printable) (hpr : right.Printable) (hl : Parses left) (hr : Parses right) :
    Parses (.binary op left right s) where
  term := nofun
  operand := nofun
  operation := by
    intro n minimum stops c d d' f t Q hn hs hfit hw ht hdot hopen hclosed hloop
    obtain ⟨b, hb⟩ := op.value.exists_binding hop
    have hmin : minimum ≤ b.power := hfit b hb
    simp only [print, max_le_iff] at hn
    obtain ⟨m, rfl⟩ : ∃ m, n = m + 1 := ⟨n - 1, by omega⟩
    obtain ⟨e, hleft, hw⟩ := hw.of_append
    cases hw with
    | cons hread hword hright =>
      have hwritten := Operator.writtenAs_of_readAs hop hword
      have hminimum : op.value.rightMinimum = b.rightMinimum := by
        rw [Operator.rightMinimum, hb, Option.elim_some]
      refine hl.operation_grouped (fun hg => ⟨fits_of_bindsBelow hg ?_, ?_⟩) hn.1 hs hleft hread
        hwritten.ne_suffix.1 hwritten.ne_suffix.2 fun x hx => ?_
      · exact hmin.trans (Operator.power_le_leftMinimum hb)
      · exact closed_left hpl hb hwritten hg
      · refine Passes.loop_step (descends_nextJoint (tokenWise_descend _) _ _) ?_ hloop
        refine Passes.peek_bind hread fun l hlex => ?_
        rw [hlex, (joint?_eq_binary_iff hs).mpr ⟨hwritten, hb, hmin⟩]
        refine Passes.skip hread ?_
        rw [descend_succ_bind, ← hminimum]
        have hside := hr.operation_grouped (fun hg => ⟨fits_of_bindsBelow hg le_rfl,
          closed_right hpr hclosed hg⟩) (Nat.le_of_succ_le_succ hn.2) hs hright ht hdot hopen
          fun y hy => passes_joints_done ht hclosed hy
        exact hside.bind fun y hy => Passes.pure ⟨_, rfl, .binary rfl hx hy⟩

theorem unary {op : WrittenOperator} {argument : Expression} {s : Span}
    (hop : op.value = .subtract ∨ op.value = .not) (ha : Parses argument) :
    Parses (.unary op argument s) := by
  refine .of_operand rfl fun {n} _ _ hn hw hd => ?_
  obtain ⟨m, rfl⟩ : ∃ m, n = m + 1 := ⟨n - 1, by simp only [print] at hn; omega⟩
  cases hw with
  | @cons _ _ t _ _ _ hr ht hw =>
    have hsign : sign? t = some op.value := by
      rcases hop with hop | hop
      · rw [hop] at ht ⊢
        rw [show t = .symbol .minus from ht]
        rfl
      · rw [hop] at ht ⊢
        rw [show t = .identifier Keyword.notWord.spelling from ht]
        rfl
    refine Passes.peek_bind hr fun l hl => ?_
    rw [hl, hsign]
    refine Passes.skip hr ?_
    rw [descend_succ_bind]
    have hargument := ha.operand_grouped id (Nat.le_of_succ_le_succ hn) hw hd
    exact hargument.bind fun x hx => Passes.pure (.unary rfl hx)

theorem filter {value through : Expression} {s : Span} (hpv : value.Printable)
    (hv : Parses value) (hf : Parses through) : Parses (.filter value through s) where
  term := nofun
  operand := nofun
  operation := by
    intro n minimum stops c d d' f t Q hn hs hfit hw ht hdot hopen hclosed hloop
    simp only [print, max_le_iff] at hn
    obtain ⟨e, hvalue, hw⟩ := hw.of_append
    have hfits : value.Fits minimum := by
      cases value with
      | binary op l r s =>
        exact fun b hb => le_trans hfit (Operator.one_lt_power hb).le
      | filter => exact hfit
      | _ => trivial
    cases hw with
    | cons hread hword hthrough =>
      cases hword
      refine hv.operation hn.1 hs hfits hvalue hread (by decide) (by decide) (closed_bar hpv)
        fun x hx => ?_
      refine Passes.loop_step (descends_nextJoint (tokenWise_descend _) _ _) ?_ hloop
      refine Passes.peek_bind hread fun l hlex => ?_
      rw [hlex, (joint?_eq_filter_iff hs).mpr ⟨rfl, rfl, hfit, rfl⟩]
      refine Passes.skip hread ?_
      have hterm := hf.term_grouped id hn.2 hthrough fun y hy =>
        passes_suffixes_done ⟨t, d', ht, hdot, hopen⟩ hy
      exact hterm.bind fun y hy => Passes.pure ⟨_, rfl, .filter hx hy⟩

end Parses

/-- Every expression is read back from its words. -/
theorem Printable.parses {e : Expression} (h : e.Printable) : Parses e := by
  induction h with
  | name h hn => exact .name (.name h hn)
  | number value s => exact .number value s
  | string value s => exact .string value s
  | member ho hp ih => exact .member (.member ho hp) ih
  | call hf ha ihf iha => exact .call (.call hf ha) ihf iha ha
  | binary hop hl hr ihl ihr => exact .binary hop hl hr ihl ihr
  | unary hop _ ih => exact .unary hop ih
  | filter hv _ ihv ihf => exact .filter hv ihv ihf

theorem stopsAt_nothing : StopsAt true [] := ⟨fun _ => by simp, by simp, by simp⟩

end Expression

/-- At the end of a text the next token is the end of the source. -/
theorem Cursor.reads_endOfSource {c : Cursor} (h : c.rest = []) : c.Reads .endOfSource c :=
  ⟨_, next_of_rest_eq_nil h true⟩

/-- A printed expression is read back as the same tree up to spans, and nothing is left behind it,
as long as it opens no more levels than the limit. -/
theorem Session.expression_printed {e : Expression} {text : String} (name : Option String)
    (hp : e.Printable) (hn : e.print.levels ≤ depthLimit) (ht : e.PrintedAs text) :
    ∃ x s l s', (Session.start text name).expression [] = (.ok x, s) ∧ x.unplaced = e.unplaced ∧
      s.next = (.ok l, s') ∧ l.token = .endOfSource := by
  obtain ⟨d, hw, hd⟩ := hp.exists_readsAll ht
  have hend := Cursor.reads_endOfSource hd
  have hread : Reader.Passes (Expression.read depthLimit []) (.ofText text) d
      (Expression.Alike · e) :=
    hp.parses.whole hn Expression.stopsAt_nothing hw hend (by decide) (by decide) fun _ => rfl
  obtain ⟨x, r, hx, halike, hr⟩ := hread { cursor := .ofText text } (.inl ⟨rfl, rfl⟩)
  obtain ⟨span, hnext⟩ := hend
  obtain ⟨r', hl, -⟩ := hr.next hnext
  refine ⟨x, ⟨text, name, { Draft.ofText text with reader := r }⟩, ⟨.endOfSource, span⟩,
    ⟨text, name, { Draft.ofText text with reader := r' }⟩, ?_, halike, ?_, rfl⟩
  · simp only [expression, run, start, Draft.ofText]
    rw [run_lift, hx]
  · simp only [next, run, Draft.ofText]
    rw [run_lift, hl]

theorem Session.expression_printed_filter :
    ∃ x s l s', (Session.start "( a - b ) * 2 | f ( 'it\\'s' )").expression [] = (.ok x, s) ∧
      x.unplaced = Expression.unplaced (.filter
        (.binary ⟨.multiply, .empty .start⟩
          (.binary ⟨.subtract, .empty .start⟩ (.name ⟨"a", .empty .start⟩)
            (.name ⟨"b", .empty .start⟩) (.empty .start))
          (.number (.integer 2) (.empty .start)) (.empty .start))
        (.call (.name ⟨"f", .empty .start⟩) [.string "it's" (.empty .start)] (.empty .start))
        (.empty .start)) ∧
      s.next = (.ok l, s') ∧ l.token = .endOfSource := by
  have hname (name : String) (s : Span) (h : IsIdentifier name)
      (hn : name ≠ Keyword.notWord.spelling) : (Expression.name ⟨name, s⟩).Printable := .name h hn
  refine expression_printed none ?_ ?_ ?_
  · refine .filter (.binary (by decide) (.binary (by decide) (hname "a" _ (by decide) (by decide))
      (hname "b" _ (by decide) (by decide))) (.number _ _))
      (.call (hname "f" _ (by decide) (by decide)) fun a ha => ?_)
    rw [List.mem_singleton.mp ha]
    exact .string _ _
  · decide
  · have hquote : Text.Quoted.isQuote '\'' = true := by decide
    have hnumber : (Word.number (.integer 2)).WrittenAs ['2'] := .number rfl
    exact ⟨_, .cons (.symbol _) (.cons (.name _) (.cons (.symbol _) (.cons (.name _)
      (.cons (.symbol _) (.cons (.symbol _) (.cons hnumber (.cons (.symbol _) (.cons (.name _)
      (.cons (.symbol _) (.cons (Word.writtenAs_encode hquote _)
      (.cons (.symbol _) .nil))))))))))), by decide⟩

end TemplateSyntax
