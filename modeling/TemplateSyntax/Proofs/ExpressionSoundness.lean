import TemplateSyntax.Proofs.Landing
import TemplateSyntax.Proofs.Terminals

/-!
# What is read as an expression is one

Every reader of expressions, if it succeeds, has passed a phrase of the grammar. The right side of
an operator is read by an operation of its own, which ends where its operators bind too loosely; the
operators around it that are still open are what the phrase of the whole operation counts.
-/
namespace TemplateSyntax

namespace Reader
variable {α : Type}

/-- Items are read one by one; behind the last one there is nothing but the parenthesis. -/
theorem Lands.items {item : ReadM α} {G : Cursor → Cursor → Prop}
    (hc : Consumes Reader.size item) (h : ∀ c, Lands item c fun _ d => G c d) (c : Cursor) :
    Lands (items item) c fun _ d => Items G c d := by
  have hloop : Lands (TemplateSyntax.loop Reader.size (nextItem item) []) c fun _ d =>
      ∀ e, d.ReadsSymbol .closeParen e → Items G c e := by
    -- Either any items may follow, or the parenthesis has to.
    refine Lands.loop (descends_nextItem hc) (I := fun _ d =>
      (∀ e, Items G d e → Items G c e) ∨
        (∃ e, d.ReadsSymbol .closeParen e) ∧ ∀ e, d.ReadsSymbol .closeParen e → Items G c e)
      (fun found d hd => ?_) (.inl fun _ h => h)
    refine Lands.atSymbol_bind (fun e he => ?_) fun hnot => ?_
    · refine Lands.pure fun e he => ?_
      rcases hd with hd | ⟨-, hd⟩
      · exact hd e (.close he)
      · exact hd e he
    · have hany : ∀ e, Items G d e → Items G c e := by
        rcases hd with hd | ⟨⟨e, he⟩, -⟩
        · exact hd
        · exact absurd he (hnot e)
      refine (h d).bind fun x e hx => Lands.atSymbol_bind (fun f hf => ?_) fun _ => ?_
      · exact Lands.pure (.inr ⟨⟨f, hf⟩, fun f hf => hany f (.last hx hf)⟩)
      · exact (Lands.expectSymbol .comma).discard.bind fun _ f hf =>
          Lands.pure (.inl fun g hg => hany g (.more hx hf hg))
  exact hloop.bind fun found d hd => (Lands.expectSymbol .closeParen).bind fun _ e he =>
    Lands.pure (hd e he)

end Reader

namespace Phrase

/-- The least power of an operator that goes on with the innermost open right side. -/
def minimum : List Binding → Nat
  | [] => 0
  | b :: _ => b.rightMinimum

/-- A new operator that binds tightly enough for the innermost open right side opens its own. -/
theorem push_append {b : Binding} {done pending : List Binding}
    (hd : ∀ o ∈ done, b.power < o.rightMinimum) (hp : minimum pending ≤ b.power) :
    push b (done ++ pending) = b :: pending := by
  rw [push, List.dropWhile_append_of_pos (by simpa using hd)]
  cases pending with
  | nil => rfl
  | cons o pending =>
    have ho : ¬ b.power < o.rightMinimum := Nat.not_lt.mpr hp
    simp [ho]

/-- Whatever is open behind the operators that a new one ends takes the new one in. -/
theorem minimum_dropWhile_le (b : Binding) (pending : List Binding) :
    minimum (pending.dropWhile fun o => b.power < o.rightMinimum) ≤ b.power := by
  induction pending with
  | nil => exact Nat.zero_le _
  | cons o pending ih =>
    by_cases ho : b.power < o.rightMinimum
    · simpa [ho] using ih
    · simpa [ho, minimum] using Nat.not_lt.mp ho

theorem derives_arguments_of_items {n : Nat} {c d : Cursor} (h : Items (Expression.Spans n) c d) :
    Derives .arguments n c d := by
  induction h with
  | close h => exact .noArgument h
  | last hi h =>
    obtain ⟨pending, hi⟩ := hi
    exact .lastArgument hi h
  | more hi hc _ ih =>
    obtain ⟨pending, hi⟩ := hi
    exact .argument hi hc ih

end Phrase

/-- An operator that binds like this stands at the cursor. -/
def Cursor.ReadsOperator (c : Cursor) (b : Binding) : Prop :=
  ∃ token d op, c.Reads token d ∧ Operator.WrittenAs op token ∧ op.binding? = some b

namespace Expression
open Reader Phrase

/-- An operation has come to a cursor, as the right side of the pending operators. Those that it
has left open itself end at whatever operator comes next. -/
def Joined (bars : Bool) (pending : List Binding) (levels : Nat) (c d : Cursor) : Prop :=
  ∃ done, Derives (.operation bars (done ++ pending)) levels c d ∧
    ∀ b, d.ReadsOperator b → ∀ o ∈ done, b.power < o.rightMinimum

/-- What the readers of one level pass. An operation may be the right side of pending operators:
then the phrase goes on from where the whole operation began, with the levels that it had there. -/
structure Sound (n : Nat) : Prop where
  operand : ∀ c, Lands (operand (descend n)) c fun _ d => Derives .operand n c d
  operation : ∀ {bars : Bool} {stops : List String} (pending : List Binding) (b c : Cursor),
    StopsAt bars stops → (∀ o ∈ pending, 1 < o.rightMinimum) →
    (∀ d, Derives .operand n c d →
      Derives (.operation bars pending) (n + pending.length) b d) →
    Lands (operation (descend n) stops (minimum pending)) c fun _ d =>
      Joined bars pending (n + pending.length) b d ∧
        ∀ o, d.ReadsOperator o → o.power < minimum pending

/-- An operation that is no right side is a phrase of its own. -/
theorem Sound.derives {n : Nat} (h : Sound n) {bars : Bool} {stops : List String}
    (hs : StopsAt bars stops) (c : Cursor) :
    Lands (Expression.operation (descend n) stops 0) c fun _ d =>
      ∃ pending, Derives (.operation bars pending) n c d := by
  refine (h.operation [] c c hs (by simp) fun d hd => .operand hd).mono ?_
  rintro _ d ⟨⟨done, hd, -⟩, -⟩
  exact ⟨_, hd⟩

theorem lands_descend {n : Nat} {span : Span} {β : Type} {f : Level → ReadM β} {c : Cursor}
    {H : β → Cursor → Prop}
    (h : ∀ m, n = m + 1 → Lands (f ⟨operand (descend m), operation (descend m)⟩) c H) :
    Lands (descend n span >>= f) c H := by
  cases n with
  | zero =>
    rw [descend_zero_bind]
    exact Lands.throw _
  | succ m =>
    rw [descend_succ_bind]
    exact h m rfl

section Levels
variable {n : Nat} (hn : ∀ m, n = m + 1 → Sound m)
include hn

theorem lands_arguments (c : Cursor) :
    Lands (arguments (descend n)) c fun _ d => SpansArguments n c d := by
  refine (Lands.expectSymbol .openParen).bind fun span e he => lands_descend fun m hm => ?_
  refine (Lands.items (consumes_operation (tokenWise_descend m) _ _)
    ((hn m hm).derives stopsAt_items) e).mono fun _ d hd => ?_
  exact ⟨m, e, hm, he, derives_arguments_of_items hd⟩

theorem lands_primary (c : Cursor) :
    Lands (primary (descend n)) c fun _ d => Derives .primary n c d := by
  refine Lands.next.bind fun l d hl => ?_
  unfold primaryFrom
  split
  · next value ht =>
    rw [ht] at hl
    exact Lands.pure (.number hl)
  · next raw ht =>
    rw [ht] at hl
    rcases stringValue_isLiteral hl l.span with ⟨⟨e, he⟩, hraw⟩ | ⟨⟨f, hf⟩, -⟩
    · rw [he]
      exact Lands.pure (.string hl hraw)
    · rw [hf]
      exact Lands.throw _
  · next word ht =>
    rw [ht] at hl
    exact Lands.pure (.name ⟨word, hl⟩)
  · next ht =>
    rw [ht] at hl
    refine lands_descend fun m hm => ?_
    subst hm
    refine ((hn m rfl).derives stopsAt_parens d).bind fun _ e he => ?_
    obtain ⟨pending, he⟩ := he
    exact (Lands.expectSymbol .closeParen).discard.bind fun _ f hf =>
      Lands.pure (.parens hl he hf)
  · exact Lands.throw _

theorem lands_nextSuffix {c d : Cursor} (hd : Derives .term n c d) (e : Expression) :
    Lands (nextSuffix (descend n) e) d
      (OnPass (fun _ d => Derives .term n c d) fun _ d => Derives .term n c d) := by
  refine Lands.atSymbol_bind (fun d' hdot => ?_) fun _ => Lands.atSymbol_bind (fun _ _ => ?_) ?_
  · exact Lands.skip hdot (Lands.variableName.bind fun _ f hf => Lands.pure (.member hd hdot hf))
  · refine (lands_arguments hn d).bind fun _ f hf => ?_
    obtain ⟨m, e, rfl, ho, ha⟩ := hf
    exact Lands.pure (.call hd ho ha)
  · exact fun _ => Lands.pure hd

theorem lands_term (c : Cursor) : Lands (term (descend n)) c fun _ d => Derives .term n c d :=
  (lands_primary hn c).bind fun _ _ hd => Lands.loop (descends_nextSuffix (tokenWise_descend n))
    (I := fun _ d => Derives .term n c d) (fun e _ hd => lands_nextSuffix hn hd e) (.primary hd)

theorem lands_operand (c : Cursor) :
    Lands (operand (descend n)) c fun _ d => Derives .operand n c d := by
  refine Lands.peek_bind fun l d hl => ?_
  split
  · next hs =>
    refine (lands_term hn c).mono fun _ e he => .term (fun f hf => ?_) he
    rw [(hl.unique hf).1] at hs
    exact absurd hs (by decide)
  · next op hs =>
    have hsign : c.ReadsSymbol .minus d ∨ c.ReadsWord .notWord d := by
      rcases sign?_isSome_iff.mp (Option.isSome_of_eq_some hs) with ht | ht
      · rw [ht] at hl
        exact .inl hl
      · rw [ht] at hl
        exact .inr hl
    refine Lands.skip hl (lands_descend fun m hm => ?_)
    subst hm
    exact ((hn m rfl).operand d).bind fun _ e he => Lands.pure (.sign hsign he)

/-- One more operator or filter. Whatever the operation has left open ends before it. -/
theorem lands_nextJoint {bars : Bool} {stops : List String} {pending : List Binding} {c d : Cursor}
    (hs : StopsAt bars stops) (hp : ∀ o ∈ pending, 1 < o.rightMinimum)
    (hl : Joined bars pending (n + pending.length) c d) (left : Expression) :
    Lands (nextJoint (descend n) stops (minimum pending) left) d (OnPass
      (fun _ d => Joined bars pending (n + pending.length) c d ∧
        ∀ o, d.ReadsOperator o → o.power < minimum pending)
      fun _ d => Joined bars pending (n + pending.length) c d) := by
  refine Lands.peek_bind fun l e he => ?_
  split
  · next hj =>
    refine Lands.pure ⟨hl, fun o ho => ?_⟩
    obtain ⟨token, f, op, hr, hop, hbind⟩ := ho
    rw [(he.unique hr).1] at hj
    by_contra hle
    rw [(joint?_eq_binary_iff hs).mpr ⟨hop, hbind, Nat.not_lt.mp hle⟩] at hj
    cases hj
  · next b hj =>
    obtain ⟨ht, rfl, hle, -⟩ := (joint?_eq_filter_iff hs).mp hj
    obtain ⟨done, hl, -⟩ := hl
    rw [ht] at he
    -- Only an operation that is no right side goes on with a filter.
    have hnil : pending = [] := by
      cases pending with
      | nil => rfl
      | cons o pending =>
        have hlt := hp o (by simp)
        simp only [minimum] at hle
        omega
    subst hnil
    refine Lands.skip he ((lands_term hn e).bind fun _ f hf => Lands.pure ⟨[], ?_, by simp⟩)
    exact .filter hl he hf
  · next op b hj =>
    obtain ⟨hop, hbind, hle⟩ := (joint?_eq_binary_iff hs).mp hj
    obtain ⟨done, hl, hdone⟩ := hl
    have hpush : push b (done ++ pending) = b :: pending :=
      push_append (hdone b ⟨_, e, op, he, hop, hbind⟩) hle
    refine Lands.skip he (lands_descend fun m hm => ?_)
    have hlevels : n + pending.length = m + (b :: pending).length := by
      rw [hm, List.length_cons]
      omega
    have hp' : ∀ o ∈ b :: pending, 1 < o.rightMinimum := by
      intro o ho
      rcases List.mem_cons.mp ho with rfl | ho
      · exact Operator.one_lt_rightMinimum hbind
      · exact hp o ho
    rw [hlevels] at hl ⊢
    refine ((hn m hm).operation (b :: pending) c e hs hp' fun f hf => ?_).bind fun right f hf => ?_
    · rw [← hpush] at hl ⊢
      exact .binary hl he hop hbind hf
    · obtain ⟨⟨done', hd', hdone'⟩, hlt⟩ := hf
      refine Lands.pure ⟨done' ++ [b], by simpa using hd', fun o ho o' ho' => ?_⟩
      rcases List.mem_append.mp ho' with ho' | ho'
      · exact hdone' o ho o' ho'
      · rw [List.mem_singleton.mp ho']
        exact hlt o ho

/-- The readers of a level pass its phrases if those of the next level do. -/
theorem sound_of_deeper : Sound n where
  operand := lands_operand hn
  operation pending b c hs hp hoperand :=
    (lands_operand hn c).bind fun left d hd =>
      Lands.loop (descends_nextJoint (tokenWise_descend n) _ _)
        (I := fun _ d => Joined _ pending (n + pending.length) b d)
        (fun left d hl => lands_nextJoint hn hs hp hl left)
        ⟨[], hoperand d hd, by simp⟩

end Levels

/-- The readers of every level pass phrases of that level. -/
theorem sound (n : Nat) : Sound n := by
  induction n using levels_induction with
  | level n hn => exact sound_of_deeper hn

/-- What is read as an expression is an expression. -/
theorem lands_read {stops : List String} (hs : StopsAt true stops) (n : Nat) (c : Cursor) :
    Lands (read n stops) c fun _ d => Spans n c d :=
  (sound n).derives hs c

theorem lands_readFilter (n : Nat) (c : Cursor) :
    Lands (readFilter n) c fun _ d => Derives .term n c d :=
  lands_term (fun m _ => sound m) c

end Expression
end TemplateSyntax
