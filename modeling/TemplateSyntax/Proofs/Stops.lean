import TemplateSyntax.Proofs.NestedFilters
import TemplateSyntax.Proofs.SeveredReading
import TemplateSyntax.Proofs.Spelling

/-!
# Stops

The stops of an expression matter in one place only: where a token would join two operands. Readers
inside parentheses have stops of their own, none of which joins operands. So an expression is read
as if there were no stops up to the first joint that is a stop and stands outside parentheses.
-/
namespace TemplateSyntax

/-! ## Parentheses -/

namespace Cursor

/-- Tokens that are read one behind the other. -/
inductive ReadsTokens : Cursor → List Token → Cursor → Prop
  | nil {c : Cursor} : ReadsTokens c [] c
  | cons {c d e : Cursor} {t : Token} {ts : List Token} (h : c.Reads t d)
    (hs : ReadsTokens d ts e) : ReadsTokens c (t :: ts) e

/-- Between the cursors, this many more parentheses are closed than opened. -/
def Closing (c : Cursor) (n : Nat) (d : Cursor) : Prop :=
  ∃ ts, c.ReadsTokens ts d ∧
    ts.count (.symbol .closeParen) = ts.count (.symbol .openParen) + n

/-- The token stands behind the cursor, and all parentheses that open between the two are closed
there. -/
def OutsideParens (c : Cursor) (l : Lexeme) : Prop :=
  ∃ d e, c.Closing 0 d ∧ d.next true = (.ok l, e)

variable {c d e : Cursor} {t : Token} {ts us : List Token} {m n : Nat}

theorem ReadsTokens.append (h : c.ReadsTokens ts d) (hs : d.ReadsTokens us e) :
    c.ReadsTokens (ts ++ us) e := by
  induction h with
  | nil => exact hs
  | cons h _ ih => exact .cons h (ih hs)

theorem ReadsTokens.reaches (h : c.ReadsTokens ts d) : c.Reaches d := by
  induction h with
  | nil => exact .refl _
  | cons h _ ih =>
    obtain ⟨span, h⟩ := h
    exact (reaches_of_next h).trans ih

namespace Closing

theorem refl (c : Cursor) : c.Closing 0 c := ⟨[], .nil, rfl⟩

theorem trans (h : c.Closing m d) (hd : d.Closing n e) : c.Closing (m + n) e := by
  obtain ⟨ts, hts, hm⟩ := h
  obtain ⟨us, hus, hn⟩ := hd
  refine ⟨ts ++ us, hts.append hus, ?_⟩
  rw [List.count_append, List.count_append]
  omega

/-- A token that is no parenthesis. -/
theorem single (h : c.Reads t d) (ho : t ≠ .symbol .openParen) (hc : t ≠ .symbol .closeParen) :
    c.Closing 0 d :=
  ⟨[t], .cons h .nil, by rw [List.count_singleton, List.count_singleton]; simp [ho, hc]⟩

theorem close (h : c.ReadsSymbol .closeParen d) : c.Closing 1 d :=
  ⟨[.symbol .closeParen], .cons h .nil, by decide⟩

/-- An opening parenthesis and what closes it. -/
theorem parens (ho : c.ReadsSymbol .openParen d) (h : d.Closing 1 e) : c.Closing 0 e := by
  obtain ⟨ts, hts, hcount⟩ := h
  refine ⟨.symbol .openParen :: ts, .cons ho hts, ?_⟩
  rw [List.count_cons_self, List.count_cons_of_ne (by decide), hcount]

end Closing
end Cursor

theorem Operator.WrittenAs.not_paren {op : Operator} {t : Token} (h : op.WrittenAs t) :
    t ≠ .symbol .openParen ∧ t ≠ .symbol .closeParen := by
  cases h with
  | symbol h =>
    constructor
    all_goals
      rintro ⟨⟩
      cases op <;> exact absurd h (by decide)
  | word h => simp

namespace Phrase

/-- How many parentheses a phrase closes that were opened before it. -/
def closes : Phrase → Nat
  | arguments => 1
  | _ => 0

/-- A phrase closes the parentheses that it opens. -/
theorem Derives.closing {phrase : Phrase} {n : Nat} {c d : Cursor} (h : phrase.Derives n c d) :
    c.Closing phrase.closes d := by
  induction h with
  | number h => exact .single h (by simp) (by simp)
  | string h _ => exact .single h (by simp) (by simp)
  | name h =>
    obtain ⟨name, h⟩ := h
    exact .single h (by simp) (by simp)
  | parens ho _ hc ih => exact .parens ho (ih.trans (.close hc))
  | primary _ ih => exact ih
  | member _ hd hn ih =>
    obtain ⟨name, hn⟩ := hn
    exact (ih.trans (.single hd (by decide) (by decide))).trans (.single hn (by simp) (by simp))
  | call _ ho _ ih iha => exact ih.trans (.parens ho iha)
  | term _ _ ih => exact ih
  | sign hs _ ih =>
    rcases hs with hs | hs
    · exact .trans (.single hs (by decide) (by decide)) ih
    · exact .trans (.single hs (by simp) (by simp)) ih
  | operand _ ih => exact ih
  | binary _ ht hop _ _ ihl ihr =>
    exact (ihl.trans (.single ht hop.not_paren.1 hop.not_paren.2)).trans ihr
  | filter _ hb _ ihl iht => exact (ihl.trans (.single hb (by decide) (by decide))).trans iht
  | noArgument h => exact .close h
  | lastArgument _ h ih => exact ih.trans (.close h)
  | argument _ hc _ ih iha => exact (ih.trans (.single hc (by decide) (by decide))).trans iha

end Phrase

/-! ## Joints -/

namespace Expression
open Reader
variable {n minimum : Nat} {stops others : List String}

/-- How the tokens are written that may join two operands: twelve symbols of operators, the bar, and
two words. -/
def Joint.spellings : List String :=
  ["+", "-", "*", "/", "%", "**", ">", "<", "==", "!=", ">=", "<=", "|", "and", "or"]

theorem joint?_eq_ite (stops : List String) (minimum : Nat) (t : Token) :
    joint? stops minimum t = if t.isAnyOf stops then none else joint? [] minimum t := by
  cases t <;> simp [joint?, Token.isAnyOf]

/-- A token that joins two operands is written like one of the joints. -/
theorem exists_spelling_of_joint? {t : Token} {x : Joint × Binding}
    (h : joint? [] minimum t = some x) :
    ∃ word ∈ Joint.spellings, ∀ stops : List String, t.isAnyOf stops = stops.contains word := by
  obtain ⟨joint, b⟩ := x
  obtain ⟨-, hjoint, hb, -⟩ := joint?_eq_some_iff.mp h
  cases t with
  | symbol s =>
    refine ⟨s.spelling, ?_, fun _ => rfl⟩
    cases s <;> first | decide | cases hjoint
  | identifier word =>
    refine ⟨word, ?_, fun _ => rfl⟩
    simp only [Joint.ofToken?, Option.map_eq_some_iff, Option.bind_eq_some_iff] at hjoint
    obtain ⟨op, ⟨k, hk, hop⟩, -⟩ := hjoint
    rw [Keyword.ofSpelling?_eq_some_iff.mp hk]
    cases k <;> first | decide | cases hop
  | _ => cases hjoint

/-- Only those stops count that are joints. -/
theorem joint?_congr (h : ∀ word ∈ Joint.spellings, word ∈ stops ↔ word ∈ others) (minimum : Nat)
    (t : Token) : joint? stops minimum t = joint? others minimum t := by
  rw [joint?_eq_ite stops, joint?_eq_ite others]
  cases hj : joint? [] minimum t with
  | none => simp
  | some x =>
    obtain ⟨word, hword, hany⟩ := exists_spelling_of_joint? hj
    simp only [hany, List.contains_iff_mem, h word hword]

/-- Operations with the same joints among their stops are the same. -/
theorem operation_congr (h : ∀ word ∈ Joint.spellings, word ∈ stops ↔ word ∈ others) :
    operation (descend n) stops = operation (descend n) others := by
  induction n using levels_induction with
  | level n hn =>
    have hpass : nextJoint (descend n) stops = nextJoint (descend n) others := by
      funext minimum left
      unfold nextJoint
      refine bind_congr fun l => ?_
      rw [joint?_congr h]
      split
      · rfl
      · rfl
      · cases n with
        | zero => rfl
        | succ m => simp only [descend_succ_bind, hn m rfl]
    funext minimum
    rw [operation, operation, hpass]

/-- The token would join two operands, and is a stop. -/
def Stopped (stops : List String) (t : Token) : Prop :=
  t.isAnyOf stops = true ∧ (joint? [] 0 t).isSome

/-- The run with the stops is like the one without, or has come to a joint that is a stop. -/
inductive AgreesUnlessStopped {α : Type} (stops : List String) :
    EStateM.Result Fault Reader α → EStateM.Result Fault Reader α → Prop
  | same {x y : EStateM.Result Fault Reader α} (h : x = y) : AgreesUnlessStopped stops x y
  | stopped {a : α} {t : Reader} {l : Lexeme} {y : EStateM.Result Fault Reader α}
    (hl : t.peeked = some l) (h : Stopped stops l.token) : AgreesUnlessStopped stops (.ok a t) y

theorem joint?_of_not_stopped {t : Token} (h : ¬ Stopped stops t) (minimum : Nat) :
    joint? stops minimum t = joint? [] minimum t := by
  rw [joint?_eq_ite]
  split
  · next hany =>
    cases hj : joint? [] minimum t with
    | none => rfl
    | some x =>
      obtain ⟨joint, b⟩ := x
      obtain ⟨hstops, hjoint, hb, -⟩ := joint?_eq_some_iff.mp hj
      have hfirst : joint? [] 0 t = some (joint, b) :=
        joint?_eq_some_iff.mpr ⟨hstops, hjoint, hb, Nat.zero_le _⟩
      exact absurd ⟨hany, by rw [hfirst]; rfl⟩ h
  · rfl

section Runs
variable (hn : ∀ m, n = m + 1 → ∀ (minimum : Nat) (r : Reader), AgreesUnlessStopped stops
  (operation (descend m) stops minimum r) (operation (descend m) [] minimum r))
include hn

theorem nextJoint_stops (left : Expression) (r : Reader) : AgreesUnlessStopped stops
    (nextJoint (descend n) stops minimum left r) (nextJoint (descend n) [] minimum left r) := by
  unfold nextJoint
  rw [run_bind, run_bind]
  cases hp : peek r with
  | error f t => exact .same rfl
  | ok l t =>
    dsimp only
    by_cases hl : Stopped stops l.token
    · rw [joint?_of_isAnyOf hl.1]
      exact .stopped (peeked_of_peek hp) hl
    rw [joint?_of_not_stopped hl]
    rcases joint? [] minimum l.token with _ | ⟨_ | op, binding⟩
    · exact .same rfl
    · exact .same rfl
    cases n with
    | zero => exact .same rfl
    | succ m =>
      -- The right side may come to a joint that is a stop, and then this operation does too.
      simp only [descend_succ_bind, run_bind]
      cases (Functor.discard next : ReadM PUnit) t with
      | error f u => exact .same rfl
      | ok _ u =>
        have hright := hn m rfl binding.rightMinimum u
        dsimp only
        generalize operation (descend m) stops binding.rightMinimum u = x at hright ⊢
        cases hright with
        | same h => exact .same (by rw [h])
        | stopped hpeeked h => exact .stopped hpeeked h

/-- Behind a joint that is a stop nothing is read. -/
theorem joints_stops (left : Expression) (r : Reader) : AgreesUnlessStopped stops
    (loop Reader.size (nextJoint (descend n) stops minimum) left r)
    (loop Reader.size (nextJoint (descend n) [] minimum) left r) := by
  have hd (stops : List String) := descends_nextJoint (tokenWise_descend n) stops minimum
  induction hsize : r.size using Nat.strong_induction_on generalizing r left with
  | h size ih =>
    rw [loop_eq (hd _), loop_eq (hd _), run_bind, run_bind]
    have hdescends := hd stops left r
    have hpass : AgreesUnlessStopped stops (nextJoint (descend n) stops minimum left r) _ :=
      nextJoint_stops hn left r
    generalize hrun : nextJoint (descend n) stops minimum left r = x at hpass
    cases hpass with
    | same h =>
      rw [← h]
      rcases x with ⟨x, t⟩ | ⟨f, t⟩
      · cases x with
        | done e => exact .same rfl
        | yield e => exact ih _ (hsize ▸ hdescends e t hrun) e t rfl
      · exact .same rfl
    | @stopped x t l _ hpeeked hl =>
      cases x with
      | done e => exact .stopped hpeeked hl
      | yield e =>
        dsimp only
        rw [loop_eq (hd _), run_bind_ok (nextJoint_of_stop (peek_of_peeked hpeeked) hl.1)]
        exact .stopped hpeeked hl

end Runs

/-- Stops change nothing, unless a joint that is a stop has been come to. -/
theorem operation_stops (n minimum : Nat) (stops : List String) (r : Reader) :
    AgreesUnlessStopped stops (operation (descend n) stops minimum r)
      (operation (descend n) [] minimum r) := by
  induction n using levels_induction generalizing minimum r with
  | level n hn =>
    rw [operation, operation, run_bind, run_bind]
    cases operand (descend n) r with
    | error f t => exact .same rfl
    | ok e t => exact joints_stops hn e t

/-- Where the end of the source is left, no stop has been come to. -/
theorem read_of_read_ended {stops : List String} {r t : Reader} {e : Expression} {close : Span}
    (h : read n stops r = .ok e t) (ht : t.peeked = some ⟨.endOfSource, close⟩) :
    read n [] r = .ok e t := by
  have hagrees : AgreesUnlessStopped stops (read n stops r) (read n [] r) :=
    operation_stops n 0 stops r
  rw [h] at hagrees
  cases hagrees with
  | same h => exact h.symm
  | stopped hpeeked hl =>
    rw [ht] at hpeeked
    cases hpeeked
    cases hl.1

/-- An expression leaves a token that was looked at. -/
theorem peeked_of_read {stops : List String} {r t : Reader} {e : Expression}
    (h : read n stops r = .ok e t) : ∃ l, t.peeked = some l := by
  obtain ⟨left, u, -, h⟩ := bind_eq_ok h
  refine Ensures.ok (Ensures.loop (descends_nextJoint (tokenWise_descend n) _ _)
    (I := fun _ _ => True) (Q := fun _ t => ∃ l, t.peeked = some l) (E := fun _ _ => True)
    (fun left s _ => ?_) left) trivial h
  cases hr : nextJoint (descend n) stops 0 left s with
  | error f t => trivial
  | ok x t =>
    cases x with
    | yield e => trivial
    | done e =>
      obtain ⟨-, l, hp⟩ := nextJoint_eq_done hr
      exact ⟨l, peeked_of_peek hp⟩

/-- A token that joins two operands is no parenthesis. -/
theorem not_paren_of_joint? {t : Token} {x : Joint × Binding}
    (h : joint? stops minimum t = some x) :
    t ≠ .symbol .openParen ∧ t ≠ .symbol .closeParen := by
  obtain ⟨joint, b⟩ := x
  obtain ⟨-, hjoint, -⟩ := joint?_eq_some_iff.mp h
  constructor
  all_goals
    rintro rfl
    cases hjoint

theorem closing_nextJoint {c d : Cursor} (hn : ∀ m, n = m + 1 → ∀ minimum c,
      Lands (operation (descend m) stops minimum) c fun _ d => c.Closing 0 d)
    (hd : c.Closing 0 d) (left : Expression) : Lands (nextJoint (descend n) stops minimum left) d
      (OnPass (fun _ d => c.Closing 0 d) fun _ d => c.Closing 0 d) := by
  refine Lands.peek_bind fun l e hl => ?_
  split
  · exact Lands.pure hd
  · next hj =>
    obtain ⟨ho, hc⟩ := not_paren_of_joint? hj
    refine Lands.skip hl ((lands_term (fun m _ => sound m) e).bind fun _ f hf => Lands.pure ?_)
    exact (hd.trans (.single hl ho hc)).trans hf.closing
  · next hj =>
    obtain ⟨ho, hc⟩ := not_paren_of_joint? hj
    refine Lands.skip hl (lands_descend fun m hm => (hn m hm _ e).bind fun _ f hf =>
      Lands.pure ?_)
    exact (hd.trans (.single hl ho hc)).trans hf

/-- An operation closes all parentheses that it opens, whatever it stops at. -/
theorem closing_operation (n : Nat) (stops : List String) (minimum : Nat) (c : Cursor) :
    Lands (operation (descend n) stops minimum) c fun _ d => c.Closing 0 d := by
  induction n using levels_induction generalizing minimum c with
  | level n hn =>
    refine (lands_operand (fun m _ => sound m) c).bind fun left _ hd => ?_
    exact Lands.loop (descends_nextJoint (tokenWise_descend n) stops minimum)
      (I := fun _ d => c.Closing 0 d) (fun left _ hd => closing_nextJoint hn hd left) hd.closing

/-- The token that an expression leaves is the next one behind what was read. -/
theorem next_of_read {stops : List String} {r t : Reader} {e : Expression} {c : Cursor}
    {l : Lexeme} (hr : r.At c) (h : read n stops r = .ok e t) (hl : t.peeked = some l) :
    ∃ d, c.Closing 0 d ∧ d.next true = (.ok l, t.cursor) := by
  obtain ⟨d, hd, hclosing⟩ := (closing_operation n stops 0 c).ok hr h
  rcases hd with ⟨hnone, -⟩ | ⟨l', hl', hnext⟩
  · rw [hl] at hnone
    cases hnone
  · rw [hl] at hl'
    cases hl'
    exact ⟨d, hclosing, hnext⟩

end Expression

/-! ## Sessions -/

namespace Session
open Expression

/-- The source up to the token that an expression leaves holds the same expression, up to its
end. -/
theorem expression_truncated {text : String} {name : Option String} {stops : List String}
    {e : Expression} {u : Session} (h : (start text name).expression stops = (.ok e, u)) :
    ∃ l v short, u.next = (.ok l, v) ∧
      (⟨.start, l.span.start⟩ : Span).slice? text = some short ∧
      (l.token = .endOfSource → short = text) ∧
      ∃ u' close v', (start short name).expression [] = (.ok e, u') ∧
        u'.next = (.ok ⟨.endOfSource, close⟩, v') := by
  obtain ⟨t, hread, rfl⟩ := run_lift_eq_ok.mp h
  obtain ⟨l, hl⟩ := peeked_of_read hread
  obtain ⟨d, ⟨ts, hts, -⟩, hnext⟩ := next_of_read (c := .ofText text) (.inl ⟨rfl, rfl⟩) hread hl
  obtain ⟨htoken, hspan, -⟩ := Cursor.next_eq_ok hnext
  have hstart : l.span.start = d.skipBlanks.position := by rw [hspan]; rfl
  obtain ⟨x, hx, hp⟩ := hts.reaches.trans d.reaches_skipBlanks
  have hslice := (Cursor.Reaches.refl (.ofText text)).slice?_eq hp hx
  have hleft : (⟨text, name, { Draft.ofText text with reader := t }⟩ : Session).next =
      (.ok l, ⟨text, name, { Draft.ofText text with reader := { t with peeked := none } }⟩) :=
    run_lift_eq_ok.mpr ⟨_, Reader.next_of_peeked hl, rfl⟩
  have hend : l.token = .endOfSource ↔ d.skipBlanks.rest = [] := by
    rw [← @Cursor.nextPiece_eq_endOfSource_iff true d, htoken]
    simp
  have hwhole (h : l.token = .endOfSource) : String.ofList x = text := by
    rw [hend.mp h, List.append_nil] at hx
    exact String.toList_inj.mp (String.toList_ofList.trans hx.symm)
  have hshort : ∃ t' close, read depthLimit [] (Draft.ofText (String.ofList x)).reader = .ok e t' ∧
      t'.peeked = some ⟨.endOfSource, close⟩ := by
    by_cases hv : d.skipBlanks.rest = []
    · have hkept : t.peeked = some ⟨.endOfSource, l.span⟩ := by rw [hl, ← hend.mpr hv]
      rw [hwhole (hend.mpr hv)]
      exact ⟨t, l.span, read_of_read_ended hread hkept, hkept⟩
    · have htwin : Reader.Twin d.skipBlanks.rest d.skipBlanks.position (Draft.ofText text).reader
          (Draft.ofText (String.ofList x)).reader := by
        refine ⟨⟨x, hx, hp.symm, ?_⟩, fun l h => by cases h⟩
        simp [Draft.ofText, Cursor.ofText, Reader.before, Cursor.before]
      obtain ⟨t', ht', hkept⟩ :=
        read_severed hv htwin hread hl (congrArg Position.offset hstart)
      exact ⟨t', _, read_of_read_ended ht' hkept, hkept⟩
  obtain ⟨t', close, ht', hkept⟩ := hshort
  exact ⟨l, _, String.ofList x, hleft, by rw [hstart]; exact hslice, hwhole, _, close, _,
    run_lift_eq_ok.mpr ⟨t', ht', rfl⟩, run_lift_eq_ok.mpr ⟨_, Reader.next_of_peeked hkept, rfl⟩⟩

/-- Sessions read alike with stops that hold the same joints. -/
theorem expression_congr {stops others : List String}
    (h : ∀ word ∈ Joint.spellings, word ∈ stops ↔ word ∈ others) (s : Session) :
    s.expression stops = s.expression others := by
  rw [expression, expression, Expression.read, Expression.read, operation_congr h]

/-- Where a stop makes a difference, it is a joint, and it stands outside the parentheses of the
expression before it. -/
theorem expression_stopped (stops : List String) (s : Session) :
    s.expression stops = s.expression [] ∨ ∃ e u l v, s.expression stops = (.ok e, u) ∧
      u.next = (.ok l, v) ∧ l.token.isAnyOf (stops.filter (· ∈ Joint.spellings)) = true ∧
      ∀ c, s.draft.reader.At c → c.OutsideParens l := by
  have hagrees : AgreesUnlessStopped stops (read depthLimit stops s.draft.reader)
      (read depthLimit [] s.draft.reader) := operation_stops depthLimit 0 stops s.draft.reader
  generalize hrun : read depthLimit stops s.draft.reader = x at hagrees
  cases hagrees with
  | same h =>
    left
    rw [expression, expression, run, run, run_lift, run_lift, hrun, h]
  | @stopped e t l _ hl hstopped =>
    right
    obtain ⟨hstop, hjoint⟩ := hstopped
    refine ⟨e, _, l, _, run_lift_eq_ok.mpr ⟨t, hrun, rfl⟩,
      run_lift_eq_ok.mpr ⟨_, Reader.next_of_peeked hl, rfl⟩, ?_, fun c hc => ?_⟩
    · obtain ⟨x, hx⟩ := Option.isSome_iff_exists.mp hjoint
      obtain ⟨word, hword, hany⟩ := exists_spelling_of_joint? hx
      rw [hany] at hstop ⊢
      simpa [hword] using hstop
    · obtain ⟨d, hd, hnext⟩ := next_of_read hc hrun hl
      exact ⟨d, _, hd, hnext⟩

/-- **Stopping is truncation.** If an expression is read from a source and leaves a token, then
without any stops the same expression with the same spans is read from the source up to that token,
and leaves its end. Of the stops only those count that join two operands: with the same joints among
them all sessions read alike, whatever else is a stop. Such a stop makes a difference only if the
expression ends there, outside all parentheses. -/
theorem expression_stops (text : String) (name : Option String) (stops : List String) :
    (∀ e u, (start text name).expression stops = (.ok e, u) → ∃ l v short, u.next = (.ok l, v) ∧
      (⟨.start, l.span.start⟩ : Span).slice? text = some short ∧
      (l.token = .endOfSource → short = text) ∧
      ∃ u' close v', (start short name).expression [] = (.ok e, u') ∧
        u'.next = (.ok ⟨.endOfSource, close⟩, v')) ∧
    (∀ others, (∀ word ∈ Joint.spellings, word ∈ stops ↔ word ∈ others) →
      ∀ s : Session, s.expression stops = s.expression others) ∧
    ∀ s : Session, s.expression stops = s.expression [] ∨ ∃ e u l v,
      s.expression stops = (.ok e, u) ∧ u.next = (.ok l, v) ∧
      l.token.isAnyOf (stops.filter (· ∈ Joint.spellings)) = true ∧
      ∀ c, s.draft.reader.At c → c.OutsideParens l :=
  ⟨fun _ _ => expression_truncated, fun _ => expression_congr, expression_stopped stops⟩

/-- Of the two symbols that are stops here only the second one is outside of parentheses. -/
theorem expression_stops_parens :
    let s := start "a - (b + c) + d"
    ∃ e u u' close v', s.expression ["+", "if"] = (.ok e, u) ∧
      (start "a - (b + c) ").expression [] = (.ok e, u') ∧
      u'.next = (.ok ⟨.endOfSource, close⟩, v') ∧
      s.expression ["+", "if"] = s.expression ["+"] ∧
      ∃ l v, u.next = (.ok l, v) ∧ (Cursor.ofText "a - (b + c) + d").OutsideParens l := by
  intro s
  obtain ⟨htruncated, hcongr, hstopped⟩ := expression_stops "a - (b + c) + d" none ["+", "if"]
  have hdiffers : (s.expression ["+", "if"]).1 ≠ (s.expression []).1 := by decide +kernel
  have hslice : (s.expression ["+", "if"]).2.next.1.toOption.map
      (fun l => (⟨.start, l.span.start⟩ : Span).slice? "a - (b + c) + d") =
        some (some "a - (b + c) ") := by decide +kernel
  rcases hstopped s with hsame | ⟨e, u, l, v, he, hl, -, houtside⟩
  · exact absurd (congrArg Prod.fst hsame) hdiffers
  obtain ⟨l', v', short, hl', hshort, -, u', close, w, he', hclose⟩ := htruncated e u he
  rw [he, hl'] at hslice
  rw [Option.some.inj (hshort.symm.trans (Option.some.inj hslice))] at he'
  exact ⟨e, u, u', close, w, he, he', hclose, hcongr ["+"] (by decide) s, l, v, hl,
    houtside _ (.inl ⟨rfl, rfl⟩)⟩

end Session
end TemplateSyntax
