import TemplateSyntax.Proofs.Cursor
import TemplateSyntax.Proofs.TokenWise

/-!
# Reading goes forward

Tokens are taken from the front of what is left, so the size of a reader never grows, and it shrinks
whenever a token other than the end of the source is taken. Every pass of a loop that asks for
another pass has taken such a token: no loop of the language ever gives up on its way.
-/
namespace TemplateSyntax

namespace Reader

/-- A reader behind the token that it reads from its cursor. -/
def fetched (r : Reader) : Reader :=
  { r with cursor := r.cursor.behindNext true, fetches := r.fetches + 1 }

theorem next_of_peeked {r : Reader} {l : Lexeme} (h : r.peeked = some l) :
    next r = .ok l { r with peeked := none } := by
  simp only [next, h]

theorem next_of_not_peeked {r : Reader} (h : r.peeked = none) :
    next r = match (r.cursor.next true).1 with
      | .ok l => .ok l r.fetched
      | .error f => .error f r.fetched := by
  simp only [next, h, fetched]
  rw [← Cursor.next_snd]
  split
  · next hc => simp [hc]
  · next hc => simp [hc]

/-- A token is taken if it was looked at before, or read from the cursor. -/
theorem next_eq_ok {r t : Reader} {l : Lexeme} (h : next r = .ok l t) :
    r.peeked = some l ∧ t = { r with peeked := none } ∨
      r.peeked = none ∧ r.cursor.next true = (.ok l, r.cursor.behindNext true) ∧ t = r.fetched := by
  cases hp : r.peeked with
  | some l' =>
    rw [next_of_peeked hp] at h
    cases h
    exact .inl ⟨rfl, rfl⟩
  | none =>
    rw [next_of_not_peeked hp] at h
    split at h
    · next l' hl =>
      cases h
      exact .inr ⟨rfl, Prod.ext hl (Cursor.next_snd _ _), rfl⟩
    · cases h

/-- A fault of `next` is one of the cursor, and the cursor then stands behind it. -/
theorem next_eq_error {r t : Reader} {f : Fault} (h : next r = .error f t) :
    r.peeked = none ∧ r.cursor.next true = (.error f, r.cursor.behindNext true) ∧
      t = r.fetched := by
  cases hp : r.peeked with
  | some l' =>
    rw [next_of_peeked hp] at h
    cases h
  | none =>
    rw [next_of_not_peeked hp] at h
    split at h
    · cases h
    · next f' hf =>
      cases h
      exact ⟨rfl, Prod.ext hf (Cursor.next_snd _ _), rfl⟩

theorem run_peek (r : Reader) :
    peek r = match next r with
      | .ok l t => .ok l { t with peeked := some l }
      | .error f t => .error f t := by
  rw [peek, run_bind]
  cases next r <;> rfl

/-- A property of readers that is kept when a token is taken and when it is looked at. -/
structure Stable (P : Reader → Prop) : Prop where
  next : Keeps P Reader.next
  peek : Keeps P Reader.peek

/-- What holds of a cursor and of all that it reaches is kept. -/
theorem stable_of_reaches {P : Cursor → Prop} (h : ∀ c d, c.Reaches d → P c → P d) :
    Stable fun r => P r.cursor := by
  have hnext : Keeps (fun r => P r.cursor) Reader.next := by
    intro r hr
    have hbehind := h _ _ (r.cursor.reaches_behindNext true) hr
    cases hn : Reader.next r with
    | ok l t =>
      rcases next_eq_ok hn with ⟨-, rfl⟩ | ⟨-, -, rfl⟩
      · exact hr
      · exact hbehind
    | error f t =>
      obtain ⟨-, -, rfl⟩ := next_eq_error hn
      exact hbehind
  refine ⟨hnext, fun r hr => ?_⟩
  have hn := hnext r hr
  rw [run_peek]
  cases hr : Reader.next r with
  | ok l t => rwa [hr] at hn
  | error f t => rwa [hr] at hn

end Reader

/-- All that is built from taking tokens and looking at them keeps what both keep. -/
theorem TokenWise.keeps {α : Type} {m : ReadM α} (h : TokenWise m) {P : Reader → Prop}
    (hP : Reader.Stable P) : Keeps P m := by
  induction h with
  | pure a => exact Ensures.pure fun _ h => h
  | throw f => exact Ensures.throw fun _ h => h
  | next => exact hP.next
  | peek => exact hP.peek
  | bind _ _ ihm ihf => exact Ensures.bind ihm ihf
  | loop _ b ih => exact Keeps.loop ih b

theorem Keeps.lift {α : Type} {m : ReadM α} {P : Reader → Prop} (h : Keeps P m) :
    Keeps (fun d : Draft => P d.reader) (liftM m : DraftM α) := by
  intro d hd
  have hm := h d.reader hd
  rw [run_lift]
  cases hr : m d.reader with
  | ok a t => rwa [hr] at hm
  | error f t => rwa [hr] at hm

namespace Draft

/-- A draft behind the text that stands next, which it keeps unless it is empty. -/
def behindText (d : Draft) : Draft :=
  let run := String.ofList (textRun d.reader.cursor.rest)
  { d with
    reader := { d.reader with cursor := d.reader.cursor.behindText }
    current := if run.isEmpty then d.current
      else d.current.push
        (.text run ⟨d.reader.cursor.position, d.reader.cursor.behindText.position⟩) }

theorem run_opening (d : Draft) :
    opening d = if d.reader.cursor.behindText.atEnd then .ok none d.behindText
      else match Reader.next d.behindText.reader with
        | .ok l r => .ok (some l) { d.behindText with reader := r }
        | .error f r => .error f { d.behindText with reader := r } := by
  have h : opening d =
      (if d.behindText.reader.cursor.atEnd then pure none
        else some <$> (liftM Reader.next : DraftM Lexeme) : DraftM (Option Lexeme)) d.behindText :=
    rfl
  rw [h]
  change (if d.reader.cursor.behindText.atEnd then _ else _ : DraftM (Option Lexeme)) _ = _
  split
  · rfl
  · change (EStateM.map some _) _ = _
    rw [EStateM.map, run_lift]
    cases Reader.next d.behindText.reader <;> rfl

/-- A computation that leaves the reader alone keeps what is known of it. -/
theorem Aside.keeps {α : Type} {m : DraftM α} (h : Aside m) {P : Reader → Prop}
    {E : Fault → Draft → Prop} :
    Ensures (fun d => P d.reader) m (fun _ d => P d.reader) E := by
  obtain ⟨g, hg, rfl⟩ := h
  intro d hd
  have hreader : (g d).2.reader = d.reader := by
    have hsame := hg d d.reader rfl
    exact (congrArg (·.2.reader) hsame).trans rfl
  rw [run_modifyGet]
  change P (g d).2.reader
  rwa [hreader]

end Draft

/-- The same for bodies, if the property is also kept when text is read. -/
theorem PieceWise.keeps {α : Type} {m : DraftM α} (h : PieceWise m) {P : Reader → Prop}
    (hP : Reader.Stable P) (ht : ∀ r, P r → P { r with cursor := r.cursor.behindText }) :
    Keeps (fun d : Draft => P d.reader) m := by
  induction h with
  | pure a => exact Ensures.pure fun _ h => h
  | throw f => exact Ensures.throw fun _ h => h
  | lift h _ => exact (h.keeps hP).lift
  | opening =>
    intro d hd
    have htext : P d.behindText.reader := ht _ hd
    have hnext := hP.next _ htext
    rw [Draft.run_opening]
    split
    · exact htext
    · cases hr : Reader.next d.behindText.reader with
      | ok l t => rwa [hr] at hnext
      | error f t => rwa [hr] at hnext
  | aside h => exact h.keeps
  | bind _ _ ihm ihf => exact Ensures.bind ihm ihf
  | loop _ b ih => exact Keeps.loop ih b

/-! ## Sizes -/

/-- The computation never leaves more than before, and less when it succeeds. -/
def Consumes {ε σ α : Type} (size : σ → Nat) (m : EStateM ε σ α) : Prop :=
  ∀ n, Ensures (fun s => size s ≤ n) m (fun _ t => size t < n) (fun _ t => size t ≤ n)

/-- A loop descends if a pass that asks for another one leaves less than there was. -/
theorem descends_of_ensures {ε σ β : Type} {size : σ → Nat} {step : β → EStateM ε σ (ForInStep β)}
    {E : Nat → ε → σ → Prop}
    (h : ∀ b n, Ensures (fun s => size s ≤ n) (step b)
      (OnPass (fun _ _ => True) fun _ t => size t < n) (E n)) : Descends size step :=
  fun b s _ _ hr => (h b (size s)).ok (Nat.le_refl _) hr

namespace Reader

/-- The token looked at is one that can be taken. -/
def Pending (r : Reader) : Prop := ∃ l, r.peeked = some l ∧ l.token ≠ .endOfSource

theorem size_of_not_peeked {r : Reader} (h : r.peeked = none) :
    r.size = r.cursor.rest.length := by
  simp [size, h]

theorem size_behindText_le (r : Reader) :
    ({ r with cursor := r.cursor.behindText } : Reader).size ≤ r.size := by
  have hle := r.cursor.reaches_behindText.length_le
  exact Nat.add_le_add_right hle _

theorem size_fetched {r : Reader} (h : r.peeked = none) :
    r.fetched.size = (r.cursor.behindNext true).rest.length := size_of_not_peeked h

/-- Taking a token leaves no more than before, and less unless it is the end of the source. -/
theorem next_spec (n : Nat) :
    Ensures (fun r => r.size ≤ n) next
      (fun l t => t.size ≤ n ∧ (l.token ≠ .endOfSource → t.size < n)) (fun _ t => t.size ≤ n) := by
  intro r hr
  cases h : next r with
  | ok l t =>
    rcases next_eq_ok h with ⟨hp, rfl⟩ | ⟨hp, hc, rfl⟩
    · have ht : ({ r with peeked := none } : Reader).size = r.cursor.rest.length := rfl
      have hs : r.size = r.cursor.rest.length + if l.token = .endOfSource then 0 else 1 := by
        simp [size, hp]
      refine ⟨by omega, fun hl => ?_⟩
      rw [if_neg hl] at hs
      omega
    · have hle := (r.cursor.reaches_behindNext true).length_le
      have hb := r.cursor.reaches_skipBlanks.length_le
      rw [size_of_not_peeked hp] at hr
      refine ⟨by rw [size_fetched hp]; omega, fun hl => ?_⟩
      have htoken := (Cursor.next_eq_ok hc).1
      have hlt := Cursor.length_behindNext_lt (c := r.cursor)
        (by rw [htoken]; simpa using hl)
      rw [size_fetched hp]
      omega
  | error f t =>
    obtain ⟨hp, -, rfl⟩ := next_eq_error h
    have hle := (r.cursor.reaches_behindNext true).length_le
    rw [size_of_not_peeked hp] at hr
    change r.fetched.size ≤ n
    rw [size_fetched hp]
    omega

/-- Looking at a token leaves no more than before. If the token is not the end of the source, it can
be taken. -/
theorem peek_spec (n : Nat) :
    Ensures (fun r => r.size ≤ n) peek
      (fun l t => t.size ≤ n ∧ t.peeked = some l) (fun _ t => t.size ≤ n) := by
  intro r hr
  have hn := next_spec n r hr
  rw [run_peek]
  cases h : next r with
  | ok l t =>
    rw [h] at hn
    refine ⟨?_, rfl⟩
    have ht : t.peeked = none := by
      rcases next_eq_ok h with ⟨-, rfl⟩ | ⟨hp, -, rfl⟩
      · rfl
      · exact hp
    have hs : ({ t with peeked := some l } : Reader).size =
        t.size + if l.token = .endOfSource then 0 else 1 := by
      simp [size, ht]
    rw [hs]
    split
    · exact hn.1
    · next hl => exact hn.2 hl
  | error f t => rwa [h] at hn

theorem stable_size (n : Nat) : Stable fun r => r.size ≤ n where
  next := (next_spec n).after fun _ _ h => h.1
  peek := (peek_spec n).after fun _ _ h => h.1

/-- A token that was looked at is taken. -/
theorem next_pending (n : Nat) :
    Ensures (fun r => r.size ≤ n ∧ r.Pending) next (fun _ t => t.size < n)
      (fun _ t => t.size ≤ n) := by
  rintro r ⟨hr, l, hp, hl⟩
  have hn := next_spec n r hr
  rw [next_of_peeked hp] at hn ⊢
  exact hn.2 hl

theorem atSymbol_spec (s : Symbol) (n : Nat) :
    Ensures (fun r => r.size ≤ n) (atSymbol s)
      (fun b t => t.size ≤ n ∧ (b = true → t.Pending)) (fun _ t => t.size ≤ n) := by
  refine (peek_spec n).bind fun l => Ensures.pure fun t ht => ⟨ht.1, fun hb => ⟨l, ht.2, ?_⟩⟩
  intro hl
  simp [hl] at hb

theorem stable_size_lt (n : Nat) : Stable fun r => r.size < n := by
  cases n with
  | zero => exact ⟨fun _ h => absurd h (Nat.not_lt_zero _), fun _ h => absurd h (Nat.not_lt_zero _)⟩
  | succ n =>
    have h := stable_size n
    simp only [Nat.lt_succ_iff]
    exact h

end Reader

section Consuming
variable {α β : Type}

theorem TokenWise.ensures_le {m : ReadM α} (h : TokenWise m) (n : Nat) :
    Ensures (fun r => r.size ≤ n) m (fun _ t => t.size ≤ n) (fun _ t => t.size ≤ n) :=
  h.keeps (Reader.stable_size n)

theorem TokenWise.ensures_lt {m : ReadM α} (h : TokenWise m) (n : Nat) :
    Ensures (fun r => r.size < n) m (fun _ t => t.size < n) (fun _ t => t.size ≤ n) :=
  (h.keeps (Reader.stable_size_lt n)).mono (fun _ h => h) (fun _ _ h => h) fun _ _ => Nat.le_of_lt

namespace Consumes

theorem bind {m : ReadM α} {f : α → ReadM β} (hm : Consumes Reader.size m)
    (hf : ∀ a, TokenWise (f a)) : Consumes Reader.size (m >>= f) :=
  fun n => (hm n).bind fun a => (hf a).ensures_lt n

/-- Going on with the next token consumes it if the end of the source is refused. -/
theorem next_bind {f : Lexeme → ReadM β} (hf : ∀ l, TokenWise (f l))
    (hend : ∀ l, l.token = .endOfSource → ∃ fault, f l = throw fault) :
    Consumes Reader.size (Reader.next >>= f) := by
  intro n
  refine (Reader.next_spec n).bind fun l => ?_
  by_cases hl : l.token = .endOfSource
  · obtain ⟨fault, he⟩ := hend l hl
    rw [he]
    exact Ensures.throw fun _ h => h.1
  · exact ((hf l).ensures_lt n).before fun _ h => h.2 hl

theorem expectSymbol (s : Symbol) : Consumes Reader.size (Reader.expectSymbol s) := by
  refine next_bind (fun l => ?_) fun l hl => ⟨.unexpected (.symbol s) l, by simp [hl]⟩
  split
  · exact .pure _
  · exact .throw _

theorem expectName : Consumes Reader.size Reader.expectName := by
  refine next_bind (fun l => ?_) fun l hl => ⟨.unexpected .name l, by simp [hl]⟩
  split
  · exact .pure _
  · exact .throw _

end Consumes

theorem Reader.descends_nextItem {item : ReadM α} (hc : Consumes Reader.size item) :
    Descends Reader.size (nextItem item) := by
  refine descends_of_ensures fun found n => ((TokenWise.atSymbol _).ensures_le n).bind fun b => ?_
  split
  · exact Ensures.pure fun _ _ => trivial
  · refine (hc n).bind fun x => ((TokenWise.atSymbol _).ensures_lt n).bind fun b => ?_
    split
    · exact Ensures.pure fun _ h => h
    · exact (((TokenWise.expectSymbol _).discard).ensures_lt n).bind fun _ =>
        Ensures.pure fun _ h => h

end Consuming

namespace Expression
variable {deeper : Descent}

theorem consumes_arguments (hd : deeper.TokenWise) : Consumes Reader.size (arguments deeper) :=
  (Consumes.expectSymbol _).bind fun span => hd span _ fun _ h => .items (h.operation _ _)

theorem consumes_primary (hd : deeper.TokenWise) : Consumes Reader.size (primary deeper) :=
  .next_bind (tokenWise_primaryFrom hd) fun l hl =>
    ⟨.unexpected .operand l, by simp [primaryFrom, hl]⟩

theorem consumes_term (hd : deeper.TokenWise) : Consumes Reader.size (term deeper) :=
  (consumes_primary hd).bind fun _ => .loop (tokenWise_nextSuffix hd) _

theorem sign?_endOfSource : sign? .endOfSource = none := rfl

theorem joint?_endOfSource (stops : List String) (minimum : Nat) :
    joint? stops minimum .endOfSource = none := rfl

theorem consumes_operand (hd : deeper.TokenWise) : Consumes Reader.size (operand deeper) := by
  intro n
  refine (Reader.peek_spec n).bind fun l => ?_
  split
  · exact (consumes_term hd n).before fun _ h => h.1
  · next op hop =>
    have hl : l.token ≠ .endOfSource := by
      intro hl
      rw [hl, sign?_endOfSource] at hop
      cases hop
    refine ((Reader.next_pending n).before fun t h => ⟨h.1, l, h.2, hl⟩).discard.bind fun _ => ?_
    exact (hd _ _ fun level h => h.operand.bind fun _ => .pure _).ensures_lt n

theorem consumes_operation (hd : deeper.TokenWise) (stops : List String) (minimum : Nat) :
    Consumes Reader.size (operation deeper stops minimum) :=
  (consumes_operand hd).bind fun _ => .loop (tokenWise_nextJoint hd stops minimum) _

theorem consumes_read (n : Nat) (stops : List String) : Consumes Reader.size (read n stops) :=
  consumes_operation (tokenWise_descend n) stops 0

theorem descends_nextSuffix (hd : deeper.TokenWise) :
    Descends Reader.size (nextSuffix deeper) := by
  refine descends_of_ensures fun e n => (Reader.atSymbol_spec .dot n).bind fun b => ?_
  split
  · next hb =>
    refine ((Reader.next_pending n).before fun t h => ⟨h.1, h.2 hb⟩).discard.bind fun _ => ?_
    exact (TokenWise.variableName.ensures_lt n).bind fun _ => Ensures.pure fun _ h => h
  · refine (((TokenWise.atSymbol _).ensures_le n).before fun t h => h.1).bind fun b => ?_
    split
    · exact (consumes_arguments hd n).bind fun _ => Ensures.pure fun _ h => h
    · exact Ensures.pure fun _ _ => trivial

theorem descends_nextJoint (hd : deeper.TokenWise) (stops : List String) (minimum : Nat) :
    Descends Reader.size (nextJoint deeper stops minimum) := by
  refine descends_of_ensures fun left n => (Reader.peek_spec n).bind fun l => ?_
  have pending (h : joint? stops minimum l.token ≠ none) :
      Ensures (fun t => t.size ≤ n ∧ t.peeked = some l) (discard Reader.next : ReadM PUnit)
        (fun _ t => t.size < n) (fun _ t => t.size ≤ n) := by
    refine ((Reader.next_pending n).before fun t ht => ⟨ht.1, l, ht.2, ?_⟩).discard
    intro hl
    exact h (by rw [hl, joint?_endOfSource])
  split
  · exact Ensures.pure fun _ _ => trivial
  · next hj =>
    refine (pending (by simp [hj])).bind fun _ => ?_
    exact ((tokenWise_term hd).ensures_lt n).bind fun _ => Ensures.pure fun _ h => h
  · next op binding hj =>
    refine (pending (by simp [hj])).bind fun _ => ?_
    have ht : TokenWise (deeper l.span >>= fun level => do
        let right ← level.operation stops binding.rightMinimum
        return ForInStep.yield (binary ⟨op, l.span⟩ left right (left.span.combine right.span))) :=
      hd _ _ fun level h => (h.operation _ _).bind fun _ => .pure _
    refine (ht.ensures_lt n).after fun r t h => ?_
    cases r
    · trivial
    · exact h

end Expression

namespace PieceWise
variable {α : Type} {m : DraftM α}

theorem ensures_le (h : PieceWise m) (n : Nat) :
    Ensures (fun d => d.size ≤ n) m (fun _ d => d.size ≤ n) (fun _ d => d.size ≤ n) :=
  h.keeps (Reader.stable_size n) fun r hr => Nat.le_trans r.size_behindText_le hr

theorem ensures_lt (h : PieceWise m) (n : Nat) :
    Ensures (fun d => d.size < n) m (fun _ d => d.size < n) (fun _ d => d.size ≤ n) := by
  cases n with
  | zero => exact fun _ hd => absurd hd (Nat.not_lt_zero _)
  | succ n =>
    exact (h.ensures_le n).mono (fun _ h => Nat.le_of_lt_succ h) (fun _ _ h => Nat.lt_succ_of_le h)
      fun _ _ h => Nat.le_succ_of_le h

end PieceWise

namespace Draft
variable {levels : Nat} {body : BodyReader}

theorem descends_nextName : Descends Reader.size nextName := by
  refine descends_of_ensures fun (names, span) n => (Reader.atSymbol_spec .comma n).bind fun b => ?_
  split
  · next hb =>
    refine ((Reader.next_pending n).before fun t h => ⟨h.1, h.2 hb⟩).discard.bind fun _ => ?_
    exact (TokenWise.variableName.ensures_lt n).bind fun _ => Ensures.pure fun _ h => h
  · exact Ensures.pure fun _ _ => trivial

theorem descends_nextFilter : Descends Reader.size (nextFilter levels) := by
  refine descends_of_ensures fun filters n => (Reader.atSymbol_spec .bar n).bind fun b => ?_
  split
  · next hb =>
    refine ((Reader.next_pending n).before fun t h => ⟨h.1, h.2 hb⟩).discard.bind fun _ => ?_
    exact ((Expression.tokenWise_readFilter _).ensures_lt n).bind fun _ => Ensures.pure fun _ h => h
  · exact Ensures.pure fun _ _ => trivial

theorem consumes_parameter : Consumes Reader.size (parameter levels) := by
  refine Consumes.expectName.bind fun name => (TokenWise.atSymbol _).bind fun atAssign => ?_
  split
  · exact TokenWise.next.discard.bind fun _ => (Expression.tokenWise_read _ _).bind fun _ => .pure _
  · exact .pure _

theorem consumes_lift {α : Type} {m : ReadM α} (h : Consumes Reader.size m) :
    Consumes Draft.size (liftM m : DraftM α) := by
  intro n d hd
  have hm := h n d.reader hd
  rw [run_lift]
  cases hr : m d.reader with
  | ok a t => rwa [hr] at hm
  | error f t => rwa [hr] at hm

theorem consumes_lastExpression : Consumes Reader.size (lastExpression levels) :=
  (Expression.consumes_read _ _).bind fun _ => tokenWise_endTag.discard.bind fun _ => .pure _

theorem descends_nextArm (hb : body.PieceWise) : Descends Draft.size (nextArm levels body) := by
  refine descends_of_ensures (E := fun n _ d => d.size ≤ n) fun (arms, closing) n => ?_
  unfold nextArm
  dsimp only
  split
  · exact (consumes_lift consumes_lastExpression n).bind fun _ =>
      ((hb _).ensures_lt n).bind fun _ => Ensures.pure fun _ h => h
  · exact Ensures.pure fun _ _ => trivial

/-- What opens a tag or a placeable is taken, unless it is the end of the source. -/
theorem opening_spec (n : Nat) :
    Ensures (fun d => d.size ≤ n) opening
      (fun found d => d.size ≤ n ∧ ∀ l, found = some l → l.token ≠ .endOfSource → d.size < n)
      (fun _ d => d.size ≤ n) := by
  intro d hd
  have htext : d.behindText.reader.size ≤ n := Nat.le_trans d.reader.size_behindText_le hd
  have hnext := Reader.next_spec n _ htext
  rw [run_opening]
  split
  · exact ⟨htext, fun l h => by cases h⟩
  · cases hr : Reader.next d.behindText.reader with
    | ok l t =>
      rw [hr] at hnext
      refine ⟨hnext.1, fun l' h => ?_⟩
      cases h
      exact hnext.2
    | error f t => rwa [hr] at hnext

/-- A piece that asks for another one has taken what opens it. -/
theorem descends_piece (hb : body.PieceWise) (closers : List Keyword) :
    Descends Draft.size fun _ : Option Closing => piece levels body closers := by
  refine descends_of_ensures fun _ n => (opening_spec n).bind fun found => ?_
  split
  · exact Ensures.pure fun _ _ => trivial
  · next l =>
    have taken {s : Symbol} (hs : l.token = .symbol s) (d : Draft)
        (h : d.size ≤ n ∧ ∀ l', some l = some l' → l'.token ≠ .endOfSource → d.size < n) :
        d.size < n := h.2 l rfl (by simp [hs])
    split
    · next hs =>
      refine (Ensures.before ((PieceWise.lift tokenWise_placeable settles_placeable).ensures_lt n)
        (taken hs)).bind fun s => ?_
      exact ((PieceWise.aside (aside_push s)).ensures_lt n).bind fun _ => Ensures.pure fun _ h => h
    · next hs =>
      refine (Ensures.before ((PieceWise.lift .expectName .expectName).ensures_lt n)
        (taken hs)).bind fun name => ?_
      refine ((PieceWise.aside (aside_note _)).ensures_lt n).bind fun _ => ?_
      split
      · exact Ensures.pure fun _ _ => trivial
      · exact ((pieceWise_tag hb _).ensures_lt n).bind fun _ => Ensures.pure fun _ h => h
    · exact Ensures.throw fun _ h => h.1

end Draft
end TemplateSyntax
