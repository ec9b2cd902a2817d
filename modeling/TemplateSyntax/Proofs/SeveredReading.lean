import TemplateSyntax.Proofs.OrderedReading
import TemplateSyntax.Proofs.Truncation

/-!
# Reading up to a token that is left

A source is cut off where some token begins, and read beside the whole source. For as long as that
token is not taken, the readers do the same: either both are before the cut, or the one has looked
at the token and the other at the end of its source, and there they part only if the token is taken.
-/
namespace TemplateSyntax

/-- Up to the cut the next token is the same. One that ends behind the cut begins before it, or the
shorter source ends there. -/
theorem Cursor.next_severed {c : Cursor} {x v : List Char} {p : Position} (hc : c.rest = x ++ v)
    (hv : v ≠ []) (hp : c.position.advanceBy x = p) :
    (∃ y, (c.behindNext true).rest = y ++ v ∧ (c.behindNext true).position.advanceBy y = p ∧
      (c.before x).next true = ((c.next true).1, (c.behindNext true).before y) ∧
      (c.nextSpan true).start.offset < p.offset) ∨
    p.offset < (c.behindNext true).position.offset ∧
      ((c.before x).next true = (.ok ⟨.endOfSource, .empty p⟩, ⟨p, []⟩) ∨
        (c.nextSpan true).start.offset < p.offset) := by
  rcases next_cut hc hv hp with hsame | hended | ⟨hstart, hpast⟩
  · exact .inl hsame
  · rcases (c.reaches_behindNext true).cut hc hp with ⟨hle, -⟩ | ⟨-, hpast⟩
    · -- What ends before the cut is no end of the source.
      obtain ⟨y, hy, hnext⟩ := next_append hc (.nil v) hle
      rw [List.append_nil, hended] at hnext
      have hend : c.next true = (.ok ⟨.endOfSource, .empty p⟩, c.behindNext true) :=
        Prod.ext (congrArg Prod.fst hnext).symm (next_snd true c)
      have hrest := nextPiece_eq_endOfSource_iff.mp (next_eq_ok hend).1
      have hlen := (c.skipBlanks_reaches_behindNext true).length_le
      rw [hrest, hy] at hlen
      simp [hv] at hlen
    · exact .inr ⟨hpast, .inl hended⟩
  · exact .inr ⟨hpast, .inr hstart⟩

namespace Reader
variable {v : List Char} {p : Position} {α β : Type}

/-- The token is looked at, and in the shorter source the end. -/
structure Halted (p : Position) (l : Lexeme) (r r' : Reader) : Prop where
  kept : r.peeked = some l
  offset : p.offset < r.cursor.position.offset
  ended : r'.peeked = some (endLexeme p)
  cursor : r'.cursor = ⟨p, []⟩

/-- The readers have done the same so far. -/
def Meets (v : List Char) (p : Position) (r r' : Reader) : Prop :=
  Twin v p r r' ∨ ∃ l, Halted p l r r'

/-- A run that succeeds has passed the cut, or the other run has done the same. -/
def Echoes (v : List Char) (p : Position) (x x' : EStateM.Result Fault Reader α) : Prop :=
  ∀ a t, x = .ok a t → Beyond p t ∨ ∃ t', x' = .ok a t' ∧ Meets v p t t'

/-- If the computation succeeds where a token behind the cut is looked at, then it has taken that
token. -/
def Takes (p : Position) (m : ReadM α) : Prop :=
  Ensures (fun r => p.offset < r.cursor.position.offset ∧ ∃ l, r.peeked = some l) m
    (fun _ => Beyond p) fun _ _ => True

/-- The computation takes tokens, and does the same in both sources unless it passes the cut. -/
structure Severs (v : List Char) (p : Position) (m : ReadM α) : Prop where
  tokenWise : TokenWise m
  echoes : ∀ r r', Meets v p r r' → Echoes v p (m r) (m r')

theorem stable_beyond (p : Position) : Stable (Beyond p) := by
  have hnext : Keeps (Beyond p) next := by
    intro r hr
    have hpast := past_next r hr
    cases hn : next r with
    | ok l t =>
      rw [hn] at hpast
      exact hpast.2
    | error f t =>
      obtain ⟨hp, -, rfl⟩ := next_eq_error hn
      refine ⟨Nat.lt_of_lt_of_le hr.offset (r.cursor.reaches_behindNext true).offset_le, ?_⟩
      intro l hl
      rw [fetched] at hl
      simp [hp] at hl
  refine ⟨hnext, fun r hr => ?_⟩
  have hpast := past_next r hr
  have hkept := hnext r hr
  rw [run_peek]
  cases hn : next r with
  | ok l t =>
    rw [hn] at hpast
    exact ⟨hpast.2.offset, fun l' hl' => by cases hl'; exact hpast.1⟩
  | error f t => rwa [hn] at hkept

/-- A reader that has passed the cut has nothing to do with the shorter source. -/
theorem Echoes.of_beyond {m : ReadM α} (hm : TokenWise m) {r : Reader} (hr : Beyond p r)
    (x' : EStateM.Result Fault Reader α) : Echoes v p (m r) x' := fun _ _ h =>
  .inl ((hm.keeps (stable_beyond p)).ok hr h)

namespace Takes
variable {m : ReadM α}

theorem next_bind {f : Lexeme → ReadM β} (hf : ∀ l, TokenWise (f l)) : Takes p (next >>= f) := by
  rintro r ⟨hr, l, hl⟩
  have hbeyond : Beyond p { r with peeked := none } := ⟨hr, fun l h => by cases h⟩
  rw [run_bind_ok (next_of_peeked hl)]
  refine Ensures.mono ((hf l).keeps (stable_beyond p)) (fun _ h => h) (fun _ _ h => h)
    (fun _ _ _ => trivial) _ hbeyond

theorem bind {f : α → ReadM β} (hm : Takes p m) (hf : ∀ a, TokenWise (f a)) :
    Takes p (m >>= f) :=
  Ensures.bind hm fun a => ((hf a).keeps (stable_beyond p)).mono (fun _ h => h) (fun _ _ h => h)
    fun _ _ _ => trivial

end Takes

namespace Severs
variable {m : ReadM α} {f : α → ReadM β}

theorem pure (a : α) : Severs v p (pure a) where
  tokenWise := .pure a
  echoes r r' h := fun b t hb => by
    cases hb
    exact .inr ⟨r', rfl, h⟩

theorem throw (fault : Fault) : Severs v p (throw fault : ReadM α) where
  tokenWise := .throw fault
  echoes _ _ _ := fun _ _ h => by cases h

theorem bind (hm : Severs v p m) (hf : ∀ a, Severs v p (f a)) : Severs v p (m >>= f) where
  tokenWise := hm.tokenWise.bind fun a => (hf a).tokenWise
  echoes r r' h := by
    intro b t hb
    obtain ⟨a, u, hu, hb⟩ := bind_eq_ok hb
    rcases hm.echoes r r' h a u hu with hpast | ⟨u', hu', hmeets⟩
    · exact Echoes.of_beyond (hf a).tokenWise hpast _ b t hb
    · rw [run_bind_ok hu']
      exact (hf a).echoes u u' hmeets b t hb

/-- Both runs take the same passes, each of which makes the longer source's reader smaller. -/
theorem loop {step : β → ReadM (ForInStep β)} (hd : Descends Reader.size step)
    (h : ∀ b, Severs v p (step b)) (b : β) : Severs v p (loop Reader.size step b) where
  tokenWise := .loop (fun b => (h b).tokenWise) b
  echoes r r' hr := by
    induction hn : r.size using Nat.strong_induction_on generalizing r r' b with
    | h n ih =>
      intro c t hc
      rw [loop_eq hd] at hc ⊢
      obtain ⟨x, u, hu, hc⟩ := bind_eq_ok hc
      rcases (h b).echoes r r' hr x u hu with hpast | ⟨u', hu', hmeets⟩
      · cases x with
        | done b' =>
          cases hc
          exact .inl hpast
        | yield b' =>
          exact Echoes.of_beyond (.loop (fun b => (h b).tokenWise) b') hpast _ c t hc
      · rw [run_bind_ok hu']
        cases x with
        | done b' =>
          cases hc
          exact .inr ⟨u', rfl, hmeets⟩
        | yield b' => exact ih _ (hn ▸ hd _ _ _ _ hu) b' u u' hmeets rfl c t hc

/-- What ends with a token that it takes, and takes a token in any case, need not be looked
into. -/
theorem of_settles (hm : TokenWise m) (hs : Settles m) (ht : Takes p m) : Severs v p m where
  tokenWise := hm
  echoes := by
    rintro r r' (⟨⟨x, hx, hp, rfl⟩, -⟩ | ⟨l, hl⟩) a t ha
    · have hnone : t.peeked = none := hs _ _ _ ha
      have hreaches : r.cursor.Reaches t.cursor := Ensures.ok
        (hm.keeps (stable_of_reaches (P := r.cursor.Reaches) fun _ _ h hc => hc.trans h))
        (.refl _) ha
      have hsame := (hm.isLocal (.nil v)).same r (r.before x) ⟨x, hx, by rw [List.append_nil]⟩
      rw [ha] at hsame
      rcases hreaches.cut hx hp with ⟨hle, y, hy, hposition⟩ | ⟨-, hpast⟩
      · rcases hsame with hpast | hsame
        · exact absurd hpast (Nat.not_lt.mpr hle)
        · generalize m (r.before x) = x' at hsame ⊢
          cases hsame with
          | ok _ hagree =>
            obtain ⟨w, hw, rfl⟩ := hagree
            obtain rfl : w = y := List.append_cancel_right (hw.symm.trans hy)
            rw [List.append_nil]
            exact .inr ⟨_, rfl, .inl ⟨⟨w, hw, hposition, rfl⟩, fun l h => by simp [hnone] at h⟩⟩
      · exact .inl ⟨hpast, fun l h => by simp [hnone] at h⟩
    · exact .inl (Ensures.ok ht ⟨hl.offset, l, hl.kept⟩ ha)

/-- A token is looked at. It is taken, or makes no difference to the end of the source. -/
theorem peek_bind (hv : v ≠ []) {f : Lexeme → ReadM β} (hf : ∀ l, Severs v p (f l))
    (hend : ∀ l, Takes p (f l) ∨ f l = f (endLexeme p)) : Severs v p (peek >>= f) where
  tokenWise := TokenWise.peek.bind fun l => (hf l).tokenWise
  echoes := by
    have hhalted {l : Lexeme} {r r' : Reader} (h : Halted p l r r') :
        Echoes v p (f l r) (f (endLexeme p) r') := by
      intro a t ha
      rcases hend l with htakes | hsame
      · exact .inl (Ensures.ok htakes ⟨h.offset, l, h.kept⟩ ha)
      · exact hsame ▸ (hf l).echoes r r' (.inr ⟨l, h⟩) a t ha
    rintro r r' (⟨⟨x, hx, hp, rfl⟩, hoff⟩ | ⟨l, hl⟩)
    · rw [run_peek_bind, run_peek_bind]
      cases hl : r.peeked with
      | some l =>
        rw [next_of_peeked hl, next_of_peeked (r := r.before x) hl]
        exact (hf l).echoes _ _ (.inl ⟨⟨x, hx, hp, rfl⟩, fun l' h => by cases h; exact hoff l hl⟩)
      | none =>
        have hcursor : (r.before x).cursor = r.cursor.before x := rfl
        have hbehind : (r.cursor.before x).behindNext true = ((r.cursor.before x).next true).2 :=
          (Cursor.next_snd true _).symm
        rw [next_of_not_peeked hl, next_of_not_peeked (r := r.before x) hl, hcursor]
        rcases Cursor.next_severed hx hv hp with
          ⟨y, hy, hposition, hsame, hstart⟩ | ⟨hpast, hends⟩
        · -- The token stands before the cut.
          rw [hsame, Cursor.next_eq]
          cases (r.cursor.nextPiece true).token with
          | error cause => exact fun _ _ h => by cases h
          | ok token =>
            refine (hf _).echoes _ _ (.inl ⟨⟨y, hy, hposition, ?_⟩, fun l' h => ?_⟩)
            · simp only [fetched, before, hbehind, hsame]
            · cases h
              exact Nat.ne_of_lt hstart
        · rw [Cursor.next_eq]
          cases (r.cursor.nextPiece true).token with
          | error cause => exact fun _ _ h => by cases h
          | ok token =>
            rcases hends with hends | hstart
            · -- Only blanks stand before the cut.
              rw [hends]
              refine hhalted ⟨rfl, hpast, rfl, ?_⟩
              simp only [fetched, hcursor, hbehind, hends]
            · -- The token reaches over the cut.
              refine Echoes.of_beyond (hf _).tokenWise ⟨hpast, fun l' h => ?_⟩ _
              cases h
              exact Nat.ne_of_lt hstart
    · rw [run_peek_bind, run_peek_bind, next_of_peeked hl.kept, next_of_peeked hl.ended]
      exact hhalted ⟨rfl, hl.offset, rfl, hl.cursor⟩

/-- A symbol that is looked for is taken where it stands. -/
theorem atSymbol_bind (hv : v ≠ []) (s : Symbol) {f : Bool → ReadM β} (ht : Severs v p (f true))
    (htakes : Takes p (f true)) (hf : Severs v p (f false)) : Severs v p (atSymbol s >>= f) := by
  rw [atSymbol_bind_eq]
  refine peek_bind hv (fun l => ?_) fun l => ?_
  · cases l.token == .symbol s
    · exact hf
    · exact ht
  · cases hl : l.token == .symbol s with
    | true => exact .inl htakes
    | false => exact .inr rfl

theorem next : Severs v p Reader.next := by
  refine .of_settles .next .next ?_
  have hnext : Takes p (Reader.next >>= fun l => Pure.pure l) := .next_bind fun l => .pure l
  simpa using hnext

theorem discard (hm : Severs v p m) : Severs v p (discard m) := hm.bind fun _ => .pure _

theorem expectSymbol (s : Symbol) : Severs v p (expectSymbol s) := by
  refine Severs.next.bind fun l => ?_
  split
  · exact .pure _
  · exact .throw _

theorem variableName : Severs v p variableName := by
  refine .bind ?_ fun _ => .pure _
  refine Severs.next.bind fun l => ?_
  split
  · exact .pure _
  · exact .throw _

end Severs
end Reader

/-! ## Expressions -/

namespace Expression
open Reader
variable {v : List Char} {p : Position} {deeper : Descent}

theorem severs_stringValue (raw : String) (span : Span) : Severs v p (stringValue raw span) := by
  unfold stringValue
  split
  · exact .throw _
  · split
    · exact .pure _
    · exact .throw _
    · exact .throw _

/-- The readers of each level below do the same in both sources. -/
structure Descent.Severs (v : List Char) (p : Position) (deeper : Descent) : Prop where
  tokenWise : deeper.TokenWise
  bind : ∀ (span : Span) {β : Type} (f : Level → ReadM β), (∀ level : Level,
    Reader.Severs v p level.operand →
    (∀ stops minimum, Reader.Severs v p (level.operation stops minimum)) →
    Reader.Severs v p (f level)) → Reader.Severs v p (deeper span >>= f)

section Readers
variable (hd : deeper.Severs v p)
include hd

theorem severs_primaryFrom (l : Lexeme) : Severs v p (primaryFrom deeper l) := by
  unfold primaryFrom
  split
  · exact .pure _
  · exact severs_stringValue _ _
  · exact .pure _
  · exact hd.bind _ _ fun level _ ho => (ho _ _).bind fun _ =>
      (Severs.expectSymbol _).discard.bind fun _ => .pure _
  · exact .throw _

theorem severs_primary : Severs v p (primary deeper) := .bind .next (severs_primaryFrom hd)

theorem takes_arguments : Takes p (arguments deeper) := by
  refine .bind (.next_bind fun l => ?_) fun span => hd.tokenWise span _ fun _ h =>
    .items (h.operation _ _)
  split
  · exact .pure _
  · exact .throw _

/-- Whether the next token closes a list of items does make a difference at the end, but then
another one is taken to close it. -/
theorem severs_arguments : Severs v p (arguments deeper) :=
  .of_settles (tokenWise_arguments hd.tokenWise)
    (.bind fun _ => .bind fun _ => .bind fun _ => (Settles.expectSymbol _).map _)
    (takes_arguments hd)

theorem severs_nextSuffix (hv : v ≠ []) (e : Expression) : Severs v p (nextSuffix deeper e) := by
  refine .atSymbol_bind hv _ ?_ ?_ (.atSymbol_bind hv _ ?_ ?_ (.pure _))
  · exact Severs.next.discard.bind fun _ => Severs.variableName.bind fun _ => .pure _
  · exact .bind (.next_bind fun _ => .pure _) fun _ => TokenWise.variableName.bind fun _ => .pure _
  · exact (severs_arguments hd).bind fun _ => .pure _
  · exact (takes_arguments hd).bind fun _ => .pure _

theorem severs_term (hv : v ≠ []) : Severs v p (term deeper) :=
  (severs_primary hd).bind fun _ =>
    .loop (descends_nextSuffix hd.tokenWise) (severs_nextSuffix hd hv) _

theorem takes_term : Takes p (term deeper) :=
  .bind (.next_bind (tokenWise_primaryFrom hd.tokenWise)) fun _ =>
    .loop (tokenWise_nextSuffix hd.tokenWise) _

/-- An operand begins with a token that it takes. -/
theorem severs_operand (hv : v ≠ []) : Severs v p (operand deeper) := by
  refine .peek_bind hv (fun l => ?_) fun l => .inl ?_
  · split
    · exact severs_term hd hv
    · exact Severs.next.discard.bind fun _ => hd.bind _ _ fun level ho _ =>
        ho.bind fun _ => .pure _
  · split
    · exact takes_term hd
    · exact .bind (.next_bind fun _ => .pure _) fun _ => hd.tokenWise _ _ fun level h =>
        h.operand.bind fun _ => .pure _

/-- A token that joins two operands is taken, and all others end the operation like the end. -/
theorem severs_nextJoint (hv : v ≠ []) (stops : List String) (minimum : Nat) (left : Expression) :
    Severs v p (nextJoint deeper stops minimum left) := by
  refine .peek_bind hv (fun l => ?_) fun l => ?_
  · split
    · exact .pure _
    · exact Severs.next.discard.bind fun _ => (severs_term hd hv).bind fun _ => .pure _
    · exact Severs.next.discard.bind fun _ => hd.bind _ _ fun level _ ho =>
        (ho _ _).bind fun _ => .pure _
  · split
    · exact .inr rfl
    · exact .inl (.bind (.next_bind fun _ => .pure _) fun _ =>
        (tokenWise_term hd.tokenWise).bind fun _ => .pure _)
    · exact .inl (.bind (.next_bind fun _ => .pure _) fun _ => hd.tokenWise _ _ fun level h =>
        (h.operation _ _).bind fun _ => .pure _)

theorem severs_operation (hv : v ≠ []) (stops : List String) (minimum : Nat) :
    Severs v p (operation deeper stops minimum) :=
  (severs_operand hd hv).bind fun _ => .loop (descends_nextJoint hd.tokenWise stops minimum)
    (severs_nextJoint hd hv stops minimum) _

end Readers

theorem severs_descend (hv : v ≠ []) (n : Nat) : (descend n).Severs v p := by
  induction n with
  | zero => exact ⟨tokenWise_descend 0, fun _ _ _ _ => .throw _⟩
  | succ n ih =>
    refine ⟨tokenWise_descend _, fun span _ f hf => ?_⟩
    rw [descend_succ_bind]
    exact hf _ (severs_operand ih hv) (severs_operation ih hv)

/-- **An expression does not look behind the token that it leaves.** If it is read from a source and
leaves a token, it is read alike from the source before that token, and leaves the end. -/
theorem read_severed (hv : v ≠ []) {n : Nat} {stops : List String} {r r' t : Reader}
    {e : Expression} {l : Lexeme} (hr : Twin v p r r') (h : read n stops r = .ok e t)
    (hl : t.peeked = some l) (hp : l.span.start.offset = p.offset) :
    ∃ t', read n stops r' = .ok e t' ∧ t'.peeked = some (endLexeme p) := by
  have hsevers := severs_operation (severs_descend (p := p) hv n) hv stops 0
  rcases hsevers.echoes r r' (.inl hr) e t h with hbeyond | ⟨t', ht', htwin | ⟨l', hhalted⟩⟩
  · exact absurd hp (hbeyond.peeked l hl)
  · exact absurd hp (htwin.peeked l hl)
  · exact ⟨t', ht', hhalted.ended⟩

end Expression
end TemplateSyntax
