import TemplateSyntax.Proofs.Locality

/-!
# Reading a source that ends early

A source is read beside the same source cut off at some place. Up to the cut both are read alike. A
token that begins behind the cut is the end of the source in the shorter one; a token that begins
before the cut and ends behind it tells them apart, but no fault found later begins at the cut.
-/
namespace TemplateSyntax
open String (utf8Len)

/-! ## The next token at a cut -/

namespace Cursor
variable {c : Cursor} {x v : List Char} {p : Position}

theorem offset_skipBlanks (c : Cursor) :
    c.skipBlanks.position.offset = c.position.offset + utf8Len (c.rest.takeWhile Text.isBlank) :=
  Position.offset_advanceBy _ _

theorem offset_behindNext (quotes : Bool) (c : Cursor) :
    (c.behindNext quotes).position.offset =
      c.skipBlanks.position.offset + utf8Len (c.nextPiece quotes).taken :=
  Position.offset_advanceBy _ _

/-- Wherever a cursor comes to, it stands before the cut or behind it. -/
theorem Reaches.cut {d : Cursor} (h : c.Reaches d) (hc : c.rest = x ++ v)
    (hp : c.position.advanceBy x = p) :
    v.length ≤ d.rest.length ∧ (∃ y, d.rest = y ++ v ∧ d.position.advanceBy y = p) ∨
      d.rest.length < v.length ∧ p.offset < d.position.offset := by
  obtain ⟨taken, hrest, hposition⟩ := h
  rw [hc] at hrest
  rcases List.append_eq_append_iff.mp hrest with ⟨z, rfl, rfl⟩ | ⟨y, rfl, hy⟩
  · by_cases hz : z = []
    · subst hz
      refine .inl ⟨Nat.le_refl _, [], rfl, ?_⟩
      rw [hposition, List.append_nil, hp]
      rfl
    · right
      have hlen := List.length_pos_iff.mpr hz
      have hbytes : utf8Len z ≠ 0 := fun h => hz (String.utf8Len_eq_zero.mp h)
      rw [hposition, Position.advanceBy_append, hp, Position.offset_advanceBy, List.length_append]
      constructor <;> omega
  · refine .inl ⟨by simp [hy], y, hy, ?_⟩
    rw [hposition, ← Position.advanceBy_append, hp]

/-- A text of blanks holds no token. -/
theorem next_of_blank (quotes : Bool) (h : ∀ a ∈ c.rest, Text.isBlank a = true) :
    c.next quotes = (.ok ⟨.endOfSource, .empty (c.position.advanceBy c.rest)⟩,
      ⟨c.position.advanceBy c.rest, []⟩) := by
  have hskip : c.skipBlanks = ⟨c.position.advanceBy c.rest, []⟩ := by
    simp only [skipBlanks, past, List.takeWhile_eq_self_iff.mpr h, List.drop_length]
  have hpiece : c.nextPiece quotes = ⟨[], .ok .endOfSource⟩ := by
    rw [nextPiece, hskip]
    rfl
  have hbehind : c.behindNext quotes = ⟨c.position.advanceBy c.rest, []⟩ := by
    rw [behindNext, hpiece, hskip]
    rfl
  rw [next_eq, hpiece, nextSpan, hbehind, hskip]
  rfl

/-- The next token ends before the cut, or only blanks stand before the cut, or the token reaches
over it. -/
theorem next_cut (hc : c.rest = x ++ v) (hv : v ≠ []) (hp : c.position.advanceBy x = p) :
    (∃ y, (c.behindNext true).rest = y ++ v ∧ (c.behindNext true).position.advanceBy y = p ∧
      (c.before x).next true = ((c.next true).1, (c.behindNext true).before y) ∧
      (c.nextSpan true).start.offset < p.offset) ∨
    (c.before x).next true = (.ok ⟨.endOfSource, .empty p⟩, ⟨p, []⟩) ∨
    (c.nextSpan true).start.offset < p.offset ∧
      p.offset < (c.behindNext true).position.offset := by
  have hnext := c.reaches_behindNext true
  rcases hnext.cut hc hp with ⟨hle, y, hy, hposition⟩ | ⟨hlt, hposition⟩
  · left
    obtain ⟨z, hz, hsame⟩ := next_append hc (.nil v) hle
    obtain rfl : z = y := List.append_cancel_right (hz.symm.trans hy)
    rw [List.append_nil, List.append_nil] at hsame
    refine ⟨z, hz, hposition, hsame, ?_⟩
    -- The token takes a character, so it begins before the place where it ends.
    have hne : c.skipBlanks.rest ≠ [] := by
      intro hnil
      have := (c.skipBlanks_reaches_behindNext true).length_le
      rw [hnil, hz] at this
      simp [hv] at this
    have htaken : utf8Len (c.nextPiece true).taken ≠ 0 := fun h =>
      Piece.taken_first_ne_nil true hne (String.utf8Len_eq_zero.mp h)
    have hend := congrArg Position.offset hposition
    rw [Position.offset_advanceBy, offset_behindNext] at hend
    change c.skipBlanks.position.offset < _
    omega
  · right
    by_cases hblank : ∀ a ∈ x, Text.isBlank a = true
    · left
      rw [next_of_blank (c := c.before x) true hblank]
      simp only [before_position, before_rest, hp]
    · right
      refine ⟨?_, hposition⟩
      change c.skipBlanks.position.offset < _
      have hdrop : x.dropWhile Text.isBlank ≠ [] := fun h => hblank (List.dropWhile_eq_nil_iff.mp h)
      have hbytes : utf8Len (x.dropWhile Text.isBlank) ≠ 0 := fun h =>
        hdrop (String.utf8Len_eq_zero.mp h)
      have hrun : c.rest.takeWhile Text.isBlank = x.takeWhile Text.isBlank := by
        rw [hc, List.takeWhile_append, if_neg]
        intro hlen
        have hwhole := List.takeWhile_append_dropWhile (p := Text.isBlank) (l := x)
        have := congrArg List.length hwhole
        rw [List.length_append, hlen] at this
        exact hdrop (List.length_eq_zero_iff.mp (by omega))
      have hlen : utf8Len x = utf8Len (x.takeWhile Text.isBlank) +
          utf8Len (x.dropWhile Text.isBlank) := by
        rw [← String.utf8Len_append, List.takeWhile_append_dropWhile]
      rw [offset_skipBlanks, hrun, ← hp, Position.offset_advanceBy]
      omega

end Cursor

/-! ## Runs beside a cut -/

/-- The span does not begin at the place. -/
def Span.Off (p : Position) (s : Span) : Prop := s.start.offset ≠ p.offset

/-- The fault does not begin at the place, or no text is at fault. -/
def Fault.Elsewhere (p : Position) (f : Fault) : Prop := f.span.Off p ∨ f.span.start = f.span.stop

/-- The fault is that the source ends at the place. -/
def Fault.EndsAt (p : Position) (f : Fault) : Prop :=
  ∃ wanted, f = ⟨.unexpected wanted .endOfSource, .empty p⟩

/-- How states stand to a cut. -/
structure CutView (σ : Type) where
  place : Position
  /-- Both states stand at the same place before the cut, the second one in the shorter source. -/
  twin : σ → σ → Prop
  /-- The shorter source has ended. -/
  ended : σ → Prop
  /-- The cut has been passed. -/
  past : σ → Prop

section Rules
variable {σ α β : Type} {k : CutView σ} {V H : α → Prop} {W K : β → Prop}

/-- What holds of the value of a pass, whether it ends the loop or not. -/
def OnStep (V : α → Prop) : ForInStep α → Prop
  | .done a | .yield a => V a

/-- How a run and the run on the shorter source may end. -/
inductive Outcome (k : CutView σ) (V H : α → Prop) :
    EStateM.Result Fault σ α → EStateM.Result Fault σ α → Prop
  /-- Both runs give the same value before the cut. -/
  | same {a : α} {s s' : σ} (ha : V a) (h : k.twin s s') : Outcome k V H (.ok a s) (.ok a s')
  /-- The shorter source has ended. -/
  | ended {x x' : EStateM.Result Fault σ α}
      (h : Ends (fun a s => H a ∧ k.ended s) (fun f _ => f.EndsAt k.place) x') : Outcome k V H x x'
  /-- The run has passed the cut, or has failed elsewhere. -/
  | missed {x x' : EStateM.Result Fault σ α}
      (h : Ends (fun a s => V a ∧ k.past s) (fun f _ => f.Elsewhere k.place) x) : Outcome k V H x x'

/-- Where the shorter source has ended, the computation stays at the end with a value in `H`, or
fails because of the end. -/
def Quiet (k : CutView σ) (H : α → Prop) (m : EStateM Fault σ α) : Prop :=
  Ensures k.ended m (fun a s => H a ∧ k.ended s) fun f _ => f.EndsAt k.place

/-- Before the cut a computation does the same in both sources with a value in `V`, unless the
shorter one ends or the cut is passed; behind the cut it has values in `V` and faults elsewhere. -/
structure Forward (k : CutView σ) (V H : α → Prop) (m : EStateM Fault σ α) : Prop where
  twin (s s' : σ) : k.twin s s' → Outcome k V H (m s) (m s')
  past : Ensures k.past m (fun a s => V a ∧ k.past s) fun f _ => f.Elsewhere k.place

/-- A computation that goes forward and is quiet at the end. -/
structure Bounded (k : CutView σ) (V H : α → Prop) (m : EStateM Fault σ α) : Prop
    extends Forward k V H m where
  quiet : Quiet k H m

theorem Quiet.bind {m : EStateM Fault σ α} {f : α → EStateM Fault σ β} (hm : Quiet k H m)
    (hf : ∀ a, H a → Quiet k K (f a)) : Quiet k K (m >>= f) :=
  Ensures.bind hm fun a => Ensures.given (hf a)

namespace Forward

theorem pure {a : α} (ha : V a) : Forward k V H (pure a : EStateM Fault σ α) where
  twin _ _ h := .same ha h
  past := Ensures.pure fun _ h => ⟨ha, h⟩

theorem throw {f : Fault} (hf : f.Elsewhere k.place) :
    Forward k V H (throw f : EStateM Fault σ α) where
  twin _ _ _ := .missed hf
  past := Ensures.throw fun _ _ => hf

theorem bind {m : EStateM Fault σ α} {f : α → EStateM Fault σ β} (hm : Forward k V H m)
    (hf : ∀ a, V a → Forward k W K (f a)) (hq : ∀ a, H a → Quiet k K (f a)) :
    Forward k W K (m >>= f) where
  twin s s' h := by
    have hr := hm.twin s s' h
    rw [run_bind, run_bind]
    generalize m s = x, m s' = x' at hr
    cases hr with
    | same ha h => exact (hf _ ha).twin _ _ h
    | ended h =>
      cases x' with
      | ok a t => exact .ended (hq a h.1 t h.2)
      | error f t => exact .ended h
    | missed h =>
      cases x with
      | ok a t => exact .missed ((hf a h.1).past t h.2)
      | error f t => exact .missed h
  past := Ensures.bind hm.past fun a => Ensures.given fun ha => (hf a ha).past

end Forward

namespace Bounded

theorem pure {a : α} (ha : V a) (hH : H a) : Bounded k V H (pure a : EStateM Fault σ α) where
  toForward := .pure ha
  quiet := Ensures.pure fun _ h => ⟨hH, h⟩

theorem bind {m : EStateM Fault σ α} {f : α → EStateM Fault σ β} (hm : Bounded k V H m)
    (hf : ∀ a, V a → Forward k W K (f a)) (hq : ∀ a, H a → Quiet k K (f a)) :
    Bounded k W K (m >>= f) where
  toForward := hm.toForward.bind hf hq
  quiet := hm.quiet.bind hq

/-- Behind a computation that gives no value at the end, the end need not be thought of. -/
theorem strict {m : EStateM Fault σ α} {f : α → EStateM Fault σ β}
    (hm : Bounded k V (fun _ => False) m) (hf : ∀ a, V a → Forward k W K (f a)) :
    Bounded k W K (m >>= f) :=
  hm.bind hf fun _ h => h.elim

/-- The rule for values that are known to be alike before and at the end. -/
theorem seq {m : EStateM Fault σ α} {f : α → EStateM Fault σ β} (hm : Bounded k V V m)
    (hf : ∀ a, V a → Bounded k W K (f a)) : Bounded k W K (m >>= f) :=
  hm.bind (fun a ha => (hf a ha).toForward) fun a ha => (hf a ha).quiet

theorem discard {m : EStateM Fault σ α} (hm : Bounded k V H m) :
    Bounded k (fun _ => True) (fun _ => True) (Functor.discard m : EStateM Fault σ PUnit) :=
  hm.bind (fun _ _ => .pure trivial) fun _ _ => Ensures.pure fun _ h => ⟨trivial, h⟩

theorem discard_strict {m : EStateM Fault σ α} (hm : Bounded k V (fun _ => False) m) :
    Bounded k (fun _ => True) (fun _ => False) (Functor.discard m : EStateM Fault σ PUnit) :=
  hm.strict fun _ _ => .pure trivial

/-- The rule for loops: the value is kept in `V` by every pass. -/
theorem loop {size : σ → Nat} {step : β → EStateM Fault σ (ForInStep β)}
    (hd : Descends size step)
    (h : ∀ b, W b → Bounded k (OnStep W) (OnStep W) (step b)) {b : β} (hb : W b) :
    Bounded k W W (loop size step b) := by
  have hquiet (b : β) (hb : W b) : Quiet k W (TemplateSyntax.loop size step b) := by
    refine (Ensures.loop_weak (I := fun b s => W b ∧ k.ended s) (fun b => ?_) b).before
      fun s hs => ⟨hb, hs⟩
    refine Ensures.given fun hb => (h b hb).quiet.after fun r s hr => ?_
    cases r <;> exact hr
  have hpast (b : β) (hb : W b) : Ensures k.past (TemplateSyntax.loop size step b)
      (fun b s => W b ∧ k.past s) fun f _ => f.Elsewhere k.place := by
    refine (Ensures.loop_weak (I := fun b s => W b ∧ k.past s) (fun b => ?_) b).before
      fun s hs => ⟨hb, hs⟩
    refine Ensures.given fun hb => (h b hb).past.after fun r s hr => ?_
    cases r <;> exact hr
  refine ⟨⟨fun s s' hs => ?_, hpast b hb⟩, hquiet b hb⟩
  -- Both runs take the same passes; each one makes the longer source's state smaller.
  induction hn : size s using Nat.strong_induction_on generalizing s s' b with
  | h n ih =>
    have hr := (h b hb).twin s s' hs
    have hlt := hd b s
    rw [loop_eq hd, run_bind, run_bind]
    generalize step b s = x, step b s' = x' at hr hlt
    cases hr with
    | @same r t t' ha ht =>
      cases r with
      | done b' => exact .same ha ht
      | yield b' => exact ih (size t) (hn ▸ hlt b' t rfl) ha t t' ht rfl
    | ended he =>
      cases x' with
      | error f t => exact .ended he
      | ok r t =>
        cases r with
        | done b' => exact .ended he
        | yield b' => exact .ended (hquiet b' he.1 t he.2)
    | missed hm =>
      cases x with
      | error f t => exact .missed hm
      | ok r t =>
        cases r with
        | done b' => exact .missed hm
        | yield b' => exact .missed (hpast b' hm.1 t hm.2)

end Bounded
end Rules

/-! ## Tokens beside a cut -/

namespace Reader
variable {v : List Char} {p : Position} {α : Type} {V H : α → Prop}

/-- The end of the source as a token. -/
def endLexeme (p : Position) : Lexeme := ⟨.endOfSource, .empty p⟩

/-- The readers stand at the same place before the cut, the second one in the shorter source. -/
structure Twin (v : List Char) (p : Position) (r r' : Reader) : Prop where
  cut : ∃ x, r.cursor.rest = x ++ v ∧ r.cursor.position.advanceBy x = p ∧ r' = r.before x
  peeked : ∀ l, r.peeked = some l → l.span.Off p

/-- The reader has come to the end of the shorter source. -/
structure AtEnd (p : Position) (r : Reader) : Prop where
  cursor : r.cursor = ⟨p, []⟩
  peeked : ∀ l, r.peeked = some l → l = endLexeme p

/-- The reader has passed the cut, and does not look at a token that begins there. -/
structure Beyond (p : Position) (r : Reader) : Prop where
  offset : p.offset < r.cursor.position.offset
  peeked : ∀ l, r.peeked = some l → l.span.Off p

/-- How readers stand to a cut. -/
def cutView (v : List Char) (p : Position) : CutView Reader where
  place := p
  twin := Twin v p
  ended := AtEnd p
  past := Beyond p

theorem quiet_next : Quiet (cutView v p) (· = endLexeme p) next := by
  intro r hr
  cases hp : r.peeked with
  | some l =>
    rw [next_of_peeked hp]
    exact ⟨hr.peeked l hp, hr.cursor, fun l h => by cases h⟩
  | none =>
    have hnext : r.cursor.next true = (.ok (endLexeme p), ⟨p, []⟩) := by
      rw [hr.cursor, Cursor.next_of_blank true (by simp)]
      rfl
    have hbehind : r.fetched.cursor = ⟨p, []⟩ := by
      change r.cursor.behindNext true = _
      rw [← Cursor.next_snd, hnext]
    rw [next_of_not_peeked hp, hnext]
    exact ⟨rfl, hbehind, fun l h => by rw [fetched] at h; simp [hp] at h⟩

/-- Behind the cut all tokens begin behind it. -/
theorem past_next : Ensures (Beyond p) next (fun l r => l.span.Off p ∧ Beyond p r)
    fun f _ => f.Elsewhere p := by
  intro r hr
  have hblanks := Cursor.offset_skipBlanks r.cursor
  have hend := Cursor.offset_behindNext true r.cursor
  have hoffset := hr.offset
  have hspan : (r.cursor.nextSpan true).Off p := by
    change r.cursor.skipBlanks.position.offset ≠ _
    omega
  cases h : next r with
  | ok l t =>
    rcases next_eq_ok h with ⟨hl, rfl⟩ | ⟨hl, hc, rfl⟩
    · exact ⟨hr.peeked l hl, hr.offset, fun l h => by cases h⟩
    · obtain ⟨-, hs, -⟩ := Cursor.next_eq_ok hc
      refine ⟨hs ▸ hspan, ?_, fun l h => by rw [fetched] at h; simp [hl] at h⟩
      change p.offset < (r.cursor.behindNext true).position.offset
      omega
  | error f t =>
    obtain ⟨-, hc, -⟩ := next_eq_error h
    obtain ⟨-, hs, -⟩ := Cursor.next_eq_error hc
    exact .inl (hs ▸ hspan)

theorem bounded_next (hv : v ≠ []) :
    Bounded (cutView v p) (fun l => l.span.Off p) (· = endLexeme p) next := by
  refine ⟨⟨?_, past_next⟩, quiet_next⟩
  rintro r _ ⟨⟨x, hx, hp, rfl⟩, hpeeked⟩
  cases hl : r.peeked with
  | some l =>
    rw [next_of_peeked hl, next_of_peeked (r := r.before x) hl]
    exact .same (hpeeked l hl) ⟨⟨x, hx, hp, rfl⟩, fun l h => by cases h⟩
  | none =>
    have hnone : ∀ l, r.fetched.peeked = some l → l.span.Off p := fun l h => by
      rw [fetched] at h
      simp [hl] at h
    have hcursor : (r.before x).cursor = r.cursor.before x := rfl
    rw [next_of_not_peeked hl, next_of_not_peeked (r := r.before x) hl, hcursor]
    rcases Cursor.next_cut hx hv hp with
      ⟨y, hy, hposition, hsame, hstart⟩ | hended | ⟨hstart, hpast⟩
    · -- The token stands before the cut.
      have htwin : Twin v p r.fetched (r.before x).fetched := by
        refine ⟨⟨y, hy, hposition, ?_⟩, hnone⟩
        have hbehind : (r.cursor.before x).behindNext true =
            (r.cursor.behindNext true).before y := by
          rw [← Cursor.next_snd, hsame]
        simp only [fetched, before, hbehind]
      have hoff : (r.cursor.nextSpan true).Off p := Nat.ne_of_lt hstart
      rw [hsame, Cursor.next_eq]
      cases (r.cursor.nextPiece true).token with
      | ok token => exact .same hoff htwin
      | error cause => exact .missed (.inl hoff)
    · -- Only blanks stand before the cut.
      refine .ended ?_
      rw [hended]
      refine ⟨rfl, ?_, fun l h => by rw [fetched] at h; simp [before, hl] at h⟩
      change (r.cursor.before x).behindNext true = _
      rw [← Cursor.next_snd, hended]
    · -- The token reaches over the cut.
      have hoff : (r.cursor.nextSpan true).Off p := Nat.ne_of_lt hstart
      rw [Cursor.next_eq]
      cases (r.cursor.nextPiece true).token with
      | ok token => exact .missed ⟨hoff, hpast, hnone⟩
      | error cause => exact .missed (.inl hoff)

/-- A computation that goes forward where the token is looked at. -/
structure ForwardAt (v : List Char) (p : Position) (l : Lexeme) (V H : α → Prop) (m : ReadM α) :
    Prop where
  twin (r r' : Reader) : Twin v p r r' → r.peeked = some l →
    Outcome (cutView v p) V H (m r) (m r')
  past : Ensures (fun r => Beyond p r ∧ r.peeked = some l) m (fun a r => V a ∧ Beyond p r)
    fun f _ => f.Elsewhere p

theorem ForwardAt.of_forward {l : Lexeme} {m : ReadM α} (h : Forward (cutView v p) V H m) :
    ForwardAt v p l V H m where
  twin r r' ht _ := h.twin r r' ht
  past := Ensures.before h.past fun _ h => h.1

/-- A token that was looked at is taken in any case. -/
theorem ForwardAt.take {l : Lexeme} {m : ReadM α} (h : Forward (cutView v p) V H m) :
    ForwardAt v p l V H (discard next >>= fun _ => m) := by
  have htake {r : Reader} (hl : r.peeked = some l) :
      (discard next >>= fun _ => m) r = m { r with peeked := none } := by
    have hnext : (discard next : ReadM PUnit) r = .ok () { r with peeked := none } := by
      change (next >>= fun _ => pure ()) r = _
      rw [run_bind_ok (next_of_peeked hl)]
      rfl
    exact run_bind_ok hnext
  constructor
  · rintro r _ ⟨⟨x, hx, hp, rfl⟩, -⟩ hl
    rw [htake hl, htake (r := r.before x) hl]
    exact h.twin _ _ ⟨⟨x, hx, hp, rfl⟩, fun l h => by cases h⟩
  · rintro r ⟨hr, hl⟩
    rw [htake hl]
    exact h.past _ ⟨hr.offset, fun l h => by cases h⟩

theorem run_peek_bind (f : Lexeme → ReadM α) (r : Reader) :
    (peek >>= f) r = match next r with
      | .ok l t => f l { t with peeked := some l }
      | .error e t => .error e t := by
  rw [run_bind, run_peek]
  cases next r <;> rfl

/-- Looking at a token, and going on with it still to be taken. -/
theorem peek_bind (hv : v ≠ []) {f : Lexeme → ReadM α}
    (hf : ∀ l : Lexeme, l.span.Off p → ForwardAt v p l V H (f l))
    (hq : Quiet (cutView v p) H (f (endLexeme p))) :
    Bounded (cutView v p) V H (peek >>= f) := by
  have hnext := bounded_next (p := p) hv
  refine ⟨⟨fun r r' h => ?_, fun r h => ?_⟩, fun r h => ?_⟩
  · have hr := hnext.twin r r' h
    rw [run_peek_bind, run_peek_bind]
    generalize next r = x, next r' = x' at hr
    cases hr with
    | @same l t t' hl ht =>
      obtain ⟨⟨y, hy, hp, rfl⟩, -⟩ := ht
      exact (hf l hl).twin _ _ ⟨⟨y, hy, hp, rfl⟩, fun l' h => by cases h; exact hl⟩ rfl
    | ended he =>
      cases x' with
      | error f t => exact .ended he
      | ok l t =>
        obtain ⟨rfl, ht⟩ := he
        exact .ended (hq _ ⟨ht.cursor, fun l' h => by cases h; rfl⟩)
    | missed hm =>
      cases x with
      | error f t => exact .missed hm
      | ok l t =>
        obtain ⟨hl, ht⟩ := hm
        exact .missed ((hf l hl).past _ ⟨⟨ht.offset, fun l' h => by cases h; exact hl⟩, rfl⟩)
  · have hr := hnext.past r h
    rw [run_peek_bind]
    cases hx : next r with
    | error f t => rwa [hx] at hr
    | ok l t =>
      rw [hx] at hr
      obtain ⟨hl, ht⟩ := hr
      exact (hf l hl).past _ ⟨⟨ht.offset, fun l' h => by cases h; exact hl⟩, rfl⟩
  · have hr := hnext.quiet r h
    rw [run_peek_bind]
    cases hx : next r with
    | error f t => rwa [hx] at hr
    | ok l t =>
      rw [hx] at hr
      obtain ⟨rfl, ht⟩ := hr
      exact hq _ ⟨ht.cursor, fun l' h => by cases h; rfl⟩

end Reader
end TemplateSyntax
