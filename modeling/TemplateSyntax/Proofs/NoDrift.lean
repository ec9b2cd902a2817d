import TemplateSyntax.Proofs.PlacedReading
import TemplateSyntax.Proofs.Session

/-!
# Positions do not drift

Whatever is done with a cursor or in a session, all positions that come up are positions of the
text: those in answers, in faults, and in what the session has kept. So offset, line and column of
each can be told from the text before it.
-/
namespace TemplateSyntax

instance : HasPositions Diagnostic := ⟨fun P d => Everywhere P d.span⟩

instance : HasPositions Session := ⟨fun P s => Everywhere P s.draft⟩

instance : HasPositions Session.Answer where
  Everywhere P
    | .processed result => Everywhere P result
    | .generated result => Everywhere P result
    | .read result => Everywhere P result
    | .taken result => Everywhere P result
    | .renamed => True

variable {text : String}

/-! ## Cursors -/

namespace Cursor
variable {c : Cursor}

theorem step_isOf (hc : (ofText text).Reaches c) (s : Step) :
    Everywhere (Position.IsOf text) (c.step s).1 ∧ (ofText text).Reaches (c.step s).2 := by
  cases s with
  | next quotes =>
    have hbehind := hc.trans (c.reaches_behindNext quotes)
    have hspan := everywhere_nextSpan hc quotes
    simp only [step, next_eq]
    split
    · exact ⟨hspan, hbehind⟩
    · exact ⟨hspan, hbehind⟩
  | text =>
    have hbehind := hc.trans c.reaches_behindText
    exact ⟨⟨hc.isOf, hbehind.isOf⟩, hbehind⟩

theorem steps_isOf (hc : (ofText text).Reaches c) (ss : List Step) :
    Everywhere (Position.IsOf text) (c.steps ss) := by
  induction ss generalizing c with
  | nil => exact ⟨everywhere_nil, hc.isOf⟩
  | cons s ss ih =>
    obtain ⟨hfirst, hreaches⟩ := step_isOf hc s
    obtain ⟨hothers, hlast⟩ := ih hreaches
    exact ⟨everywhere_cons hfirst hothers, hlast⟩

end Cursor

/-! ## Sessions -/

namespace Session
variable {α : Type} [HasPositions α] {s t : Session}

/-- All that a session holds is placed in the text. -/
def Placed (text : String) (s : Session) : Prop := s.draft.Placed text

theorem placed_start (text : String) (name : Option String) : (start text name).Placed text := by
  have hc : (Cursor.ofText text).Reaches (Cursor.ofText text) := .refl _
  refine ⟨hc, ⟨⟨hc.isOf, everywhere_none⟩, Scope.everywhere_opened hc.isOf, everywhere_nil, ?_, ?_,
    everywhere_none, everywhere_nil⟩⟩
  · intro e he
    cases he
  · intro e he
    cases he

theorem everywhere_report (f : Fault) (h : Everywhere (Position.IsOf text) f) :
    Everywhere (Position.IsOf text) (s.report f) := everywhere_some h

theorem run_placed (hs : s.Placed text) {m : DraftM α} (hm : Draft.Places text m) :
    Everywhere (Position.IsOf text) (s.run m).1 ∧ (s.run m).2.Placed text := by
  have h := hm s.draft hs
  cases hr : m s.draft with
  | ok a d =>
    rw [hr] at h
    rw [run_of_ok hr]
    exact h
  | error f d =>
    rw [hr] at h
    rw [run_of_error hr]
    exact ⟨everywhere_report f h.1, h.2⟩

theorem process_placed (hs : s.Placed text) :
    Everywhere (Position.IsOf text) s.process.1 ∧ s.process.2.Placed text := by
  have h := Draft.places_readAll s.draft hs
  cases hr : Draft.readAll s.draft with
  | ok u d =>
    rw [hr] at h
    rw [process_of_ok hr]
    exact h
  | error f d =>
    rw [hr] at h
    rw [process_of_error hr]
    obtain ⟨hf, hc, hd⟩ := h
    exact ⟨everywhere_report f hf, hc, { hd with reader := ⟨hd.reader.1, everywhere_none⟩ }⟩

theorem generate_placed (hs : s.Placed text) :
    Everywhere (Position.IsOf text) s.generate.1 ∧ s.generate.2.Placed text := by
  obtain ⟨hanswer, ht⟩ := process_placed hs
  unfold generate
  split
  · next d t hp =>
    rw [hp] at hanswer ht
    exact ⟨hanswer, ht⟩
  · next t hp =>
    rw [hp] at ht
    have hlast : t.cursor.position.IsOf text := ht.1.isOf
    have hbody := Scope.everywhere_closed ht.2.current hlast
    dsimp only
    split
    · refine ⟨⟨ht.2.parent, ht.2.blocks, ht.2.macros, hbody, hbody.2.2⟩, ht.1, { ht.2 with
        current := Scope.everywhere_opened hlast
        macros := ?_
        blocks := ?_
        parent := everywhere_none }⟩
      · intro e he
        cases he
      · intro e he
        cases he
    · exact ⟨everywhere_report _ (everywhere_empty hlast), ht⟩

theorem call_placed (hs : s.Placed text) (c : Call) :
    Everywhere (Position.IsOf text) (s.call c).1 ∧ (s.call c).2.Placed text := by
  cases c with
  | process => exact process_placed hs
  | generate => exact generate_placed hs
  | expression stops => exact run_placed hs (Draft.places_lift (Expression.places_read _ _))
  | next => exact run_placed hs (Draft.places_lift Reader.places_next)
  | withName name => exact ⟨trivial, hs⟩

/-- Calls keep what they give and what they leave in the text. -/
theorem Reaches.placed {answers : List Answer} (h : s.Reaches answers t) (hs : s.Placed text) :
    Everywhere (Position.IsOf text) answers ∧ t.Placed text := by
  induction h with
  | refl => exact ⟨everywhere_nil, hs⟩
  | call _ c _ ih =>
    obtain ⟨hanswers, ht⟩ := ih
    obtain ⟨hanswer, hnext⟩ := call_placed ht c
    exact ⟨everywhere_append hanswers (everywhere_singleton hanswer), hnext⟩

end Session

/-! ## Every position -/

/-- Whatever steps a cursor takes and whatever calls a session makes, every position that comes up
is the one reached by advancing over the text before it, and so its offset cuts the text between
characters, its line counts the line feeds before it, and its column the characters since the last
of them. -/
theorem everywhere_isOf (text : String) :
    (∀ steps, Everywhere (Position.IsOf text) ((Cursor.ofText text).steps steps)) ∧
    (∀ name answers s, (Session.start text name).Reaches answers s →
      Everywhere (Position.IsOf text) answers ∧ Everywhere (Position.IsOf text) s) ∧
    ∀ p : Position, p.IsOf text →
      ∃ pre rest, text.toList = pre ++ rest ∧ p = Position.start.advanceBy pre ∧
        p.offset = String.utf8Len pre ∧ p.offset ≤ text.utf8ByteSize ∧
        p.line = 1 + pre.count '\n' ∧ p.column = (Position.lastLine pre).length := by
  refine ⟨Cursor.steps_isOf (.refl _), ?_, ?_⟩
  · intro name answers s h
    obtain ⟨hanswers, hs⟩ := h.placed (Session.placed_start text name)
    exact ⟨hanswers, hs.2⟩
  · intro p hp
    exact hp.counts

/-- A call that fails on the second line, and one that reads on behind the fault. -/
theorem everywhere_isOf_two_calls :
    ∃ answers s, (Session.start "ä\n\x7b\x7b b c \x7d\x7d").Reaches answers s ∧
      answers.length = 2 ∧ s.cursor.position = ⟨12, 2, 9⟩ ∧
      Everywhere (Position.IsOf "ä\n\x7b\x7b b c \x7d\x7d") answers ∧
      Everywhere (Position.IsOf "ä\n\x7b\x7b b c \x7d\x7d") s := by
  have hreach := (Session.Reaches.refl (s := Session.start "ä\n\x7b\x7b b c \x7d\x7d")).call
    .process rfl |>.call .next trivial
  exact ⟨_, _, hreach, rfl, by decide +kernel, (everywhere_isOf _).2.1 _ _ _ hreach⟩

end TemplateSyntax
