import TemplateSyntax.Proofs.OpenBodies

/-!
# Reading on behind a fault

A session goes on behind a fault with what the fault has left of the source. Bodies that were open
then are never closed again, so no template comes of the session; but if only the body of the
template itself was open, nothing in the draft tells that reading has failed, and the rest of the
source can be skipped token by token until a template is taken out.
-/
namespace TemplateSyntax

namespace Cursor

/-- Unless nothing is left, the next token and the blanks before it take a character. -/
theorem length_behindNext_lt_of_rest {c : Cursor} {quotes : Bool} (h : c.rest ≠ []) :
    (c.behindNext quotes).rest.length < c.rest.length := by
  have hblanks := c.reaches_skipBlanks.length_le
  by_cases hend : (c.nextPiece quotes).token = .ok .endOfSource
  · have hskip := nextPiece_eq_endOfSource_iff.mp hend
    have hrest := (c.skipBlanks_reaches_behindNext quotes).rest_eq_nil hskip
    rw [hrest]
    exact List.length_pos_iff.mpr h
  · exact (length_behindNext_lt hend).trans_le hblanks

end Cursor

/-- At the end of the source there is nothing more to read. -/
theorem Draft.readAll_of_end {d : Draft} (hp : d.reader.peeked = none)
    (h : d.reader.cursor.rest = []) : readAll d = .ok () d := by
  have hrun : textRun d.reader.cursor.rest = [] := by rw [h]; rfl
  have htext : d.reader.cursor.behindText = d.reader.cursor := Cursor.behindText_of_textRun hrun
  have hopening : opening d = .ok none d := by
    have hend := opening_of_end (s := d) ⟨hp, rfl⟩ (by rw [htext, h])
    rwa [behindText_of_textRun hrun] at hend
  have hpiece : piece depthLimit (body depthLimit) [] d = .ok (.done none) d :=
    run_bind_ok hopening
  have hcontent : content depthLimit (body depthLimit) [] d = .ok none d := by
    rw [content, loop_eq (descends_piece (pieceWise_body _) []), run_bind_ok hpiece]
    rfl
  exact run_bind_ok hcontent

namespace Session
variable {s t : Session}

/-- Where no token is kept back, the next one is read from the cursor, with success or not, and all
else stays as it is. -/
theorem next_snd (h : s.draft.reader.peeked = none) :
    s.next.2 = { s with draft := { s.draft with reader := s.draft.reader.fetched } } := by
  unfold next run
  rw [run_lift, Reader.next_of_not_peeked h]
  cases (s.draft.reader.cursor.next true).1 <;> rfl

/-- Tokens can be taken until nothing is left, and the bodies stay as they are. -/
theorem exists_reaches_end (h : s.draft.reader.peeked = none) :
    ∃ answers t, s.Reaches answers t ∧ t.draft.reader.peeked = none ∧ t.cursor.rest = [] ∧
      t.stack = s.stack := by
  suffices go : ∀ n, ∃ answers t, s.Reaches answers t ∧ t.draft.reader.peeked = none ∧
      t.cursor.rest.length ≤ s.cursor.rest.length - n ∧ t.stack = s.stack by
    obtain ⟨answers, t, hreach, hp, hlen, hstack⟩ := go s.cursor.rest.length
    rw [Nat.sub_self, Nat.le_zero, List.length_eq_zero_iff] at hlen
    exact ⟨answers, t, hreach, hp, hlen, hstack⟩
  intro n
  induction n with
  | zero => exact ⟨[], s, .refl, h, Nat.le_refl _, rfl⟩
  | succ n ih =>
    obtain ⟨answers, t, hreach, hp, hlen, hstack⟩ := ih
    by_cases hrest : t.cursor.rest = []
    · exact ⟨answers, t, hreach, hp, by simp [hrest], hstack⟩
    · have hnext : (t.call .next).2 =
          { t with draft := { t.draft with reader := t.draft.reader.fetched } } := next_snd hp
      have hlt : (t.cursor.behindNext true).rest.length < t.cursor.rest.length :=
        Cursor.length_behindNext_lt_of_rest hrest
      refine ⟨_, _, hreach.call .next trivial, ?_⟩
      rw [hnext]
      refine ⟨hp, ?_, hstack⟩
      change (t.cursor.behindNext true).rest.length ≤ _
      omega

/-- At the end of the source a template is taken out if no body is open in it. -/
theorem generate_of_end (hp : s.draft.reader.peeked = none) (hrest : s.cursor.rest = [])
    (henclosing : s.draft.enclosing = []) : s.generate.1 = .ok s.draft.template := by
  have hprocess : s.process = (.ok (), s) := process_of_ok (Draft.readAll_of_end hp hrest)
  unfold generate
  rw [hprocess]
  dsimp only
  rw [henclosing]
  rfl

theorem stack_length_eq_one_iff : s.stack.length = 1 ↔ s.draft.enclosing = [] := by
  simp [stack, Draft.stack]

/-- A call for all of the source that fails keeps no token back, or some body was open before. -/
theorem peeked_of_failed {c : Call} (hc : c = .process ∨ c = .generate)
    (h : (s.call c).1.isOk = false) (hstack : (s.call c).2.stack.length = 1) :
    (s.call c).2.draft.reader.peeked = none := by
  have released {e : Diagnostic} {t : Session} (hprocess : s.process = (.error e, t)) :
      t.draft.reader.peeked = none := by
    obtain ⟨f, d, -, -, rfl⟩ := process_eq_error hprocess
    rfl
  rcases hc with rfl | rfl
  · cases hprocess : s.process with
    | mk result t =>
      simp only [call, Answer.isOk, hprocess] at h ⊢
      cases result with
      | ok u => cases h
      | error e => exact released hprocess
  · cases hprocess : s.process with
    | mk result t =>
      cases result with
      | error e =>
        have hgenerate : s.generate = (.error e, t) := by rw [generate, hprocess]
        simp only [call, hgenerate]
        exact released hprocess
      | ok u =>
        -- Reading has not failed, so a template was refused for the bodies around the innermost.
        simp only [call, generate, hprocess, Answer.isOk] at h hstack
        split at h
        · cases h
        · next he =>
          rw [if_neg he] at hstack
          exact absurd (List.isEmpty_iff.mpr (stack_length_eq_one_iff.mp hstack)) he

end Session

/-- Once a call for all of the source has failed and left bodies open, no later call gives a
template, whatever was called in between. If it has left none open but that of the template, then
other calls can still come to give a template, as if nothing were missing: it holds what was read
before the fault. -/
theorem Session.template_behind_fault (s : Session) {c : Session.Call}
    (hc : c = .process ∨ c = .generate) (hfault : (s.call c).1.isOk = false) :
    (1 < (s.call c).2.stack.length →
      ∀ answers u, (s.call c).2.Reaches answers u → ∀ template, u.generate.1 ≠ .ok template) ∧
    ((s.call c).2.stack.length = 1 →
      ∃ answers u template, (s.call c).2.Reaches answers u ∧ u.Allows .generate ∧
        u.generate.1 = .ok template ∧ template.body.body = (s.call c).2.context.body) := by
  constructor
  · intro hopen answers u hu template hg
    have hlength := hu.one_lt_length hopen
    have hone := length_stack_of_generate hg
    omega
  · intro hstack
    obtain ⟨answers, u, hreach, hp, hrest, hsame⟩ :=
      exists_reaches_end (peeked_of_failed hc hfault hstack)
    have henclosing : u.draft.enclosing = [] := by
      rwa [← stack_length_eq_one_iff, hsame]
    refine ⟨answers, u, u.draft.template, hreach, hp, generate_of_end hp hrest henclosing, ?_⟩
    have hbodies : [u.context] = [(s.call c).2.context] := by
      have hbefore := stack_length_eq_one_iff.mp hstack
      simpa [stack, Draft.stack, henclosing, hbefore, context] using hsame
    have hcontext : u.context = (s.call c).2.context := List.head_eq_of_cons_eq hbodies
    change u.context.body = _
    rw [hcontext]

/-- The closing tag of an arm is at fault, when the arm is no longer open: a template comes behind
the fault, without the arm. -/
theorem Session.template_behind_fault_arm :
    ((start "a\x7b% if b %\x7dc\x7b% endif d %\x7d").call .process).1.isOk = false ∧
    ((start "a\x7b% if b %\x7dc\x7b% endif d %\x7d").call .process).2.stack.length = 1 ∧
    ∃ answers u template,
      ((start "a\x7b% if b %\x7dc\x7b% endif d %\x7d").call .process).2.Reaches answers u ∧
      u.Allows .generate ∧ u.generate.1 = .ok template ∧
      template.body.body = [.text "a" ⟨.start, ⟨1, 1, 1⟩⟩] := by
  have hfault :
      ((start "a\x7b% if b %\x7dc\x7b% endif d %\x7d").call .process).1.isOk = false := by
    decide +kernel
  have hstack :
      ((start "a\x7b% if b %\x7dc\x7b% endif d %\x7d").call .process).2.stack.length = 1 := by
    decide +kernel
  obtain ⟨answers, u, template, hreach, hallows, hg, hbody⟩ :=
    (template_behind_fault _ (.inl rfl) hfault).2 hstack
  refine ⟨hfault, hstack, answers, u, template, hreach, hallows, hg, ?_⟩
  rw [hbody]
  decide +kernel

/-- A session in which reading has failed may still give a template: the placeable of `\x7b\x7b a`
is never closed, and the template that is taken out behind the fault is empty. -/
theorem Session.not_fault_final :
    ¬ ∀ (text : String) (name : Option String) (answers : List Answer) (s : Session) (c : Call),
      (start text name).Reaches answers s → s.Allows c → (c = .process ∨ c = .generate) →
      (s.call c).1.isOk = false →
      ∀ answers' u, (s.call c).2.Reaches answers' u → u.Allows .generate →
        ∀ template, u.generate.1 ≠ .ok template := by
  intro h
  have hfault : ((start "\x7b\x7b a").call .process).1.isOk = false := by decide +kernel
  have hallows : ((start "\x7b\x7b a").call .process).2.Allows .generate := by
    change (_ : Option Lexeme) = none
    decide +kernel
  have hgenerate : ((start "\x7b\x7b a").call .process).2.generate.1.isOk = true := by
    decide +kernel
  obtain ⟨template, hg⟩ := exists_ok_of_isOk hgenerate
  exact h "\x7b\x7b a" none [] _ .process .refl rfl (.inl rfl) hfault [] _ .refl hallows template hg

end TemplateSyntax
