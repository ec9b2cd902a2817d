import TemplateSyntax.Proofs.CountedAgreement

/-!
# The guard against deep nesting

A session with a counter makes its calls by the readers that count levels, and the counter stays
with it from call to call. Each call leaves the counter at zero, so that no call feels how deep an
earlier one went, or where that failed. Hence a call answers what it would answer under a higher
limit, unless it opens more levels than the limit; then it finds the source nested too deeply.
-/
namespace TemplateSyntax

/-! ## The message -/

theorem head?_toList_append {a b : String} {c : Char} (h : a.toList.head? = some c) :
    (a ++ b).toList.head? = some c := by
  rw [String.toList_append, List.head?_append, h]
  rfl

theorem Wanted.head?_text (w : Wanted) : w.text.toList.head? = some 'e' := by
  cases w with
  | symbol s => exact head?_toList_append (by decide +kernel)
  | keyword k => exact head?_toList_append (by decide +kernel)
  | name | operand | opening => decide +kernel

/-- The first letter of the help for a cause. -/
def Cause.initial : Cause → Char
  | tooDeep => 'n'
  | numberTooLarge | unclosedString _ => 't'
  | unknownEscape _ => 'u'
  | secondParent => 'a'
  | _ => 'e'

theorem Cause.head?_help (c : Cause) : c.help.toList.head? = some c.initial := by
  cases c with
  | unexpectedCharacter | numberTooLarge | tooDeep | incomplete | secondParent => decide +kernel
  | unknownEscape escaped =>
    refine head?_toList_append (c := 'u') (head?_toList_append (head?_toList_append ?_))
    decide +kernel
  | unclosedString quote => exact head?_toList_append (c := 't') (by decide +kernel)
  | unexpected wanted found =>
    cases found with
    | endOfSource => exact wanted.head?_text
    | _ => exact head?_toList_append (head?_toList_append wanted.head?_text)
  | unclosedBody closers =>
    exact head?_toList_append (c := 'e') (head?_toList_append (by decide +kernel))
  | unknownTag name =>
    refine head?_toList_append (c := 'e') (head?_toList_append (head?_toList_append ?_))
    decide +kernel
  | wrongBlockName opened =>
    exact head?_toList_append (c := 'e') (head?_toList_append (by decide +kernel))

/-- No other cause of a fault is worded like too many levels. -/
theorem Cause.help_eq_tooDeep {c : Cause} : c.help = Cause.tooDeep.help ↔ c = .tooDeep := by
  refine ⟨fun h => ?_, fun h => h ▸ rfl⟩
  have hinitial : c.initial = 'n' := by
    have hfirst := c.head?_help
    rw [h, head?_help] at hfirst
    exact (Option.some.inj hfirst).symm
  cases c with
  | tooDeep => rfl
  | numberTooLarge | unclosedString _ => exact absurd (show 't' = 'n' from hinitial) (by decide)
  | unknownEscape _ => exact absurd (show 'u' = 'n' from hinitial) (by decide)
  | secondParent => exact absurd (show 'a' = 'n' from hinitial) (by decide)
  | _ => exact absurd (show 'e' = 'n' from hinitial) (by decide)

/-! ## Calls -/

namespace Session
variable {α : Type}

/-- What `process` makes of reading all. -/
def processed : Except Diagnostic Unit × Session → Except Diagnostic Unit × Session
  | (.ok (), t) => (.ok (), t)
  | (.error d, t) => (.error d, { t with draft := t.draft.released })

/-- What `generate` makes of a call of `process`. -/
def generated : Except Diagnostic Unit × Session → Except Diagnostic Template × Session
  | (.error d, t) => (.error d, t)
  | (.ok (), t) =>
    let draft := t.draft
    let last := t.cursor.position
    if draft.enclosing.isEmpty then
      let body := draft.current.closed last
      let emptied :=
        { draft with current := .opened last, macros := .empty, blocks := .empty, parent := none }
      (.ok ⟨draft.parent, draft.blocks, draft.macros, body, body.span⟩, { t with draft := emptied })
    else (.error (t.report ⟨.incomplete, .empty last⟩), t)

theorem process_eq (s : Session) : s.process = processed (s.run Draft.readAll) := by
  rw [process]
  rcases s.run Draft.readAll with ⟨_ | _, t⟩ <;> rfl

theorem generate_eq (s : Session) : s.generate = generated (processed (s.run Draft.readAll)) := by
  rw [generate, process_eq]
  rcases processed (s.run Draft.readAll) with ⟨_ | _, t⟩ <;> rfl

end Session

/-- The diagnostic of a call that has failed. -/
def Session.Answer.diagnostic? : Session.Answer → Option Diagnostic
  | .processed (.error d) | .generated (.error d) | .read (.error d) | .taken (.error d) => some d
  | _ => none

/-- The call has failed as the source is nested too deeply. -/
def Session.Answer.TooDeep (a : Session.Answer) : Prop :=
  ∃ d, a.diagnostic? = some d ∧ d.help = some Cause.tooDeep.help

namespace Counted
open Session
variable {α β γ : Type}

/-- The session that is about to read a source, with the counter at zero. -/
def start (source : String) (name : Option String := none) : Counted Session :=
  { state := .start source name }

/-- Run a computation on the draft of a session. -/
def run (s : Counted Session) (m : CountM Draft α) : Except Diagnostic α × Counted Session :=
  match m ⟨s.state.draft, s.depth, s.turns⟩ with
  | .ok a t => (.ok a, ⟨{ s.state with draft := t.state }, t.depth, t.turns⟩)
  | .error f t => (.error (s.state.report f), ⟨{ s.state with draft := t.state }, t.depth, t.turns⟩)

/-- Go on with what does not concern the counter. -/
def andThen (f : α × Session → β × Session) (x : α × Counted Session) : β × Counted Session :=
  let (b, t) := f (x.1, x.2.state)
  (b, { x.2 with state := t })

/-- Make a call, with the counter where it is. -/
def call (limit : Nat) (s : Counted Session) : Call → Answer × Counted Session
  | .process => andThen (Prod.map Answer.processed id ∘ processed) (s.run (readAll limit))
  | .generate =>
    andThen (Prod.map Answer.generated id ∘ generated ∘ processed) (s.run (readAll limit))
  | .expression stops =>
    andThen (Prod.map Answer.read id) (s.run (liftM (read limit (inner limit limit) stops)))
  | .next => andThen (Prod.map Answer.taken id) (s.run (liftM Reader.next))
  | .withName name => (.renamed, { s with state := s.state.withName name })

/-- The session behind some calls, of which some may have failed. -/
def after (limit : Nat) (s : Counted Session) (calls : List Call) : Counted Session :=
  calls.foldl (fun s c => (s.call limit c).2) s

/-- How a call went that was made with a counter, where `x` is what it has come to without one: the
counter is back at zero, its turns are in order, and they tell whether the other call found the
source nested too deeply. Otherwise both calls have come to the same, and they always have if the
limit is the same. -/
structure Answers (limit : Nat) (s : Counted Session) (x : β × Session) (deep : Prop)
    (turns : List Turn) (y : β × Counted Session) : Prop where
  depth_eq : y.2.depth = 0
  turns_eq : y.2.turns = s.turns ++ turns
  accord : Accord limit 0 turns
  deep : deep ↔ Exceed depthLimit turns
  same : limit = depthLimit ∨ ¬ Exceed depthLimit turns → (y.1, y.2.state) = x

section Calls
variable {limit : Nat} {s : Counted Session} {ts : List Turn} {deep : Prop}

theorem Answers.andThen {x : α × Session} {y : α × Counted Session}
    (h : Answers limit s x deep ts y) (f : α × Session → β × Session) {deep' : Prop}
    (hdeep : deep' ↔ deep) : Answers limit s (f x) deep' ts (andThen f y) where
  depth_eq := h.depth_eq
  turns_eq := h.turns_eq
  accord := h.accord
  deep := hdeep.trans h.deep
  same hlimit := by
    rw [← h.same hlimit]
    rfl

/-- Reading has failed as the source is nested too deeply. -/
def Failed (x : Except Diagnostic α) : Prop :=
  ∃ d, x = .error d ∧ d.help = some Cause.tooDeep.help

/-- The help of a diagnostic tells whether levels were at fault. -/
theorem failed_run {m : DraftM α} {s : Session} :
    Failed (s.run m).1 ↔ RunsTooDeep (m s.draft) := by
  rw [Session.run]
  cases m s.draft with
  | ok a t => simp [Failed, RunsTooDeep]
  | error f t =>
    have hhelp : (s.report f).help = some f.cause.help := rfl
    simp [Failed, RunsTooDeep, hhelp, Cause.help_eq_tooDeep]

theorem answers_run {m : DraftM α} {m' : CountM Draft α} (hm : Agrees limit depthLimit limit m m')
    (hs : s.depth = 0) : ∃ ts, Answers limit s (s.state.run m) (Failed (s.state.run m).1) ts
      (s.run m') := by
  obtain ⟨r, ts, hr, haccord, hdeep, hsame⟩ :=
    hm ⟨s.state.draft, s.depth, s.turns⟩ (by simp [hs])
  rw [hs, Nat.zero_add] at hdeep hsame
  rw [hs] at haccord hr
  cases r with
  | ok a t =>
    have hrun : s.run m' = (.ok a, ⟨{ s.state with draft := t }, 0, s.turns ++ ts⟩) := by
      rw [run, hs, hr]
      rfl
    rw [hrun]
    refine ⟨ts, rfl, rfl, haccord, failed_run.trans hdeep, fun h => ?_⟩
    rw [Session.run, ← hsame (h.imp Eq.symm id)]
  | error f t =>
    have hrun : s.run m' =
        (.error (s.state.report f), ⟨{ s.state with draft := t }, 0, s.turns ++ ts⟩) := by
      rw [run, hs, hr]
      rfl
    rw [hrun]
    refine ⟨ts, rfl, rfl, haccord, failed_run.trans hdeep, fun h => ?_⟩
    rw [Session.run, ← hsame (h.imp Eq.symm id)]

theorem agrees_readAll (h : depthLimit ≤ limit) :
    Agrees limit depthLimit limit Draft.readAll (readAll limit) :=
  (agrees_content h (agrees_inner limit limit) []).discard

/-- One call: the counter is at zero behind it if it was before it. -/
theorem answers_call (hlimit : depthLimit ≤ limit) (hs : s.depth = 0) (c : Call) :
    ∃ ts, Answers limit s (s.state.call c) (s.state.call c).1.TooDeep ts (s.call limit c) := by
  cases c with
  | process =>
    have hcall : s.state.call .process =
        (Prod.map Answer.processed id ∘ processed) (s.state.run Draft.readAll) := by
      rw [Session.call, process_eq]
      rfl
    obtain ⟨ts, h⟩ := answers_run (agrees_readAll hlimit) hs
    rw [hcall]
    refine ⟨ts, h.andThen _ ?_⟩
    rcases s.state.run Draft.readAll with ⟨d | _, t⟩ <;>
      simp [processed, Answer.TooDeep, Answer.diagnostic?, Failed]
  | generate =>
    have hcall : s.state.call .generate =
        (Prod.map Answer.generated id ∘ generated ∘ processed) (s.state.run Draft.readAll) := by
      rw [Session.call, generate_eq]
      rfl
    obtain ⟨ts, h⟩ := answers_run (agrees_readAll hlimit) hs
    rw [hcall]
    refine ⟨ts, h.andThen _ ?_⟩
    rcases s.state.run Draft.readAll with ⟨d | _, t⟩
    · simp [processed, generated, Answer.TooDeep, Answer.diagnostic?, Failed]
    · have hincomplete (span : Span) :
          (t.report ⟨.incomplete, span⟩).help ≠ some Cause.tooDeep.help := by
        change some (Cause.incomplete.help) ≠ _
        simp [Cause.help_eq_tooDeep]
      simp only [Function.comp, processed, generated, Failed]
      split <;> simp [Answer.TooDeep, Answer.diagnostic?, hincomplete]
  | expression stops =>
    obtain ⟨ts, h⟩ := answers_run
      (agrees_read hlimit (agrees_inner limit limit) stops).lift hs
    refine ⟨ts, h.andThen (Prod.map Answer.read id) ?_⟩
    change (Answer.read (s.state.run _).1).TooDeep ↔ _
    rcases s.state.run (liftM (Expression.read depthLimit stops)) with ⟨d | _, t⟩ <;>
      simp [Answer.TooDeep, Answer.diagnostic?, Failed]
  | next =>
    obtain ⟨ts, h⟩ := answers_run (Agrees.plain plain_next).lift hs
    refine ⟨ts, h.andThen (Prod.map Answer.taken id) ?_⟩
    change (Answer.taken (s.state.run _).1).TooDeep ↔ _
    rcases s.state.run (liftM Reader.next) with ⟨d | _, t⟩ <;>
      simp [Answer.TooDeep, Answer.diagnostic?, Failed]
  | withName name =>
    refine ⟨[], hs, (List.append_nil _).symm, accord_nil, ?_, fun _ => rfl⟩
    simp [Session.call, Answer.TooDeep, Answer.diagnostic?]

/-- Calls with a counter, succeeding or failing, leave it at zero, and come to what they come to
without one. -/
theorem after_eq (hs : s.depth = 0) (calls : List Call) :
    (after depthLimit s calls).depth = 0 ∧
      (after depthLimit s calls).state = calls.foldl (fun t c => (t.call c).2) s.state := by
  induction calls generalizing s with
  | nil => exact ⟨hs, rfl⟩
  | cons c calls ih =>
    obtain ⟨ts, h⟩ := answers_call (Nat.le_refl _) hs c
    have hstate : (s.call depthLimit c).2.state = (s.state.call c).2 :=
      congrArg Prod.snd (h.same (.inl rfl))
    obtain ⟨hdepth, hcalls⟩ := ih h.depth_eq
    refine ⟨hdepth, hcalls.trans ?_⟩
    rw [hstate]
    rfl

end Calls

/-- In every session, whatever was called before and however that ended: the counter is at zero
before a call and behind it; in between it shows the number of open levels at each of its turns, of
which there are never more than the limit; and the call finds the source nested too deeply exactly
if it tries to open a level while as many are open as the limit. Under a higher limit, a call that
does not come to open more levels than the limit answers the same, and one that does fails under the
limit. -/
theorem guard_exact (text : String) (name : Option String) (calls : List Call) (c : Call) :
    let s := after depthLimit (start text name) calls
    s.depth = 0 ∧ s.state = calls.foldl (fun t c => (t.call c).2) (Session.start text name) ∧
    (∃ turns, s.call depthLimit c =
        ((s.state.call c).1, ⟨(s.state.call c).2, 0, s.turns ++ turns⟩) ∧
      Accord depthLimit 0 turns ∧ (∀ t ∈ turns, t.depth ≤ depthLimit) ∧
      ((s.state.call c).1.TooDeep ↔ ∃ what, .refused what depthLimit ∈ turns)) ∧
    ∀ more, ∃ answer t turns,
      s.call (depthLimit + more) c = (answer, ⟨t, 0, s.turns ++ turns⟩) ∧
      Accord (depthLimit + more) 0 turns ∧
      (Exceed depthLimit turns → (s.state.call c).1.TooDeep) ∧
      (¬ Exceed depthLimit turns → ¬ answer.TooDeep ∧ s.state.call c = (answer, t)) := by
  intro s
  obtain ⟨hdepth, hstate⟩ := after_eq (s := start text name) rfl calls
  refine ⟨hdepth, hstate, ?_, fun more => ?_⟩
  · obtain ⟨ts, h⟩ := answers_call (Nat.le_refl _) hdepth c
    have hsame := h.same (.inl rfl)
    refine ⟨ts, ?_, h.accord, fun t => h.accord.depth_le, h.deep.trans h.accord.exceed_iff⟩
    rw [← hsame, ← h.depth_eq, ← h.turns_eq]
  · obtain ⟨ts, h⟩ := answers_call (Nat.le_add_right _ more) hdepth c
    refine ⟨(s.call (depthLimit + more) c).1, (s.call (depthLimit + more) c).2.state, ts, ?_,
      h.accord, h.deep.mpr, fun hno => ?_⟩
    · rw [← h.depth_eq, ← h.turns_eq]
    · have hsame := h.same (.inr hno)
      refine ⟨fun hdeep => hno (h.deep.mp ?_), hsame.symm⟩
      rw [← hsame]
      exact hdeep

/-- An argument with a sign: the operand of the sign is the second level. -/
example : (call depthLimit (start "\x7b\x7b f(-a) + 1 \x7d\x7d") .process).2.turns =
    [.opened .arguments 1, .opened .signed 2, .closed .signed 1, .closed .arguments 0,
      .opened .rightSide 1, .closed .rightSide 0] := by
  decide +kernel

end Counted
end TemplateSyntax
