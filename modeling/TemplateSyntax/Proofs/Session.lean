import TemplateSyntax.Session
import TemplateSyntax.Proofs.Run

/-!
# What the calls of a session come to

Each call of a session is a run of a reader on its draft. Here the results of the calls are told by
the results of these runs. `Session.Reaches` collects what a session can come to in any number of
calls, and `Cursor.steps` does the same for a cursor that is moved by hand.
-/
namespace TemplateSyntax

/-- A result that is known to be there. -/
theorem exists_ok_of_isOk {ε α : Type} {x : Except ε α} (h : x.isOk = true) :
    ∃ a, x = .ok a := by
  cases x with
  | error e => cases h
  | ok a => exact ⟨a, rfl⟩

/-! ## Moving a cursor by hand -/

/-- The ways to move a cursor. -/
inductive Cursor.Step where
  | next (quotes : Bool)
  | text
  deriving DecidableEq

namespace Cursor

/-- What one step reads, and the cursor behind it. -/
def step (c : Cursor) : Step → Except Fault Lexeme × Cursor
  | .next quotes => c.next quotes
  | .text => (.ok c.text.1, c.text.2)

/-- What steps in a row read, and the cursor behind the last of them. -/
def steps (c : Cursor) : List Step → List (Except Fault Lexeme) × Cursor
  | [] => ([], c)
  | s :: ss => ((c.step s).1 :: ((c.step s).2.steps ss).1, ((c.step s).2.steps ss).2)

end Cursor

/-! ## Calls -/

/-- The draft with no token kept back. -/
def Draft.released (d : Draft) : Draft := { d with reader := { d.reader with peeked := none } }

namespace Session
variable {α : Type} {s : Session}

theorem run_of_ok {m : DraftM α} {a : α} {d : Draft} (h : m s.draft = .ok a d) :
    s.run m = (.ok a, { s with draft := d }) := by
  simp only [run, h]

theorem run_of_error {m : DraftM α} {f : Fault} {d : Draft} (h : m s.draft = .error f d) :
    s.run m = (.error (s.report f), { s with draft := d }) := by
  simp only [run, h]

/-- What a reader of tokens answers in a session. -/
theorem run_lift_eq_ok {t : Session} {m : ReadM α} {a : α} :
    s.run (liftM m : DraftM α) = (.ok a, t) ↔
      ∃ r, m s.draft.reader = .ok a r ∧ t = { s with draft := { s.draft with reader := r } } := by
  rw [run, run_lift]
  cases m s.draft.reader with
  | ok b r =>
    constructor
    · intro h
      cases h
      exact ⟨r, rfl, rfl⟩
    · rintro ⟨r', hr, rfl⟩
      cases hr
      rfl
  | error f r => simp

theorem process_of_ok {d : Draft} (h : Draft.readAll s.draft = .ok () d) :
    s.process = (.ok (), { s with draft := d }) := by
  simp only [process, run_of_ok h]

theorem process_of_error {f : Fault} {d : Draft} (h : Draft.readAll s.draft = .error f d) :
    s.process = (.error (s.report f), { s with draft := d.released }) := by
  simp only [process, run_of_error h]
  rfl

/-- A call that reads all fails with a fault of the reader of bodies. -/
theorem process_eq_error {e : Diagnostic} {t : Session} (h : s.process = (.error e, t)) :
    ∃ f d, Draft.readAll s.draft = .error f d ∧ e = s.report f ∧
      t = { s with draft := d.released } := by
  cases hr : Draft.readAll s.draft with
  | ok a d =>
    rw [process_of_ok hr] at h
    cases h
  | error f d =>
    rw [process_of_error hr] at h
    cases h
    exact ⟨f, d, rfl, rfl, rfl⟩

/-- The calls of a session. -/
inductive Call where
  | process
  | generate
  | expression (stops : List String)
  | next
  | withName (name : String)
  deriving DecidableEq

/-- What a call answers. -/
inductive Answer where
  | processed (result : Except Diagnostic Unit)
  | generated (result : Except Diagnostic Template)
  | read (result : Except Diagnostic Expression)
  | taken (result : Except Diagnostic Lexeme)
  | renamed

/-- Make a call. -/
def call (s : Session) : Call → Answer × Session
  | .process => (.processed s.process.1, s.process.2)
  | .generate => (.generated s.generate.1, s.generate.2)
  | .expression stops => (.read (s.expression stops).1, (s.expression stops).2)
  | .next => (.taken s.next.1, s.next.2)
  | .withName name => (.renamed, s.withName name)

/-- Bodies are not read while a token is kept back. -/
def Allows (s : Session) : Call → Prop
  | .process | .generate => s.draft.reader.peeked = none
  | _ => True

/-- What a session comes to in some calls, succeeding or failing, with their answers in order. -/
inductive Reaches (s : Session) : List Answer → Session → Prop
  | refl : Reaches s [] s
  | call {answers : List Answer} {t : Session} (h : Reaches s answers t) (c : Call)
      (hc : t.Allows c) : Reaches s (answers ++ [(t.call c).1]) (t.call c).2

end Session

/-- A source that is no template has a fault that its readers find, or bodies are left open. -/
theorem compile_eq_error {text : String} {name : Option String} {e : Diagnostic}
    (h : compile text name = .error e) :
    (∃ f d, Draft.readAll (.ofText text) = .error f d ∧ e = f.report text name) ∨
      ∃ q, e.span = some (.empty q) := by
  unfold compile Session.generate at h
  split at h
  · next d t hp =>
    cases h
    obtain ⟨f, d, hr, he, -⟩ := Session.process_eq_error hp
    exact .inl ⟨f, d, hr, he⟩
  · dsimp only at h
    split at h
    · cases h
    · cases h
      exact .inr ⟨_, rfl⟩

theorem compile_of_error {text : String} {name : Option String} {f : Fault} {d : Draft}
    (h : Draft.readAll (.ofText text) = .error f d) :
    compile text name = .error (f.report text name) := by
  have hp := Session.process_of_error (s := Session.start text name) h
  simp only [compile, Session.generate, hp]
  rfl

/-- The template that a draft has come to when its source ends. -/
def Draft.template (d : Draft) : Template :=
  let body := d.current.closed d.reader.cursor.position
  ⟨d.parent, d.blocks, d.macros, body, body.span⟩

/-- A template is what its source was read to, with no body left open. -/
theorem compile_eq_ok_iff {text : String} {name : Option String} {t : Template} :
    compile text name = .ok t ↔
      ∃ d, Draft.readAll (.ofText text) = .ok () d ∧ d.enclosing = [] ∧ t = d.template := by
  constructor
  · intro h
    cases hr : Draft.readAll (.ofText text) with
    | error f d =>
      rw [compile_of_error hr] at h
      cases h
    | ok u d =>
      have hp := Session.process_of_ok (s := Session.start text name) hr
      simp only [compile, Session.generate, hp] at h
      split at h
      · next he =>
        cases h
        exact ⟨d, rfl, List.isEmpty_iff.mp he, rfl⟩
      · cases h
  · rintro ⟨d, hr, he, rfl⟩
    have hp := Session.process_of_ok (s := Session.start text name) hr
    simp only [compile, Session.generate, hp, he, List.isEmpty_nil, if_true]
    rfl

/-- The same fault is reported alike, whatever source it is found in. -/
theorem Fault.report_agrees (f : Fault) (text text' : String) (name : Option String) :
    (f.report text name).agrees (f.report text' name) = true := by
  simp [Diagnostic.agrees, Fault.report, Diagnostic.pointAt]

end TemplateSyntax
