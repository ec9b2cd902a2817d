import TemplateSyntax.Diagnostic
import TemplateSyntax.Draft.Bodies

/-!
# Sessions

A session reads one source in as many calls as the caller likes: all of it, single expressions or
single tokens. A call that fails reports what is wrong and does not end the session; whatever was
read before stays in the draft, where `context`, `macros` and `blocks` show it. `compile` is a
session of one call.
-/
namespace TemplateSyntax

/-- A source, the name it is reported under, and what has been read of it. -/
structure Session where
  source : String
  name : Option String
  draft : Draft
  deriving DecidableEq

namespace Session

/-- The session that is about to read a source. -/
def start (source : String) (name : Option String := none) : Session :=
  ⟨source, name, .ofText source⟩

/-- Report faults under another name from here on. -/
def withName (s : Session) (name : String) : Session := { s with name := some name }

/-- Where reading goes on. A token that was only looked at is behind this place. -/
def cursor (s : Session) : Cursor := s.draft.reader.cursor

/-- The innermost open body. Behind a fault it is the body of what failed. -/
def context (s : Session) : Body := s.draft.current

def macros (s : Session) : Table Macro := s.draft.macros

def blocks (s : Session) : Table Block := s.draft.blocks

/-- The events noted so far, which are then forgotten. -/
def takeLog (s : Session) : List Event × Session :=
  (s.draft.log, { s with draft := { s.draft with log := [] } })

/-- The diagnostic of a fault in this session. -/
def report (s : Session) (f : Fault) : Diagnostic := f.report s.source s.name

/-- Run a computation on the draft. -/
def run {α : Type} (s : Session) (m : DraftM α) : Except Diagnostic α × Session :=
  match m s.draft with
  | .ok a draft => (.ok a, { s with draft })
  | .error fault draft => (.error (s.report fault), { s with draft })

/-- Take the next token. -/
def next (s : Session) : Except Diagnostic Lexeme × Session := s.run Reader.next

/-- Read an expression up to one of the given words. -/
def expression (s : Session) (stops : List String) : Except Diagnostic Expression × Session :=
  s.run (Expression.read depthLimit stops)

/-- Read all that is left into the innermost open body. After a fault no token is kept back. -/
def process (s : Session) : Except Diagnostic Unit × Session :=
  match s.run Draft.readAll with
  | (.ok (), t) => (.ok (), t)
  | (.error d, t) =>
    let reader := { t.draft.reader with peeked := none }
    (.error d, { t with draft := { t.draft with reader } })

/-- Read all that is left, and take the template out of the session. This fails as well if an
earlier fault has left bodies open. -/
def generate (s : Session) : Except Diagnostic Template × Session :=
  match s.process with
  | (.error d, t) => (.error d, t)
  | (.ok (), t) =>
    let draft := t.draft
    let last := t.cursor.position
    if draft.enclosing.isEmpty then
      let body := draft.current.closed last
      let emptied :=
        { draft with current := .opened last, macros := .empty, blocks := .empty, parent := none }
      (.ok ⟨draft.parent, draft.blocks, draft.macros, body, body.span⟩, { t with draft := emptied })
    else (.error (t.report ⟨.incomplete, .empty last⟩), t)

end Session

/-- The template that a source describes. -/
def compile (source : String) (name : Option String := none) : Except Diagnostic Template :=
  (Session.start source name).generate.1

end TemplateSyntax
