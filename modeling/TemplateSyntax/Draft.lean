import TemplateSyntax.Reader
import TemplateSyntax.Template

/-!
# Templates in the making

A draft is what has been read of a template so far: the bodies that are still open, the definitions
that are complete, and the reader of the rest. A fault stops reading and leaves the draft as it is,
with every open body still open.
-/
namespace TemplateSyntax

/-- A body that is kept under a name. -/
inductive Definition where
  | ofMacro (m : Macro)
  | ofBlock (b : Block)
  deriving DecidableEq

namespace Definition

/-- The name that a definition is kept under. -/
def name : Definition → String
  | ofMacro m => m.name.value
  | ofBlock b => b.name.value

/-- How messages name the kind of a definition. -/
def word : Definition → String
  | ofMacro _ => "macro"
  | ofBlock _ => "block"

end Definition

/-- A step worth noting. -/
inductive Event where
  /-- A tag begins with this name. -/
  | tag (name : String) (span : Span)
  /-- A definition is complete. -/
  | defined (d : Definition)
  /-- The same, and an earlier definition of its kind and name is lost. -/
  | redefined (d : Definition)
  deriving DecidableEq

/-- How much an event matters. -/
inductive Severity where
  | trace | debug | warn
  deriving DecidableEq

namespace Event

def severity : Event → Severity
  | tag _ _ => .trace
  | defined _ => .debug
  | redefined _ => .warn

/-- How the log words an event. -/
def message : Event → String
  | tag name span => "dispatching tag " ++ quoted name ++ " at " ++ toString span
  | defined d => "registered " ++ d.word ++ " " ++ quoted d.name
  | redefined d =>
    d.word ++ " " ++ quoted d.name ++
      " was defined more than once, the last definition is kept"

end Event

/-- What has been read of a template. -/
structure Draft where
  reader : Reader
  /-- The innermost open body. -/
  current : Body
  /-- The open bodies around it, the outermost last. -/
  enclosing : List Body := []
  macros : Table Macro := .empty
  blocks : Table Block := .empty
  parent : Option Expression := none
  log : List Event := []
  deriving DecidableEq

/-- A computation that reads on in a draft and may fail. -/
abbrev DraftM := EStateM Fault Draft

/-- Tokens are taken from the reader of the draft; all else stays as it is. -/
instance : MonadLift ReadM DraftM where
  monadLift read := fun d =>
    match read d.reader with
    | .ok a reader => .ok a { d with reader }
    | .error fault reader => .error fault { d with reader }

/-- The tag that closed a body, as far as it has been read. -/
structure Closing where
  keyword : Keyword
  /-- Where the tag opens. -/
  opening : Span
  /-- Where its keyword stands. -/
  span : Span
  deriving DecidableEq

namespace Draft

/-- The empty draft of a text. -/
def ofText (text : String) : Draft where
  reader := { cursor := .ofText text }
  current := .opened .start

/-- A bound of the number of tokens left. -/
def size (d : Draft) : Nat := d.reader.size

/-- The place that reading has come to. -/
def position : DraftM Position := return (← get).reader.cursor.position

/-- Add an event to the log. -/
def note (e : Event) : DraftM Unit := modify fun d => { d with log := d.log ++ [e] }

/-- Add a statement to the innermost open body. -/
def push (s : Statement) : DraftM Unit := modify fun d => { d with current := d.current.push s }

/-- Open a body at the place that reading has come to. -/
def openBody : DraftM Unit :=
  modify fun d =>
    { d with current := .opened d.reader.cursor.position, enclosing := d.current :: d.enclosing }

/-- Close the innermost open body, unless no other is open. -/
def closeBody (stop : Position) : DraftM Body :=
  modifyGet fun d =>
    (d.current.closed stop,
      match d.enclosing with
      | [] => d
      | outer :: others => { d with current := outer, enclosing := others })

/-- Whether a definition of the same kind and name is kept already. -/
def holds (d : Draft) : Definition → Bool
  | .ofMacro m => (d.macros.find? m.name.value).isSome
  | .ofBlock b => (d.blocks.find? b.name.value).isSome

/-- Keep a definition under its name, in the place of an earlier one. -/
def keep (d : Draft) : Definition → Draft
  | .ofMacro m => { d with macros := d.macros.insert m.name.value m }
  | .ofBlock b => { d with blocks := d.blocks.insert b.name.value b }

/-- Note a definition and keep it. -/
def define (x : Definition) : DraftM Unit :=
  modify fun d =>
    let lost := if d.holds x then [Event.redefined x] else []
    keep { d with log := d.log ++ .defined x :: lost } x

/-- Name the template that is extended, unless there is one already. -/
def setParent (target : Expression) : DraftM Bool :=
  modifyGet fun d => if d.parent.isSome then (false, d) else (true, { d with parent := some target })

/-- Read the text before the next tag or placeable, and keep it unless it is empty. -/
def readText : DraftM Unit :=
  modify fun d =>
    let (run, span, cursor) := d.reader.cursor.takeText
    { d with
      reader := { d.reader with cursor }
      current := if run.isEmpty then d.current else d.current.push (.text run span) }

end Draft
end TemplateSyntax
