import TemplateSyntax.Proofs.Splitting
import TemplateSyntax.Proofs.Session

/-!
# What a source leaves in a template

Every text of a source, every placeable and every definition leaves a mark when it has been read:
in a body that is still open, in a statement that such a body holds, or in a table. These are the
marks of a draft. Those that are still to come are the marks of the parts that the rest of the
source is split into.
-/
namespace TemplateSyntax

namespace Statement

mutual
/-- A statement and all statements in its bodies. -/
def nested : Statement → List Statement
  | text run span => [text run span]
  | put value filters span => [put value filters span]
  | cases arms span => cases arms span :: nestedInArms arms
  | loop pattern iterable condition body alternative span =>
    loop pattern iterable condition body alternative span ::
      (nestedInScope body ++ nestedInOption alternative)
  | assign pattern value span => [assign pattern value span]
  | macroCall name args body span => macroCall name args body span :: nestedInScope body
  | blockCall name span => [blockCall name span]
  | filterBlock filter body span => filterBlock filter body span :: nestedInScope body
termination_by structural s => s
/-- All statements in some statements. -/
def nestedInAll : List Statement → List Statement
  | [] => []
  | s :: ss => nested s ++ nestedInAll ss
termination_by structural ss => ss
def nestedInArm : Arm Statement → List Statement
  | ⟨_, body, _⟩ => nestedInAll body
termination_by structural a => a
def nestedInArms : List (Arm Statement) → List Statement
  | [] => []
  | a :: as => nestedInArm a ++ nestedInArms as
termination_by structural as => as
def nestedInScope : Scope Statement → List Statement
  | ⟨_, body, _⟩ => nestedInAll body
termination_by structural b => b
def nestedInOption : Option (List Statement) → List Statement
  | none => []
  | some ss => nestedInAll ss
termination_by structural o => o
end

theorem nestedInArm_eq (a : Arm Statement) : nestedInArm a = nestedInAll a.body := by
  cases a
  rfl

theorem nestedInScope_eq (b : Body) : nestedInScope b = nestedInAll b.body := by
  cases b
  rfl

/-- A text and where it stands. -/
def text? : Statement → Option (String × Span)
  | text run span => some (run, span)
  | _ => none

/-- Where a placeable begins. -/
def put? : Statement → Option Position
  | put _ _ span => some span.start
  | _ => none

end Statement

/-- All statements anywhere in a template. -/
def Template.statements (t : Template) : List Statement :=
  Statement.nestedInScope t.body ++
    t.macros.entries.flatMap (fun e => Statement.nestedInScope e.2.body) ++
    t.blocks.entries.flatMap fun e => Statement.nestedInScope e.2.body

/-! ## Marks -/

/-- What is left of a part of the source when it has been read. -/
inductive Mark where
  | text (run : String) (span : Span)
  | put (start : Position)
  | defined (what : Keyword × String)
  deriving DecidableEq

def Statement.mark? : Statement → Option Mark
  | text run span => some (.text run span)
  | put _ _ span => some (.put span.start)
  | _ => none

def Part.mark? : Part → Option Mark
  | text run span => if run.isEmpty then none else some (.text run span)
  | put p => some (.put p)
  | tag _ defined => defined.map .defined

namespace Mark

def text? : Mark → Option (String × Span)
  | text run span => some (run, span)
  | _ => none

def put? : Mark → Option Position
  | put p => some p
  | _ => none

end Mark

theorem Statement.bind_text? (s : Statement) : s.mark?.bind Mark.text? = s.text? := by
  cases s <;> rfl

theorem Statement.bind_put? (s : Statement) : s.mark?.bind Mark.put? = s.put? := by
  cases s <;> rfl

theorem Part.bind_text? (p : Part) : p.mark?.bind Mark.text? = p.text? := by
  cases p with
  | text run span => by_cases h : run.isEmpty <;> simp [mark?, text?, Mark.text?, h]
  | put p => rfl
  | tag p defined => cases defined <;> rfl

theorem Part.bind_put? (p : Part) : p.mark?.bind Mark.put? = p.put? := by
  cases p with
  | text run span => by_cases h : run.isEmpty <;> simp [mark?, put?, Mark.put?, h]
  | put p => rfl
  | tag p defined => cases defined <;> rfl

/-- The marks in statements. -/
def marksIn (ss : List Statement) : List Mark :=
  (Statement.nestedInAll ss).filterMap Statement.mark?

theorem marksIn_cons (s : Statement) (ss : List Statement) :
    marksIn (s :: ss) = marksIn [s] ++ marksIn ss := by
  simp [marksIn, Statement.nestedInAll]

@[simp] theorem marksIn_nil : marksIn [] = [] := rfl

@[simp] theorem marksIn_append (ss ts : List Statement) :
    marksIn (ss ++ ts) = marksIn ss ++ marksIn ts := by
  induction ss with
  | nil => rfl
  | cons s ss ih => rw [List.cons_append, marksIn_cons, ih, ← List.append_assoc, ← marksIn_cons]

@[simp] theorem marksIn_text (run : String) (span : Span) :
    marksIn [.text run span] = [.text run span] := rfl

@[simp] theorem marksIn_put (value : Expression) (filters : List Expression) (span : Span) :
    marksIn [.put value filters span] = [.put span.start] := rfl

@[simp] theorem marksIn_assign (pattern : Pattern) (value : Expression) (span : Span) :
    marksIn [.assign pattern value span] = [] := rfl

@[simp] theorem marksIn_blockCall (name : Identifier) (span : Span) :
    marksIn [.blockCall name span] = [] := rfl

@[simp] theorem marksIn_macroCall (name : Identifier) (args : List Expression) (b : Body)
    (span : Span) : marksIn [.macroCall name args b span] = marksIn b.body := by
  simp [marksIn, Statement.nestedInAll, Statement.nested, Statement.nestedInScope_eq,
    List.filterMap_cons, Statement.mark?]

@[simp] theorem marksIn_filterBlock (filter : Expression) (b : Body) (span : Span) :
    marksIn [.filterBlock filter b span] = marksIn b.body := by
  simp [marksIn, Statement.nestedInAll, Statement.nested, Statement.nestedInScope_eq,
    List.filterMap_cons, Statement.mark?]

@[simp] theorem marksIn_loop (pattern : Pattern) (iterable : Expression)
    (condition : Option Expression) (b : Body) (alternative : Option (List Statement))
    (span : Span) : marksIn [.loop pattern iterable condition b alternative span] =
      marksIn b.body ++ marksIn (alternative.getD []) := by
  cases alternative <;> simp [marksIn, Statement.nestedInAll, Statement.nested,
    Statement.nestedInScope_eq, Statement.nestedInOption, List.filterMap_cons, Statement.mark?]

/-- The marks in the bodies of arms. -/
def marksInArms (arms : List (Arm Statement)) : List Mark := arms.flatMap fun a => marksIn a.body

@[simp] theorem marksIn_cases (arms : List (Arm Statement)) (span : Span) :
    marksIn [.cases arms span] = marksInArms arms := by
  have harms : (Statement.nestedInArms arms).filterMap Statement.mark? = marksInArms arms := by
    induction arms with
    | nil => rfl
    | cons a arms ih =>
      rw [Statement.nestedInArms, List.filterMap_append, ih, Statement.nestedInArm_eq]
      rfl
  simp [marksIn, Statement.nestedInAll, Statement.nested, List.filterMap_cons, Statement.mark?,
    harms]

namespace Definition

/-- The word that the tag of a definition begins with. -/
def kind : Definition → Keyword
  | ofMacro _ => .macroWord
  | ofBlock _ => .blockWord

def body : Definition → Body
  | ofMacro m => m.body
  | ofBlock b => b.body

end Definition

namespace Draft

/-- The marks of a kept definition: its own, and those in its body. -/
def marksOfMacros (t : Table Macro) : List Mark :=
  t.entries.flatMap fun e => .defined (.macroWord, e.1) :: marksIn e.2.body.body

def marksOfBlocks (t : Table Block) : List Mark :=
  t.entries.flatMap fun e => .defined (.blockWord, e.1) :: marksIn e.2.body.body

/-- All marks in a draft. -/
def marks (d : Draft) : List Mark :=
  marksIn d.current.body ++ d.enclosing.flatMap (fun b => marksIn b.body) ++
    marksOfMacros d.macros ++ marksOfBlocks d.blocks

/-- When no body is left open, the marks of texts and placeables are those in the template. -/
theorem filterMap_marks {β : Type} {f : Mark → Option β} (hf : ∀ what, f (.defined what) = none)
    {d : Draft} (h : d.enclosing = []) :
    d.marks.filterMap f = d.template.statements.filterMap fun s => s.mark?.bind f := by
  have hbody (b : Body) : (marksIn b.body).filterMap f =
      (Statement.nestedInScope b).filterMap fun s => s.mark?.bind f := by
    rw [marksIn, List.filterMap_filterMap, Statement.nestedInScope_eq]
  have hscope : Statement.nestedInScope d.template.body = Statement.nestedInScope d.current := by
    rw [Statement.nestedInScope_eq, Statement.nestedInScope_eq]
    rfl
  simp only [marks, h, Template.statements, hscope, marksOfMacros, marksOfBlocks,
    List.filterMap_append, List.filterMap_flatMap, List.filterMap_cons, hf, hbody,
    List.flatMap_nil, List.append_nil]
  rfl

end Draft

namespace Cursor

/-- The marks still to come when reading goes on between tags. -/
def marks (c : Cursor) : List Mark := c.parts.filterMap Part.mark?

/-- A part that defines something leaves a mark of that. -/
theorem count_marks_defined (c : Cursor) (what : Keyword × String) :
    c.marks.count (.defined what) = (c.parts.filterMap Part.defined?).count what := by
  rw [marks]
  induction c.parts with
  | nil => rfl
  | cons p ps ih =>
    rw [List.filterMap_cons, List.filterMap_cons]
    cases p with
    | text run span => by_cases h : run.isEmpty <;> simp [Part.mark?, Part.defined?, h, ih]
    | put p => simp [Part.mark?, Part.defined?, ih]
    | tag p defined => cases defined <;> simp [Part.mark?, Part.defined?, List.count_cons, ih]

/-- The marks still to come when reading goes on in a tag, those of the tag itself apart. -/
def marksBehindTag (c : Cursor) : List Mark := (c.skipThrough .endTag).marks

variable {c e : Cursor}

theorem marks_of_end (h : c.behindText.rest = []) : c.marks = c.textPart.mark?.toList := by
  rw [marks, parts_of_end h, List.filterMap_cons]
  cases c.textPart.mark? <;> rfl

theorem marks_of_opens_put (h : c.behindText.Opens .beginPut e) :
    c.marks = c.textPart.mark?.toList ++ [.put c.behindText.position] ++
      (e.skipThrough .endPut).marks := by
  rw [marks, parts_of_opens_put h, List.filterMap_cons]
  cases c.textPart.mark? <;> rfl

theorem marks_of_opens_tag (h : c.behindText.Opens .beginTag e) :
    c.marks = c.textPart.mark?.toList ++ e.defined?.toList.map .defined ++ e.marksBehindTag := by
  rw [marks, parts_of_opens_tag h, List.filterMap_cons, List.filterMap_cons, Part.mark?]
  cases c.textPart.mark? <;> cases e.defined? <;> rfl

end Cursor

/-! ## Heads -/

namespace Reader
variable {n : Nat} {c : Cursor} {opening : Span}
open Draft

/-- A placeable is closed by the first symbol that can close it, and begins where it opens. -/
theorem lands_placeable_marks (ho : opening.start.offset ≤ c.position.offset) :
    Lands (placeable n opening) c fun s d =>
      c.skipThrough .endPut = d ∧ marksIn [s] = [.put opening.start] := by
  refine ((Expression.sound n).derives Expression.stopsAt_placeable c).bind fun value d hd => ?_
  obtain ⟨pending, hd⟩ := hd
  refine (lands_filters d).bind fun filters e he => (Lands.expectLexeme .endPut).bind
    fun close f hf => Lands.pure ⟨SpansPlaceable.skipThrough_eq ⟨pending, d, e, hd, he, _, hf⟩, ?_⟩
  have hskips : Cursor.Skips c e := (Cursor.Skips.of_derives hd).trans (.of_filters he)
  have hle := hskips.reaches.offset_le
  have hclose : e.position.offset ≤ close.start.offset := (Cursor.frames_of_next hf (by simp)).1
  have hstart : ¬ close.start.offset < opening.start.offset := by omega
  simp [Span.combine, hstart]

theorem lands_setTag_marks (c : Cursor) : Lands (setTag n opening) c fun s d =>
    c.skipThrough .endTag = d ∧ marksIn [s] = [] :=
  (lands_pattern c).bind fun _ e he => (Lands.expectSymbol .assign).discard.bind fun _ f hf =>
    (Expression.lands_read Expression.stopsAt_tag n f).bind fun _ g hg =>
      (Lands.expectSymbol .endTag).bind fun _ _ hd =>
        Lands.pure ⟨SpansAssignment.skipThrough_eq ⟨e, f, he, hf, g, hg, hd⟩, rfl⟩

theorem lands_macroHead_name (c : Cursor) : Lands (macroHead n) c fun x d =>
    c.skipThrough .endTag = d ∧ ∃ e, c.Reads (.identifier x.1.value) e :=
  Lands.expectName.bind fun name e he => (Lands.expectSymbol .openParen).discard.bind
    fun _ f hf => (Lands.items consumes_parameter lands_parameter f).bind fun _ g hg =>
      (lands_endTag g).discard.bind fun _ _ hd => Lands.pure
        ⟨SpansMacroHead.skipThrough_eq ⟨e, f, g, ⟨name.value, he⟩, hf, hg, hd⟩, e, he⟩

end Reader

end TemplateSyntax
