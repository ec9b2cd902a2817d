import TemplateSyntax.Proofs.Relocation

/-!
# Templates with other texts

The texts of a template are replaced where they stand, and nothing else is: the tree keeps its
shape, its expressions and its definitions.
-/
namespace TemplateSyntax

/-- What texts are replaced by may depend on where they stand. -/
abbrev Edit := Position → String → String

/-! ## Statements -/

namespace Statement

mutual
def edited (edit : Edit) : Statement → Statement
  | text run s => text (edit s.start run) s
  | put value filters s => put value filters s
  | cases arms s => cases (editedArms edit arms) s
  | loop pattern iterable condition body alternative s =>
    loop pattern iterable condition (editedScope edit body) (editedOption edit alternative) s
  | assign pattern value s => assign pattern value s
  | macroCall name args body s => macroCall name args (editedScope edit body) s
  | blockCall name s => blockCall name s
  | filterBlock filter body s => filterBlock filter (editedScope edit body) s
termination_by structural s => s
def editedAll (edit : Edit) : List Statement → List Statement
  | [] => []
  | s :: ss => edited edit s :: editedAll edit ss
termination_by structural ss => ss
def editedArm (edit : Edit) : Arm Statement → Arm Statement
  | ⟨condition, body, s⟩ => ⟨condition, editedAll edit body, s⟩
termination_by structural a => a
def editedArms (edit : Edit) : List (Arm Statement) → List (Arm Statement)
  | [] => []
  | a :: as => editedArm edit a :: editedArms edit as
termination_by structural as => as
def editedScope (edit : Edit) : Scope Statement → Scope Statement
  | ⟨declared, body, s⟩ => ⟨declared, editedAll edit body, s⟩
termination_by structural b => b
def editedOption (edit : Edit) : Option (List Statement) → Option (List Statement)
  | none => none
  | some ss => some (editedAll edit ss)
termination_by structural o => o
end

variable {edit : Edit}

theorem editedAll_concat (ss : List Statement) (s : Statement) :
    editedAll edit (ss ++ [s]) = editedAll edit ss ++ [edited edit s] := by
  induction ss with
  | nil => rfl
  | cons x ss ih => rw [List.cons_append, editedAll, ih]; rfl

theorem editedArms_concat (as : List (Arm Statement)) (a : Arm Statement) :
    editedArms edit (as ++ [a]) = editedArms edit as ++ [editedArm edit a] := by
  induction as with
  | nil => rfl
  | cons x as ih => rw [List.cons_append, editedArms, ih]; rfl

end Statement

/-! ## Templates -/

/-- The same names bound to other values. -/
def Table.mapValues {α β : Type} (f : α → β) (t : Table α) : Table β where
  entries := t.entries.map fun e => (e.1, f e.2)
  ascending := List.pairwise_map.mpr t.ascending

theorem Table.mapValues_insert {α β : Type} (f : α → β) (t : Table α) (name : String) (a : α) :
    (t.insert name a).mapValues f = (t.mapValues f).insert name (f a) := by
  have hbind (es : List (String × α)) : (bind name a es).map (fun e => (e.1, f e.2)) =
      bind name (f a) (es.map fun e => (e.1, f e.2)) := by
    induction es with
    | nil => rfl
    | cons e es ih =>
      simp only [bind, List.map_cons]
      split
      · rfl
      · split
        · rfl
        · rw [List.map_cons, ih]
  simp only [mapValues, insert, hbind]

def Macro.edited (edit : Edit) (m : Macro) : Macro :=
  { m with body := Statement.editedScope edit m.body }

def Block.edited (edit : Edit) (b : Block) : Block :=
  { b with body := Statement.editedScope edit b.body }

def Definition.edited (edit : Edit) : Definition → Definition
  | ofMacro m => ofMacro (m.edited edit)
  | ofBlock b => ofBlock (b.edited edit)

/-- The template with its texts replaced, wherever they are. -/
def Template.edited (edit : Edit) (t : Template) : Template where
  parent := t.parent
  blocks := t.blocks.mapValues (Block.edited edit)
  macros := t.macros.mapValues (Macro.edited edit)
  body := Statement.editedScope edit t.body
  span := t.span

instance {α : Type} [Movable α] : Movable (Table α) := ⟨fun f t => t.mapValues (move f)⟩

instance : Movable Template where
  move f t := ⟨move f t.parent, move f t.blocks, move f t.macros, move f t.body, move f t.span⟩

/-! ## The same up to texts and places -/

namespace Same
open Statement
variable {edit : Edit} {s s' : Span}

section Bodies
variable {b b' : Body} (h : Same (editedScope edit b) b')
include h

theorem body : Same (editedAll edit b.body) b'.body := by
  cases b
  exact congrArg Scope.body h

theorem push {x x' : Statement} (hx : Same (edited edit x) x') :
    Same (editedScope edit (b.push x)) (b'.push x') := by
  obtain ⟨declared, body, s⟩ := b
  obtain ⟨hdeclared, hbody, hspan⟩ := Scope.mk.inj h
  rw [Same, Scope.push, editedScope, editedAll_concat]
  change Scope.mk _ _ _ = Scope.mk _ _ _
  rw [Scope.mk.injEq]
  exact ⟨hdeclared, Same.concat hbody hx, hspan⟩

theorem closed (p p' : Position) : Same (editedScope edit (b.closed p)) (b'.closed p') := by
  obtain ⟨declared, body, s⟩ := b
  obtain ⟨hdeclared, hbody, -⟩ := Scope.mk.inj h
  exact congrArg₂ (Scope.mk · · _) hdeclared hbody

end Bodies

theorem arm {condition condition' : Expression} {body body' : List Statement}
    (hc : Same condition condition') (hb : Same (editedAll edit body) body') :
    Same (editedArm edit ⟨condition, body, s⟩) ⟨condition', body', s'⟩ :=
  congrArg₂ (Arm.mk · · _) hc hb

theorem cases {arms arms' : List (Arm Statement)} (h : Same arms arms') :
    Same (Statement.cases arms s) (Statement.cases arms' s') := by
  rw [Same, Statement.move_cases, Statement.move_cases, h]
  rfl

theorem loop {pattern pattern' : Pattern} {iterable iterable' : Expression}
    {condition condition' : Option Expression} {body body' : Body}
    {alternative alternative' : Option (List Statement)} (hp : Same pattern pattern')
    (hi : Same iterable iterable') (hc : Same condition condition') (hb : Same body body')
    (ha : Same alternative alternative') :
    Same (Statement.loop pattern iterable condition body alternative s)
      (Statement.loop pattern' iterable' condition' body' alternative' s') := by
  rw [Same, Statement.move_loop, Statement.move_loop, hp, hi, hc, hb, ha]
  rfl

theorem macroCall {name name' : Identifier} {args args' : List Expression} {body body' : Body}
    (hn : Same name name') (ha : Same args args') (hb : Same body body') :
    Same (Statement.macroCall name args body s) (Statement.macroCall name' args' body' s') := by
  rw [Same, Statement.move_macroCall, Statement.move_macroCall, hn, ha, hb]
  rfl

theorem filterBlock {filter filter' : Expression} {body body' : Body} (hf : Same filter filter')
    (hb : Same body body') :
    Same (Statement.filterBlock filter body s) (Statement.filterBlock filter' body' s') := by
  rw [Same, Statement.move_filterBlock, Statement.move_filterBlock, hf, hb]
  rfl

theorem insert {α : Type} [Movable α] {t t' : Table α} (h : Same t t') {name : String} {a a' : α}
    (ha : Same a a') : Same (t.insert name a) (t'.insert name a') := by
  have hmove (t : Table α) (a : α) : move (fun _ => Position.start) (t.insert name a) =
      (move (fun _ => .start) t).insert name (move (fun _ => .start) a) :=
    Table.mapValues_insert _ t name a
  rw [Same, hmove, hmove, h, ha]

end Same
end TemplateSyntax
