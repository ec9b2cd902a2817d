import TemplateSyntax.Template

/-!
# Outlines

An outline shows a template as a tree of lines, one for each node, indented by depth. Each line has
the kind of the node, its span, and what else the node says by itself.
-/
namespace TemplateSyntax

/-- A node and what it is made of. -/
inductive Outline where
  | node (kind : String) (span : Span) (detail : String) (parts : List Outline)

namespace Outline

/-- A line without the blanks at its end. -/
def trimBlanks (cs : List Char) : List Char := (cs.reverse.dropWhile (· == ' ')).reverse

/-- The line of a node at a depth. -/
def line (depth : Nat) (kind : String) (span : Span) (detail : String) : String :=
  String.ofList <| trimBlanks <| List.replicate depth ' ' ++
    (kind ++ " " ++ toString span ++ " " ++ detail).toList

mutual
/-- The lines of a node and of its parts, which are one deeper. -/
def lines (depth : Nat) : Outline → List String
  | node kind span detail parts => line depth kind span detail :: linesAll (depth + 1) parts
def linesAll (depth : Nat) : List Outline → List String
  | [] => []
  | o :: os => lines depth o ++ linesAll depth os
end

end Outline

def Pattern.outline : Pattern → Outline
  | .single v => .node "Pattern" v.span v.name []
  | .unpack names s => .node "Pattern" s (",".intercalate (names.map (·.name))) []

mutual
def Expression.outline : Expression → Outline
  | .name v => .node "Variable" v.span v.name []
  | .number n s => .node "Number" s n.text []
  | .string v s => .node "String" s v []
  | .boolean v s => .node "Boolean" s (toString v) []
  | .member o p s => .node "Member" s p.name [o.outline]
  | .call f args s =>
    .node "FunctionCall" s (toString args.length) (f.outline :: Expression.outlines args)
  | .binary o l r s => .node "BinOp" s o.value.spelling [l.outline, r.outline]
  | .unary o a s => .node "UnOp" s o.value.spelling [a.outline]
  | .filter v f s => .node "Filter" s "" [v.outline, f.outline]
termination_by structural e => e
def Expression.outlines : List Expression → List Outline
  | [] => []
  | e :: es => e.outline :: Expression.outlines es
termination_by structural es => es
end

mutual
def Statement.outline : Statement → Outline
  | .text t s => .node "Text" s (toString t.utf8ByteSize ++ " bytes") []
  | .put v fs s => .node "PutValue" s "" (v.outline :: Expression.outlines fs)
  | .cases arms s => .node "CaseStatement" s "" (Statement.armOutlines arms)
  | .loop p i c b a s =>
    .node "ForLoop" s "" (p.outline :: i.outline ::
      (Expression.outlines c.toList ++ Statement.scopeOutline b ::
        Statement.alternativeOutline s a))
  | .assign p v s => .node "Assign" s "" [p.outline, v.outline]
  | .macroCall n as b s =>
    .node "MacroCall" s n.value (Expression.outlines as ++ [Statement.scopeOutline b])
  | .blockCall n s => .node "CallBlock" s n.value []
  | .filterBlock f b s => .node "FilterBlock" s "" [f.outline, Statement.scopeOutline b]
termination_by structural s => s
def Statement.outlines : List Statement → List Outline
  | [] => []
  | s :: ss => s.outline :: Statement.outlines ss
termination_by structural ss => ss
def Statement.armOutline : Arm Statement → Outline
  | ⟨c, body, s⟩ => .node "Arm" s "" (c.outline :: Statement.outlines body)
termination_by structural a => a
def Statement.armOutlines : List (Arm Statement) → List Outline
  | [] => []
  | a :: as => Statement.armOutline a :: Statement.armOutlines as
termination_by structural as => as
def Statement.scopeOutline : Scope Statement → Outline
  | ⟨_, body, s⟩ => .node "Scope" s "" (Statement.outlines body)
termination_by structural s => s
/-- The alternative of a loop has the span of the loop. -/
def Statement.alternativeOutline (loop : Span) : Option (List Statement) → List Outline
  | none => []
  | some body => [.node "Else" loop "" (Statement.outlines body)]
termination_by structural a => a
end

def Body.outline (b : Body) : Outline := Statement.scopeOutline b

def Parameter.outline (p : Parameter) : Outline :=
  .node "Argument" p.span p.name.value (Expression.outlines p.fallback.toList)

/-- A macro under the name that it is kept under. -/
def Macro.outline (name : String) (m : Macro) : Outline :=
  .node "Macro" m.span name (m.parameters.map Parameter.outline ++ [m.body.outline])

/-- A block under the name that it is kept under. -/
def Block.outline (name : String) (b : Block) : Outline :=
  .node "Block" b.span name [b.body.outline]

def Template.outline (t : Template) : Outline :=
  .node "Template" t.span "" (Expression.outlines t.parent.toList ++
    t.blocks.entries.map (fun e => Block.outline e.1 e.2) ++
    t.macros.entries.map (fun e => Macro.outline e.1 e.2) ++ [t.body.outline])

end TemplateSyntax
