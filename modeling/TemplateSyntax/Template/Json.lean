import TemplateSyntax.Json
import TemplateSyntax.Template

/-!
# Templates as JSON

Each node is an object with its type, its fields, and the positions where it starts and ends. Fields
that may be missing are null, lists are arrays, and tables are objects with the names as keys.
-/
namespace TemplateSyntax

def Position.toJson (p : Position) : Json :=
  .object [("offset", .ofNat p.offset), ("line", .ofNat p.line), ("column", .ofNat p.column)]

def Span.toJson (s : Span) : Json :=
  .object [("start", s.start.toJson), ("end", s.stop.toJson)]

/-- The object of a node. -/
def Json.node (type : String) (span : Span) (fields : List (String × Json)) : Json :=
  .object (("type", .string type) ::
    (fields ++ [("start", span.start.toJson), ("end", span.stop.toJson)]))

def Variable.toJson (v : Variable) : Json := .node "Variable" v.span [("name", .string v.name)]

def Identifier.toJson (i : Identifier) : Json :=
  .node "Identifier" i.span [("value", .string i.value)]

def WrittenOperator.toJson (o : WrittenOperator) : Json :=
  .node "Operator" o.span [("value", .string o.value.spelling)]

def Pattern.toJson : Pattern → Json
  | .single v => v.toJson
  | .unpack names s => .node "Unpack" s [("names", .array (names.map Variable.toJson))]

mutual
def Expression.toJson : Expression → Json
  | .name v => v.toJson
  | .number n s => .node "Number" s [("value", .number n)]
  | .string v s => .node "String" s [("value", .string v)]
  | .boolean v s => .node "Boolean" s [("value", .bool v)]
  | .member o p s => .node "Member" s [("object", o.toJson), ("property", p.toJson)]
  | .call f args s =>
    .node "FunctionCall" s [("function", f.toJson), ("args", .array (Expression.toJsons args))]
  | .binary o l r s =>
    .node "BinOp" s [("op", o.toJson), ("left", l.toJson), ("right", r.toJson)]
  | .unary o a s => .node "UnOp" s [("op", o.toJson), ("argument", a.toJson)]
  | .filter v f s => .node "Filter" s [("value", v.toJson), ("filter", f.toJson)]
termination_by structural e => e
def Expression.toJsons : List Expression → List Json
  | [] => []
  | e :: es => e.toJson :: Expression.toJsons es
termination_by structural es => es
end

mutual
def Statement.toJson : Statement → Json
  | .text t s => .node "Text" s [("text", .string t)]
  | .put v fs s =>
    .node "PutValue" s [("value", v.toJson), ("filters", .array (Expression.toJsons fs))]
  | .cases arms s => .node "CaseStatement" s [("arms", .array (Statement.armsToJson arms))]
  | .loop p i c b a s =>
    .node "ForLoop" s [("pattern", p.toJson), ("iterable", i.toJson),
      ("filter", .ofOption Expression.toJson c), ("body", Statement.scopeToJson b),
      ("alternative", Statement.alternativeToJson a)]
  | .assign p v s => .node "Assign" s [("pattern", p.toJson), ("value", v.toJson)]
  | .macroCall n as b s =>
    .node "MacroCall" s [("macro", n.toJson), ("args", .array (Expression.toJsons as)),
      ("body", Statement.scopeToJson b)]
  | .blockCall n s => .node "CallBlock" s [("name", n.toJson)]
  | .filterBlock f b s =>
    .node "Filter" s [("filter", f.toJson), ("body", Statement.scopeToJson b)]
termination_by structural s => s
def Statement.toJsons : List Statement → List Json
  | [] => []
  | s :: ss => s.toJson :: Statement.toJsons ss
termination_by structural ss => ss
def Statement.armToJson : Arm Statement → Json
  | ⟨c, body, s⟩ =>
    .node "Arm" s [("condition", c.toJson), ("body", .array (Statement.toJsons body))]
termination_by structural a => a
def Statement.armsToJson : List (Arm Statement) → List Json
  | [] => []
  | a :: as => Statement.armToJson a :: Statement.armsToJson as
termination_by structural as => as
def Statement.scopeToJson : Scope Statement → Json
  | ⟨declared, body, s⟩ =>
    .node "Scope" s [("variables", .array (declared.map Identifier.toJson)),
      ("body", .array (Statement.toJsons body))]
termination_by structural s => s
def Statement.alternativeToJson : Option (List Statement) → Json
  | none => .null
  | some body => .array (Statement.toJsons body)
termination_by structural a => a
end

def Body.toJson (b : Body) : Json := Statement.scopeToJson b

def Parameter.toJson (p : Parameter) : Json :=
  .node "Argument" p.span [("name", p.name.toJson),
    ("default", .ofOption Expression.toJson p.fallback)]

def Macro.toJson (m : Macro) : Json :=
  .node "Macro" m.span [("name", m.name.toJson),
    ("args", .array (m.parameters.map Parameter.toJson)), ("body", m.body.toJson)]

def Block.toJson (b : Block) : Json :=
  .node "Block" b.span [("name", b.name.toJson), ("body", b.body.toJson)]

def Table.toJson {α : Type} (f : α → Json) (t : Table α) : Json :=
  .object (t.entries.map fun e => (e.1, f e.2))

def Template.toJson (t : Template) : Json :=
  .node "Template" t.span [("extends", .ofOption Expression.toJson t.parent),
    ("blocks", t.blocks.toJson Block.toJson), ("macros", t.macros.toJson Macro.toJson),
    ("body", t.body.toJson)]

end TemplateSyntax
