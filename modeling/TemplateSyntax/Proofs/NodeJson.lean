import TemplateSyntax.Proofs.FloatLayout
import TemplateSyntax.Proofs.Session
import TemplateSyntax.Template.Json

/-!
# What the JSON of a node tells

Two nodes that are written as the same JSON are the same, with all of their parts and spans. The
kind of a node is told by its type, and where two kinds share a type, by the names of the fields;
a part that may be missing is null, which no node is.
-/
namespace TemplateSyntax

namespace Json

@[simp] theorem ofNat_inj {m n : Nat} : ofNat m = ofNat n ↔ m = n := by
  rw [ofNat, ofNat, number.injEq, Number.integer.injEq]

/-- A part that may be missing is told apart from a missing one, if none is written as null. -/
theorem ofOption_inj {α : Type} {f : α → Json} (hf : Function.Injective f)
    (hnull : ∀ a, f a ≠ null) {a b : Option α} : ofOption f a = ofOption f b ↔ a = b := by
  constructor
  · intro h
    cases a with
    | none =>
      cases b with
      | none => rfl
      | some b => exact absurd h.symm (hnull b)
    | some a =>
      cases b with
      | none => exact absurd h (hnull a)
      | some b => rw [hf h]
  · rintro rfl
    rfl

end Json

@[simp] theorem Position.toJson_inj {p q : Position} : p.toJson = q.toJson ↔ p = q := by
  cases p
  cases q
  simp [toJson]

@[simp] theorem Span.toJson_inj {s t : Span} : s.toJson = t.toJson ↔ s = t := by
  cases s
  cases t
  simp [toJson]

/-- The object of a node tells its type, its fields and its span. The span comes last, so that the
fields end where two names are left. -/
@[simp] theorem Json.node_inj {type other : String} {s t : Span} {fs gs : List (String × Json)} :
    node type s fs = node other t gs ↔ type = other ∧ fs = gs ∧ s = t := by
  constructor
  · intro h
    simp only [node, object.injEq, List.cons.injEq, Prod.mk.injEq, string.injEq, true_and] at h
    obtain ⟨htype, hrow⟩ := h
    obtain ⟨hfields, hspan⟩ := List.append_inj' hrow rfl
    have hst : s.toJson = t.toJson := congrArg object hspan
    exact ⟨htype, hfields, Span.toJson_inj.mp hst⟩
  · rintro ⟨rfl, rfl, rfl⟩
    rfl

@[simp] theorem Operator.spelling_inj {op other : Operator} :
    op.spelling = other.spelling ↔ op = other := by
  constructor
  · intro h
    cases op <;> cases other <;> first | rfl | exact absurd h (by decide)
  · rintro rfl
    rfl

@[simp] theorem Variable.toJson_inj {v w : Variable} : v.toJson = w.toJson ↔ v = w := by
  cases v
  cases w
  simp [toJson]

@[simp] theorem Variable.toJson_eq_node {v : Variable} {type : String} {s : Span}
    {fs : List (String × Json)} :
    v.toJson = .node type s fs ↔
      "Variable" = type ∧ [("name", .string v.name)] = fs ∧ v.span = s :=
  Json.node_inj

@[simp] theorem Variable.node_eq_toJson {v : Variable} {type : String} {s : Span}
    {fs : List (String × Json)} :
    .node type s fs = v.toJson ↔
      type = "Variable" ∧ fs = [("name", .string v.name)] ∧ s = v.span :=
  Json.node_inj

@[simp] theorem Identifier.toJson_inj {i j : Identifier} : i.toJson = j.toJson ↔ i = j := by
  cases i
  cases j
  simp [toJson]

@[simp] theorem WrittenOperator.toJson_inj {o p : WrittenOperator} :
    o.toJson = p.toJson ↔ o = p := by
  cases o
  cases p
  simp [toJson]

@[simp] theorem Pattern.toJson_inj {p q : Pattern} : p.toJson = q.toJson ↔ p = q := by
  have hnames {vs ws : List Variable} : vs.map Variable.toJson = ws.map Variable.toJson ↔ vs = ws :=
    List.map_inj_right fun _ _ => Variable.toJson_inj.mp
  cases p <;> cases q <;> simp [toJson, hnames]

namespace Expression

mutual
/-- Each kind of expression has a type of its own, so only the parts are left to compare. -/
theorem eq_of_toJson : ∀ {a b : Expression}, a.toJson = b.toJson → a = b
  | name _, b, h | number _ _, b, h | string _ _, b, h | boolean _ _, b, h => by
    cases b <;> simp_all [toJson]
  | member a p s, b, h => by
    cases b with
    | member b q t =>
      have hparts : (a.toJson = b.toJson ∧ p = q) ∧ s = t := by simpa [toJson] using h
      obtain ⟨⟨ha, rfl⟩, rfl⟩ := hparts
      rw [eq_of_toJson ha]
    | _ => simp [toJson] at h
  | call f as s, b, h => by
    cases b with
    | call g bs t =>
      have hparts : (f.toJson = g.toJson ∧ toJsons as = toJsons bs) ∧ s = t := by
        simpa [toJson] using h
      obtain ⟨⟨hf, has⟩, rfl⟩ := hparts
      rw [eq_of_toJson hf, eq_of_toJsons has]
    | _ => simp [toJson] at h
  | binary o a c s, b, h => by
    cases b with
    | binary p b d t =>
      have hparts : (o = p ∧ a.toJson = b.toJson ∧ c.toJson = d.toJson) ∧ s = t := by
        simpa [toJson] using h
      obtain ⟨⟨rfl, ha, hc⟩, rfl⟩ := hparts
      rw [eq_of_toJson ha, eq_of_toJson hc]
    | _ => simp [toJson] at h
  | unary o a s, b, h => by
    cases b with
    | unary p b t =>
      have hparts : (o = p ∧ a.toJson = b.toJson) ∧ s = t := by simpa [toJson] using h
      obtain ⟨⟨rfl, ha⟩, rfl⟩ := hparts
      rw [eq_of_toJson ha]
    | _ => simp [toJson] at h
  | filter a c s, b, h => by
    cases b with
    | filter b d t =>
      have hparts : (a.toJson = b.toJson ∧ c.toJson = d.toJson) ∧ s = t := by
        simpa [toJson] using h
      obtain ⟨⟨ha, hc⟩, rfl⟩ := hparts
      rw [eq_of_toJson ha, eq_of_toJson hc]
    | _ => simp [toJson] at h
theorem eq_of_toJsons : ∀ {as bs : List Expression}, toJsons as = toJsons bs → as = bs
  | [], bs, h => by cases bs <;> simp_all [toJsons]
  | a :: as, bs, h => by
    cases bs <;> simp only [toJsons, List.cons.injEq, reduceCtorEq] at h
    rw [eq_of_toJson h.1, eq_of_toJsons h.2]
end

@[simp] theorem toJson_inj {a b : Expression} : a.toJson = b.toJson ↔ a = b :=
  ⟨eq_of_toJson, fun h => h ▸ rfl⟩

@[simp] theorem toJsons_inj {as bs : List Expression} : toJsons as = toJsons bs ↔ as = bs :=
  ⟨eq_of_toJsons, fun h => h ▸ rfl⟩

theorem toJson_ne_null (e : Expression) : e.toJson ≠ .null := by
  cases e <;> simp [toJson, Variable.toJson, Json.node]

@[simp] theorem ofOption_toJson_inj {a b : Option Expression} :
    Json.ofOption toJson a = Json.ofOption toJson b ↔ a = b :=
  Json.ofOption_inj (fun _ _ => eq_of_toJson) toJson_ne_null

end Expression

namespace Statement

mutual
/-- Each kind of statement has a type of its own, so only the parts are left to compare. -/
theorem eq_of_toJson : ∀ {a b : Statement}, a.toJson = b.toJson → a = b
  | text _ _, b, h | put _ _ _, b, h | assign _ _ _, b, h | blockCall _ _, b, h => by
    cases b <;> simp_all [toJson]
  | cases as s, b, h => by
    cases b with
    | cases bs t =>
      have hparts : armsToJson as = armsToJson bs ∧ s = t := by simpa [toJson] using h
      obtain ⟨has, rfl⟩ := hparts
      rw [eq_of_armsToJson has]
    | _ => simp [toJson] at h
  | loop p i c a d s, b, h => by
    cases b with
    | loop q j e b f t =>
      have hparts : (p = q ∧ i = j ∧ c = e ∧ scopeToJson a = scopeToJson b ∧
          alternativeToJson d = alternativeToJson f) ∧ s = t := by simpa [toJson] using h
      obtain ⟨⟨rfl, rfl, rfl, ha, hd⟩, rfl⟩ := hparts
      rw [eq_of_scopeToJson ha, eq_of_alternativeToJson hd]
    | _ => simp [toJson] at h
  | macroCall n as a s, b, h => by
    cases b with
    | macroCall m bs b t =>
      have hparts : (n = m ∧ as = bs ∧ scopeToJson a = scopeToJson b) ∧ s = t := by
        simpa [toJson] using h
      obtain ⟨⟨rfl, rfl, ha⟩, rfl⟩ := hparts
      rw [eq_of_scopeToJson ha]
    | _ => simp [toJson] at h
  | filterBlock f a s, b, h => by
    cases b with
    | filterBlock g b t =>
      have hparts : (f = g ∧ scopeToJson a = scopeToJson b) ∧ s = t := by simpa [toJson] using h
      obtain ⟨⟨rfl, ha⟩, rfl⟩ := hparts
      rw [eq_of_scopeToJson ha]
    | _ => simp [toJson] at h
theorem eq_of_toJsons : ∀ {as bs : List Statement}, toJsons as = toJsons bs → as = bs
  | [], bs, h => by cases bs <;> simp_all [toJsons]
  | a :: as, bs, h => by
    cases bs <;> simp only [toJsons, List.cons.injEq, reduceCtorEq] at h
    rw [eq_of_toJson h.1, eq_of_toJsons h.2]
theorem eq_of_armToJson : ∀ {a b : Arm Statement}, armToJson a = armToJson b → a = b
  | ⟨c, as, s⟩, ⟨d, bs, t⟩, h => by
    have hparts : (c = d ∧ toJsons as = toJsons bs) ∧ s = t := by simpa [armToJson] using h
    obtain ⟨⟨rfl, has⟩, rfl⟩ := hparts
    rw [eq_of_toJsons has]
theorem eq_of_armsToJson : ∀ {as bs : List (Arm Statement)},
    armsToJson as = armsToJson bs → as = bs
  | [], bs, h => by cases bs <;> simp_all [armsToJson]
  | a :: as, bs, h => by
    cases bs <;> simp only [armsToJson, List.cons.injEq, reduceCtorEq] at h
    rw [eq_of_armToJson h.1, eq_of_armsToJson h.2]
theorem eq_of_scopeToJson : ∀ {a b : Scope Statement}, scopeToJson a = scopeToJson b → a = b
  | ⟨vs, as, s⟩, ⟨ws, bs, t⟩, h => by
    have hnames : vs.map Identifier.toJson = ws.map Identifier.toJson ↔ vs = ws :=
      List.map_inj_right fun _ _ => Identifier.toJson_inj.mp
    have hparts : (vs = ws ∧ toJsons as = toJsons bs) ∧ s = t := by
      simpa [scopeToJson, hnames] using h
    obtain ⟨⟨rfl, has⟩, rfl⟩ := hparts
    rw [eq_of_toJsons has]
theorem eq_of_alternativeToJson : ∀ {a b : Option (List Statement)},
    alternativeToJson a = alternativeToJson b → a = b
  | none, b, h => by cases b <;> simp_all [alternativeToJson]
  | some as, b, h => by
    cases b <;> simp only [alternativeToJson, Json.array.injEq, reduceCtorEq] at h
    rw [eq_of_toJsons h]
end

@[simp] theorem toJson_inj {a b : Statement} : a.toJson = b.toJson ↔ a = b :=
  ⟨eq_of_toJson, fun h => h ▸ rfl⟩

@[simp] theorem armToJson_inj {a b : Arm Statement} : armToJson a = armToJson b ↔ a = b :=
  ⟨eq_of_armToJson, fun h => h ▸ rfl⟩

/-- A filter of a value and a filter of a body share a type, but not their fields; no other kinds
of expressions and statements share one. -/
theorem toJson_ne_expression (s : Statement) (e : Expression) : s.toJson ≠ e.toJson := by
  cases s <;> cases e <;> simp [toJson, Expression.toJson]

end Statement

@[simp] theorem Body.toJson_inj {a b : Body} : a.toJson = b.toJson ↔ a = b :=
  ⟨Statement.eq_of_scopeToJson, fun h => h ▸ rfl⟩

@[simp] theorem Parameter.toJson_inj {p q : Parameter} : p.toJson = q.toJson ↔ p = q := by
  cases p
  cases q
  simp [toJson, and_assoc]

@[simp] theorem Macro.toJson_inj {m n : Macro} : m.toJson = n.toJson ↔ m = n := by
  have hparameters : m.parameters.map Parameter.toJson = n.parameters.map Parameter.toJson ↔
      m.parameters = n.parameters :=
    List.map_inj_right fun _ _ => Parameter.toJson_inj.mp
  cases m
  cases n
  simp_all [toJson, and_assoc]

@[simp] theorem Block.toJson_inj {b c : Block} : b.toJson = c.toJson ↔ b = c := by
  cases b
  cases c
  simp [toJson, and_assoc]

/-- Tables are told apart by their entries, which are written in the order of the names. -/
theorem Table.toJson_inj {α : Type} {f : α → Json} (hf : Function.Injective f) {t u : Table α} :
    t.toJson f = u.toJson f ↔ t = u := by
  have hentry (d e : String × α) (h : (d.1, f d.2) = (e.1, f e.2)) : d = e := by
    obtain ⟨hname, hvalue⟩ := Prod.mk.inj h
    exact Prod.ext hname (hf hvalue)
  cases t
  cases u
  simp [toJson, List.map_inj_right hentry]

@[simp] theorem Template.toJson_inj {t u : Template} : t.toJson = u.toJson ↔ t = u := by
  have hblocks := Table.toJson_inj (t := t.blocks) (u := u.blocks) fun _ _ => Block.toJson_inj.mp
  have hmacros := Table.toJson_inj (t := t.macros) (u := u.macros) fun _ _ => Macro.toJson_inj.mp
  cases t
  cases u
  simp_all [toJson, and_assoc]

/-- Values that are told apart by the text of their JSON. -/
def Json.Unambiguous {α : Type} (floats : FloatText) (toJson : α → Json) : Prop :=
  ∀ a b, (toJson a).text floats = (toJson b).text floats ↔ a = b

theorem Json.Unambiguous.of_inj {α : Type} {floats : FloatText} {toJson : α → Json}
    (h : ∀ {a b}, toJson a = toJson b ↔ a = b) : Unambiguous floats toJson :=
  fun _ _ => text_inj.trans h

/-- Templates whose JSON is the same text are equal, with all of their spans, however floats are
written; and so are the nodes that can stand in any one place of a template. A statement and an
expression are never written alike. -/
theorem Template.toJson_unambiguous (floats : Json.FloatText) :
    Json.Unambiguous floats Template.toJson ∧ Json.Unambiguous floats Macro.toJson ∧
    Json.Unambiguous floats Block.toJson ∧ Json.Unambiguous floats Parameter.toJson ∧
    Json.Unambiguous floats Body.toJson ∧ Json.Unambiguous floats Statement.toJson ∧
    Json.Unambiguous floats Statement.armToJson ∧ Json.Unambiguous floats Pattern.toJson ∧
    Json.Unambiguous floats Expression.toJson ∧ Json.Unambiguous floats WrittenOperator.toJson ∧
    Json.Unambiguous floats Identifier.toJson ∧ Json.Unambiguous floats Variable.toJson ∧
    ∀ (s : Statement) (e : Expression), s.toJson.text floats ≠ e.toJson.text floats := by
  refine ⟨.of_inj toJson_inj, .of_inj Macro.toJson_inj, .of_inj Block.toJson_inj,
    .of_inj Parameter.toJson_inj, .of_inj Body.toJson_inj, .of_inj Statement.toJson_inj,
    .of_inj Statement.armToJson_inj, .of_inj Pattern.toJson_inj, .of_inj Expression.toJson_inj,
    .of_inj WrittenOperator.toJson_inj, .of_inj Identifier.toJson_inj,
    .of_inj Variable.toJson_inj, fun s e h => ?_⟩
  exact s.toJson_ne_expression e (Json.text_inj.mp h)

/-- An integer and a float of the same value and length are told apart. -/
theorem Template.toJson_unambiguous_one :
    ∃ t u, compile "\x7b\x7b 01 \x7d\x7d" = .ok t ∧ compile "\x7b\x7b 1. \x7d\x7d" = .ok u ∧
      t.span = u.span ∧ t.toJson.text .shortest ≠ u.toJson.text .shortest := by
  obtain ⟨t, ht⟩ := exists_ok_of_isOk
    (show (compile "\x7b\x7b 01 \x7d\x7d").isOk = true by decide +kernel)
  obtain ⟨u, hu⟩ := exists_ok_of_isOk
    (show (compile "\x7b\x7b 1. \x7d\x7d").isOk = true by decide +kernel)
  have hspan : (compile "\x7b\x7b 01 \x7d\x7d").map Template.span =
      (compile "\x7b\x7b 1. \x7d\x7d").map Template.span := by decide +kernel
  have hne : compile "\x7b\x7b 01 \x7d\x7d" ≠ compile "\x7b\x7b 1. \x7d\x7d" := by decide +kernel
  refine ⟨t, u, ht, hu, ?_, fun h => ?_⟩
  · simpa [ht, hu, Except.map] using hspan
  · obtain rfl := ((toJson_unambiguous .shortest).1 t u).mp h
    exact hne (ht.trans hu.symm)

end TemplateSyntax
