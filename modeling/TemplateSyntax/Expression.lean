import TemplateSyntax.Number
import TemplateSyntax.Operator
import TemplateSyntax.Span

/-!
# Expressions

What can be evaluated to a value, as a tree with the span of every node. Two trees are equal when
all of their nodes and spans are; `same` decides it.
-/
namespace TemplateSyntax

/-- A name that refers to a value. -/
structure Variable where
  name : String
  span : Span
  deriving DecidableEq

/-- A name that is not evaluated, such as the name of a macro. -/
structure Identifier where
  value : String
  span : Span
  deriving DecidableEq

/-- An operator and where it is written. -/
structure WrittenOperator where
  value : Operator
  span : Span
  deriving DecidableEq

/-- Something that has a value. -/
inductive Expression where
  | name (v : Variable)
  | number (value : Number) (span : Span)
  /-- A string literal, with its escapes decoded. -/
  | string (value : String) (span : Span)
  /-- A truth value. Templates do not write these; an `else` has the condition `true`. -/
  | boolean (value : Bool) (span : Span)
  | member (object : Expression) (property : Variable) (span : Span)
  | call (function : Expression) (args : List Expression) (span : Span)
  | binary (op : WrittenOperator) (left right : Expression) (span : Span)
  | unary (op : WrittenOperator) (argument : Expression) (span : Span)
  /-- A value that is passed through a filter. -/
  | filter (value filter : Expression) (span : Span)

namespace Expression

def span : Expression → Span
  | name v => v.span
  | number _ s | string _ s | boolean _ s | member _ _ s | call _ _ s | binary _ _ _ s
  | unary _ _ s | filter _ _ s => s

mutual
/-- Whether two expressions are the same tree with the same spans. -/
def same : Expression → Expression → Bool
  | name v, name w => v == w
  | number m s, number n t => m == n && s == t
  | string a s, string b t => a == b && s == t
  | boolean a s, boolean b t => a == b && s == t
  | member a p s, member b q t => same a b && p == q && s == t
  | call f as s, call g bs t => same f g && sameAll as bs && s == t
  | binary o a c s, binary p b d t => o == p && same a b && same c d && s == t
  | unary o a s, unary p b t => o == p && same a b && s == t
  | filter a c s, filter b d t => same a b && same c d && s == t
  | _, _ => false
termination_by structural a => a
/-- Whether two lists of expressions are the same, one by one. -/
def sameAll : List Expression → List Expression → Bool
  | [], [] => true
  | a :: as, b :: bs => same a b && sameAll as bs
  | _, _ => false
termination_by structural as => as
end

mutual
theorem eq_of_same : ∀ {a b : Expression}, same a b = true → a = b
  | name _, b, h | number _ _, b, h | string _ _, b, h | boolean _ _, b, h => by
    cases b <;> simp_all [same]
  | member a _ _, b, h => by
    cases b <;> simp only [same, Bool.and_eq_true, beq_iff_eq, reduceCtorEq] at h
    obtain ⟨⟨ha, rfl⟩, rfl⟩ := h
    rw [eq_of_same ha]
  | call f as _, b, h => by
    cases b <;> simp only [same, Bool.and_eq_true, beq_iff_eq, reduceCtorEq] at h
    obtain ⟨⟨hf, has⟩, rfl⟩ := h
    rw [eq_of_same hf, eq_of_sameAll has]
  | binary _ a c _, b, h => by
    cases b <;> simp only [same, Bool.and_eq_true, beq_iff_eq, reduceCtorEq] at h
    obtain ⟨⟨⟨rfl, ha⟩, hc⟩, rfl⟩ := h
    rw [eq_of_same ha, eq_of_same hc]
  | unary _ a _, b, h => by
    cases b <;> simp only [same, Bool.and_eq_true, beq_iff_eq, reduceCtorEq] at h
    obtain ⟨⟨rfl, ha⟩, rfl⟩ := h
    rw [eq_of_same ha]
  | filter a c _, b, h => by
    cases b <;> simp only [same, Bool.and_eq_true, beq_iff_eq, reduceCtorEq] at h
    obtain ⟨⟨ha, hc⟩, rfl⟩ := h
    rw [eq_of_same ha, eq_of_same hc]
theorem eq_of_sameAll : ∀ {as bs : List Expression}, sameAll as bs = true → as = bs
  | [], bs, h => by cases bs <;> simp_all [sameAll]
  | a :: as, bs, h => by
    cases bs <;> simp only [sameAll, Bool.and_eq_true, reduceCtorEq] at h
    rw [eq_of_same h.1, eq_of_sameAll h.2]
end

mutual
theorem same_self : ∀ a : Expression, same a a = true
  | name _ | number _ _ | string _ _ | boolean _ _ => by simp [same]
  | member a _ _ | unary _ a _ => by simp [same, same_self a]
  | call f as _ => by simp [same, same_self f, sameAll_self as]
  | binary _ a c _ | filter a c _ => by simp [same, same_self a, same_self c]
theorem sameAll_self : ∀ as : List Expression, sameAll as as = true
  | [] => rfl
  | a :: as => by simp [sameAll, same_self a, sameAll_self as]
end

theorem same_iff {a b : Expression} : same a b = true ↔ a = b :=
  ⟨eq_of_same, fun h => h ▸ same_self a⟩

instance : DecidableEq Expression := fun _ _ => decidable_of_iff _ same_iff

end Expression
end TemplateSyntax
