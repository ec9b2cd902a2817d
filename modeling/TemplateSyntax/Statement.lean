import TemplateSyntax.Expression

/-!
# Statements

What the body of a template is made of: text, placeables and tags, in source order. Tags may hold
bodies of their own.
-/
namespace TemplateSyntax

/-- What a loop or an assignment gives values to. -/
inductive Pattern where
  | single (v : Variable)
  /-- Several names at once. -/
  | unpack (names : List Variable) (span : Span)
  deriving DecidableEq

def Pattern.span : Pattern → Span
  | .single v => v.span
  | .unpack _ s => s

/-- A body with names of its own. -/
structure Scope (σ : Type) where
  /-- Names declared in the body. Reading leaves this empty; a later pass that binds names may
  fill it. -/
  declared : List Identifier := []
  /-- The statements, in source order. -/
  body : List σ := []
  span : Span
  deriving DecidableEq

/-- A condition and what it guards. -/
structure Arm (σ : Type) where
  condition : Expression
  body : List σ
  span : Span
  deriving DecidableEq

/-- A piece of a body. -/
inductive Statement where
  | text (run : String) (span : Span)
  /-- Show the value of an expression, passed through filters in order. -/
  | put (value : Expression) (filters : List Expression) (span : Span)
  /-- The first arm with a true condition. -/
  | cases (arms : List (Arm Statement)) (span : Span)
  /-- A body for each item that meets the condition, or the alternative if there is none. -/
  | loop (pattern : Pattern) (iterable : Expression) (condition : Option Expression)
      (body : Scope Statement) (alternative : Option (List Statement)) (span : Span)
  | assign (pattern : Pattern) (value : Expression) (span : Span)
  /-- A call of a macro that is given a body. -/
  | macroCall (name : Identifier) (args : List Expression) (body : Scope Statement) (span : Span)
  /-- The place where a named block is shown. -/
  | blockCall (name : Identifier) (span : Span)
  /-- A body that is passed through a filter. -/
  | filterBlock (filter : Expression) (body : Scope Statement) (span : Span)

/-- The body of a template or of a tag. -/
abbrev Body := Scope Statement

/-- The empty scope at a position. -/
def Scope.opened {σ : Type} (p : Position) : Scope σ where
  span := .empty p

/-- A scope that ends at a position. -/
def Scope.closed {σ : Type} (s : Scope σ) (p : Position) : Scope σ :=
  { s with span := { s.span with stop := p } }

/-- A scope with one more statement. -/
def Scope.push {σ : Type} (s : Scope σ) (x : σ) : Scope σ :=
  { s with body := s.body ++ [x] }

namespace Statement

def span : Statement → Span
  | text _ s | put _ _ s | cases _ s | loop _ _ _ _ _ s | assign _ _ s | macroCall _ _ _ s
  | blockCall _ s | filterBlock _ _ s => s

mutual
/-- Whether two statements are the same tree with the same spans. -/
def same : Statement → Statement → Bool
  | text a s, text b t => a == b && s == t
  | put a as s, put b bs t => a == b && as == bs && s == t
  | cases as s, cases bs t => sameArms as bs && s == t
  | loop p i c b a s, loop q j d e f t =>
    p == q && i == j && c == d && sameScope b e && sameOption a f && s == t
  | assign p a s, assign q b t => p == q && a == b && s == t
  | macroCall n as a s, macroCall m bs b t => n == m && as == bs && sameScope a b && s == t
  | blockCall n s, blockCall m t => n == m && s == t
  | filterBlock f a s, filterBlock g b t => f == g && sameScope a b && s == t
  | _, _ => false
termination_by structural a => a
def sameAll : List Statement → List Statement → Bool
  | [], [] => true
  | a :: as, b :: bs => same a b && sameAll as bs
  | _, _ => false
termination_by structural as => as
def sameArm : Arm Statement → Arm Statement → Bool
  | ⟨c, as, s⟩, ⟨d, bs, t⟩ => c == d && sameAll as bs && s == t
termination_by structural a => a
def sameArms : List (Arm Statement) → List (Arm Statement) → Bool
  | [], [] => true
  | a :: as, b :: bs => sameArm a b && sameArms as bs
  | _, _ => false
termination_by structural as => as
def sameScope : Scope Statement → Scope Statement → Bool
  | ⟨v, as, s⟩, ⟨w, bs, t⟩ => v == w && sameAll as bs && s == t
termination_by structural a => a
def sameOption : Option (List Statement) → Option (List Statement) → Bool
  | none, none => true
  | some as, some bs => sameAll as bs
  | _, _ => false
termination_by structural as => as
end

mutual
theorem eq_of_same : ∀ {a b : Statement}, same a b = true → a = b
  | text _ _, b, h | put _ _ _, b, h | assign _ _ _, b, h | blockCall _ _, b, h => by
    cases b <;> simp_all [same]
  | cases as _, b, h => by
    cases b <;> simp only [same, Bool.and_eq_true, beq_iff_eq, reduceCtorEq] at h
    obtain ⟨ha, rfl⟩ := h
    rw [eq_of_sameArms ha]
  | loop _ _ _ a e _, b, h => by
    cases b <;> simp only [same, Bool.and_eq_true, beq_iff_eq, reduceCtorEq] at h
    obtain ⟨⟨⟨⟨⟨rfl, rfl⟩, rfl⟩, ha⟩, he⟩, rfl⟩ := h
    rw [eq_of_sameScope ha, eq_of_sameOption he]
  | macroCall _ _ a _, b, h => by
    cases b <;> simp only [same, Bool.and_eq_true, beq_iff_eq, reduceCtorEq] at h
    obtain ⟨⟨⟨rfl, rfl⟩, ha⟩, rfl⟩ := h
    rw [eq_of_sameScope ha]
  | filterBlock _ a _, b, h => by
    cases b <;> simp only [same, Bool.and_eq_true, beq_iff_eq, reduceCtorEq] at h
    obtain ⟨⟨rfl, ha⟩, rfl⟩ := h
    rw [eq_of_sameScope ha]
theorem eq_of_sameAll : ∀ {as bs : List Statement}, sameAll as bs = true → as = bs
  | [], bs, h => by cases bs <;> simp_all [sameAll]
  | a :: as, bs, h => by
    cases bs <;> simp only [sameAll, Bool.and_eq_true, reduceCtorEq] at h
    rw [eq_of_same h.1, eq_of_sameAll h.2]
theorem eq_of_sameArm : ∀ {a b : Arm Statement}, sameArm a b = true → a = b
  | ⟨_, as, _⟩, ⟨_, bs, _⟩, h => by
    simp only [sameArm, Bool.and_eq_true, beq_iff_eq] at h
    obtain ⟨⟨rfl, ha⟩, rfl⟩ := h
    rw [eq_of_sameAll ha]
theorem eq_of_sameArms : ∀ {as bs : List (Arm Statement)}, sameArms as bs = true → as = bs
  | [], bs, h => by cases bs <;> simp_all [sameArms]
  | a :: as, bs, h => by
    cases bs <;> simp only [sameArms, Bool.and_eq_true, reduceCtorEq] at h
    rw [eq_of_sameArm h.1, eq_of_sameArms h.2]
theorem eq_of_sameScope : ∀ {a b : Scope Statement}, sameScope a b = true → a = b
  | ⟨_, as, _⟩, ⟨_, bs, _⟩, h => by
    simp only [sameScope, Bool.and_eq_true, beq_iff_eq] at h
    obtain ⟨⟨rfl, ha⟩, rfl⟩ := h
    rw [eq_of_sameAll ha]
theorem eq_of_sameOption : ∀ {a b : Option (List Statement)}, sameOption a b = true → a = b
  | none, b, h => by cases b <;> simp_all [sameOption]
  | some as, b, h => by
    cases b <;> simp only [sameOption, reduceCtorEq] at h
    rw [eq_of_sameAll h]
end

mutual
theorem same_self : ∀ a : Statement, same a a = true
  | text _ _ | put _ _ _ | assign _ _ _ | blockCall _ _ => by simp [same]
  | cases as _ => by simp [same, sameArms_self as]
  | loop _ _ _ a e _ => by simp [same, sameScope_self a, sameOption_self e]
  | macroCall _ _ a _ | filterBlock _ a _ => by simp [same, sameScope_self a]
theorem sameAll_self : ∀ as : List Statement, sameAll as as = true
  | [] => rfl
  | a :: as => by simp [sameAll, same_self a, sameAll_self as]
theorem sameArm_self : ∀ a : Arm Statement, sameArm a a = true
  | ⟨_, as, _⟩ => by simp [sameArm, sameAll_self as]
theorem sameArms_self : ∀ as : List (Arm Statement), sameArms as as = true
  | [] => rfl
  | a :: as => by simp [sameArms, sameArm_self a, sameArms_self as]
theorem sameScope_self : ∀ a : Scope Statement, sameScope a a = true
  | ⟨_, as, _⟩ => by simp [sameScope, sameAll_self as]
theorem sameOption_self : ∀ a : Option (List Statement), sameOption a a = true
  | none => rfl
  | some as => by simp [sameOption, sameAll_self as]
end

theorem same_iff {a b : Statement} : same a b = true ↔ a = b :=
  ⟨eq_of_same, fun h => h ▸ same_self a⟩

instance : DecidableEq Statement := fun _ _ => decidable_of_iff _ same_iff

end Statement
end TemplateSyntax
