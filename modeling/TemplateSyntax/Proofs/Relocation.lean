import TemplateSyntax.Draft
import Mathlib.Tactic

/-!
# Moving trees to other places

`move f` puts every position `p` in a value to `f p` and leaves all else as it is. Trees that are
equal up to their spans are moved to the same tree by a function that forgets positions.
-/
namespace TemplateSyntax

/-- Types whose values can be put to other positions. -/
class Movable (α : Type) where
  /-- The value with every position in it replaced. -/
  move : (Position → Position) → α → α

export Movable (move)

section Containers
variable {α β : Type} [Movable α] [Movable β]

instance : Movable PUnit := ⟨fun _ u => u⟩
instance : Movable Bool := ⟨fun _ b => b⟩
instance : Movable Position := ⟨fun f p => f p⟩
instance : Movable (List α) := ⟨fun f => List.map (move f)⟩
instance : Movable (Option α) := ⟨fun f => Option.map (move f)⟩
instance : Movable (α × β) := ⟨fun f x => (move f x.1, move f x.2)⟩

instance : Movable (ForInStep α) where
  move f
    | .done a => .done (move f a)
    | .yield a => .yield (move f a)

end Containers

instance : Movable Span := ⟨fun f s => ⟨f s.start, f s.stop⟩⟩
instance : Movable Lexeme := ⟨fun f l => ⟨l.token, move f l.span⟩⟩
instance : Movable Fault := ⟨fun f e => ⟨e.cause, move f e.span⟩⟩
instance : Movable Variable := ⟨fun f v => ⟨v.name, move f v.span⟩⟩
instance : Movable Identifier := ⟨fun f i => ⟨i.value, move f i.span⟩⟩
instance : Movable WrittenOperator := ⟨fun f o => ⟨o.value, move f o.span⟩⟩
instance : Movable Closing := ⟨fun f c => ⟨c.keyword, move f c.opening, move f c.span⟩⟩

@[simp] theorem Lexeme.token_move (f : Position → Position) (l : Lexeme) :
    (move f l).token = l.token := rfl

/-! ## Expressions -/

namespace Expression

mutual
def moved (f : Position → Position) : Expression → Expression
  | name v => name (move f v)
  | number n s => number n (move f s)
  | string t s => string t (move f s)
  | boolean b s => boolean b (move f s)
  | member object property s => member (moved f object) (move f property) (move f s)
  | call function args s => call (moved f function) (movedAll f args) (move f s)
  | binary op left right s => binary (move f op) (moved f left) (moved f right) (move f s)
  | unary op argument s => unary (move f op) (moved f argument) (move f s)
  | filter value through s => filter (moved f value) (moved f through) (move f s)
termination_by structural e => e
def movedAll (f : Position → Position) : List Expression → List Expression
  | [] => []
  | e :: es => moved f e :: movedAll f es
termination_by structural es => es
end

instance : Movable Expression := ⟨moved⟩

variable (f : Position → Position)

theorem movedAll_eq (es : List Expression) : movedAll f es = move f es := by
  induction es with
  | nil => rfl
  | cons e es ih => exact congrArg (moved f e :: ·) ih

theorem move_call (function : Expression) (args : List Expression) (s : Span) :
    move f (call function args s) = call (move f function) (move f args) (move f s) := by
  rw [← movedAll_eq]
  rfl

theorem span_move (e : Expression) : (move f e).span = move f e.span := by
  cases e <;> rfl

end Expression

instance : Movable Pattern where
  move f
    | .single v => .single (move f v)
    | .unpack names s => .unpack (move f names) (move f s)

/-! ## Statements -/

instance {α : Type} [Movable α] : Movable (Scope α) :=
  ⟨fun f s => ⟨move f s.declared, move f s.body, move f s.span⟩⟩

instance {α : Type} [Movable α] : Movable (Arm α) :=
  ⟨fun f a => ⟨move f a.condition, move f a.body, move f a.span⟩⟩

namespace Statement

mutual
def moved (f : Position → Position) : Statement → Statement
  | text run s => text run (move f s)
  | put value filters s => put (move f value) (move f filters) (move f s)
  | cases arms s => cases (movedArms f arms) (move f s)
  | loop pattern iterable condition body alternative s =>
    loop (move f pattern) (move f iterable) (move f condition) (movedScope f body)
      (movedOption f alternative) (move f s)
  | assign pattern value s => assign (move f pattern) (move f value) (move f s)
  | macroCall name args body s =>
    macroCall (move f name) (move f args) (movedScope f body) (move f s)
  | blockCall name s => blockCall (move f name) (move f s)
  | filterBlock filter body s => filterBlock (move f filter) (movedScope f body) (move f s)
termination_by structural s => s
def movedAll (f : Position → Position) : List Statement → List Statement
  | [] => []
  | s :: ss => moved f s :: movedAll f ss
termination_by structural ss => ss
def movedArm (f : Position → Position) : Arm Statement → Arm Statement
  | ⟨condition, body, s⟩ => ⟨move f condition, movedAll f body, move f s⟩
termination_by structural a => a
def movedArms (f : Position → Position) : List (Arm Statement) → List (Arm Statement)
  | [] => []
  | a :: as => movedArm f a :: movedArms f as
termination_by structural as => as
def movedScope (f : Position → Position) : Scope Statement → Scope Statement
  | ⟨declared, body, s⟩ => ⟨move f declared, movedAll f body, move f s⟩
termination_by structural b => b
def movedOption (f : Position → Position) : Option (List Statement) → Option (List Statement)
  | none => none
  | some ss => some (movedAll f ss)
termination_by structural o => o
end

instance : Movable Statement := ⟨moved⟩

variable (f : Position → Position)

theorem movedAll_eq (ss : List Statement) : movedAll f ss = move f ss := by
  induction ss with
  | nil => rfl
  | cons s ss ih => exact congrArg (moved f s :: ·) ih

theorem movedArms_eq (as : List (Arm Statement)) : movedArms f as = move f as := by
  induction as with
  | nil => rfl
  | cons a as ih =>
    rw [movedArms, ih, movedArm, movedAll_eq]
    rfl

theorem movedScope_eq (b : Body) : movedScope f b = move f b := by
  rw [movedScope, movedAll_eq]
  rfl

theorem movedOption_eq (o : Option (List Statement)) : movedOption f o = move f o := by
  cases o with
  | none => rfl
  | some ss => exact congrArg some (movedAll_eq f ss)

theorem move_cases (arms : List (Arm Statement)) (s : Span) :
    move f (cases arms s) = cases (move f arms) (move f s) := by
  rw [← movedArms_eq]
  rfl

theorem move_loop (pattern : Pattern) (iterable : Expression) (condition : Option Expression)
    (body : Body) (alternative : Option (List Statement)) (s : Span) :
    move f (loop pattern iterable condition body alternative s) =
      loop (move f pattern) (move f iterable) (move f condition) (move f body)
        (move f alternative) (move f s) := by
  rw [← movedScope_eq, ← movedOption_eq]
  rfl

theorem move_macroCall (name : Identifier) (args : List Expression) (body : Body) (s : Span) :
    move f (macroCall name args body s) =
      macroCall (move f name) (move f args) (move f body) (move f s) := by
  rw [← movedScope_eq]
  rfl

theorem move_filterBlock (filter : Expression) (body : Body) (s : Span) :
    move f (filterBlock filter body s) = filterBlock (move f filter) (move f body) (move f s) := by
  rw [← movedScope_eq]
  rfl

end Statement

/-! ## Definitions -/

instance : Movable Parameter := ⟨fun f p => ⟨move f p.name, move f p.fallback, move f p.span⟩⟩

instance : Movable Macro :=
  ⟨fun f m => ⟨move f m.name, move f m.parameters, move f m.body, move f m.span⟩⟩

instance : Movable Block := ⟨fun f b => ⟨move f b.name, move f b.body, move f b.span⟩⟩

instance : Movable Definition where
  move f
    | .ofMacro m => .ofMacro (move f m)
    | .ofBlock b => .ofBlock (move f b)

/-! ## Values without places -/

/-- The same value up to the places in it. -/
abbrev Same {α : Type} [Movable α] (a b : α) : Prop :=
  move (fun _ => .start) a = move (fun _ => .start) b

theorem Same.refl {α : Type} [Movable α] (a : α) : Same a a := rfl

theorem Same.concat {α : Type} [Movable α] {as bs : List α} (h : Same as bs) {a b : α}
    (hab : Same a b) : Same (as ++ [a]) (bs ++ [b]) := by
  have happend (as : List α) (a : α) : move (fun _ => Position.start) (as ++ [a]) =
      move (fun _ => .start) as ++ [move (fun _ => .start) a] := List.map_append
  rw [Same, happend, happend, h, hab]

namespace Expression

/-- The tree with every span put to the same place. -/
def unplaced (e : Expression) : Expression := move (fun _ => .start) e

/-- The same tree up to spans. -/
def Alike (a b : Expression) : Prop := a.unplaced = b.unplaced

namespace Alike
variable {a b c d : Expression} {s t : Span}

theorem name {v w : Variable} (h : v.name = w.name) : Alike (.name v) (.name w) := by
  simp only [Alike, unplaced, move, moved, h]

theorem member {v w : Variable} (h : Alike a b) (hv : v.name = w.name) :
    Alike (.member a v s) (.member b w t) := by
  simp only [Alike, unplaced, move, moved] at h ⊢
  rw [h, hv]

theorem call {as bs : List Expression} (h : Alike a b) (has : List.Forall₂ Alike as bs) :
    Alike (.call a as s) (.call b bs t) := by
  have hall : move (fun _ => Position.start) as = move (fun _ => Position.start) bs := by
    induction has with
    | nil => rfl
    | cons hx _ ih => exact congrArg₂ List.cons hx ih
  simp only [Alike, unplaced, move_call] at h ⊢
  rw [h, hall]
  rfl

theorem binary {o p : WrittenOperator} (ho : o.value = p.value) (h : Alike a b) (h' : Alike c d) :
    Alike (.binary o a c s) (.binary p b d t) := by
  simp only [Alike, unplaced, move, moved] at h h' ⊢
  rw [h, h', ho]

theorem unary {o p : WrittenOperator} (ho : o.value = p.value) (h : Alike a b) :
    Alike (.unary o a s) (.unary p b t) := by
  simp only [Alike, unplaced, move, moved] at h ⊢
  rw [h, ho]

theorem filter (h : Alike a b) (h' : Alike c d) : Alike (.filter a c s) (.filter b d t) := by
  simp only [Alike, unplaced, move, moved] at h h' ⊢
  rw [h, h']

end Alike
end Expression
end TemplateSyntax
