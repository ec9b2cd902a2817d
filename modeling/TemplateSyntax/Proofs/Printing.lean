import TemplateSyntax.Proofs.Words

/-!
# Printing expressions

An expression is printed as words with a blank between any two of them, and with parentheses only
where it would be read as another tree without them.
-/
namespace TemplateSyntax

/-- The words of an expression, and how many levels are open at once when they are read. -/
structure Printed where
  words : List Word
  levels : Nat

namespace Printed

/-- In parentheses, if they are needed. -/
def grouped (needed : Bool) (p : Printed) : Printed :=
  if needed then ⟨.symbol .openParen :: (p.words ++ [.symbol .closeParen]), p.levels + 1⟩ else p

/-- With commas in between. -/
def separated : List Printed → Printed
  | [] => ⟨[], 0⟩
  | [p] => p
  | p :: q :: ps =>
    let rest := separated (q :: ps)
    ⟨p.words ++ .symbol .comma :: rest.words, max p.levels rest.levels⟩

end Printed

namespace Operator

/-- The word of an operator, which is a symbol if one is spelt like it. -/
def word (op : Operator) : Word :=
  (Symbol.ofSpelling? op.spelling).elim (.name op.spelling) .symbol

/-- The least power of an operation that needs no parentheses on the left of this operator: its own,
or more if equal ones group from the right. -/
def leftMinimum (op : Operator) : Nat :=
  op.binding?.elim 0 fun b => if b.fromRight then b.power + 1 else b.power

/-- The least power of an operation that needs no parentheses on the right of this operator. -/
def rightMinimum (op : Operator) : Nat := op.binding?.elim 0 Binding.rightMinimum

end Operator

namespace Expression

/-- Two operands joined by an operator or a bar. -/
def isJoined : Expression → Bool
  | binary .. | filter .. => true
  | _ => false

/-- Anything with an operator, a sign or a bar of its own. -/
def isOperation : Expression → Bool
  | binary .. | unary .. | filter .. => true
  | _ => false

def isNumber : Expression → Bool
  | number .. => true
  | _ => false

/-- A filter, or operands joined by an operator of less than the given power. -/
def bindsBelow (minimum : Nat) : Expression → Bool
  | binary op _ _ _ => op.value.binding?.any (·.power < minimum)
  | filter .. => true
  | _ => false

mutual
/-- An expression as words, with parentheses where they are needed. -/
def print : Expression → Printed
  | name v => ⟨[.name v.name], 0⟩
  | number value _ => ⟨[.number value], 0⟩
  | string value _ => ⟨[.text value], 0⟩
  | boolean _ _ => ⟨[], 0⟩
  | member object property _ =>
    let o := (print object).grouped (object.isOperation || object.isNumber)
    ⟨o.words ++ [.symbol .dot, .name property.name], o.levels⟩
  | call function args _ =>
    let f := (print function).grouped (function.isOperation || function.isNumber)
    let a := Printed.separated (printAll args)
    ⟨f.words ++ .symbol .openParen :: (a.words ++ [.symbol .closeParen]),
      max f.levels (a.levels + 1)⟩
  | binary op left right _ =>
    let l := (print left).grouped (left.bindsBelow op.value.leftMinimum)
    let r := (print right).grouped (right.bindsBelow op.value.rightMinimum)
    ⟨l.words ++ op.value.word :: r.words, max l.levels (r.levels + 1)⟩
  | unary op argument _ =>
    let a := (print argument).grouped argument.isJoined
    ⟨op.value.word :: a.words, a.levels + 1⟩
  | filter value through _ =>
    let v := print value
    let f := (print through).grouped through.isOperation
    ⟨v.words ++ .symbol .bar :: f.words, max v.levels f.levels⟩
termination_by structural e => e
/-- Each of several expressions as words. -/
def printAll : List Expression → List Printed
  | [] => []
  | e :: es => print e :: printAll es
termination_by structural es => es
end

/-- The trees that templates can write: without truth values, with names that are identifiers, and
with operators in their places. -/
inductive Printable : Expression → Prop
  | name {v : Variable} (h : IsIdentifier v.name) (hn : v.name ≠ Keyword.notWord.spelling) :
    Printable (.name v)
  | number (value : Number) (s : Span) : Printable (.number value s)
  | string (value : String) (s : Span) : Printable (.string value s)
  | member {object : Expression} {property : Variable} {s : Span} (ho : Printable object)
    (hp : IsIdentifier property.name) : Printable (.member object property s)
  | call {function : Expression} {args : List Expression} {s : Span} (hf : Printable function)
    (ha : ∀ a ∈ args, Printable a) : Printable (.call function args s)
  | binary {op : WrittenOperator} {left right : Expression} {s : Span} (hop : op.value ≠ .not)
    (hl : Printable left) (hr : Printable right) : Printable (.binary op left right s)
  | unary {op : WrittenOperator} {argument : Expression} {s : Span}
    (hop : op.value = .subtract ∨ op.value = .not) (ha : Printable argument) :
    Printable (.unary op argument s)
  | filter {value through : Expression} {s : Span} (hv : Printable value)
    (hf : Printable through) : Printable (.filter value through s)

/-- The text is the expression printed, with single blanks between its words. -/
def PrintedAs (e : Expression) (text : String) : Prop :=
  ∃ texts, List.Forall₂ Word.WrittenAs e.print.words texts ∧ text.toList = [' '].intercalate texts

end Expression

/-! ## The words of printed expressions -/

namespace Printed

/-- All words are ones that the lexer knows. -/
def Valid (p : Printed) : Prop := ∀ w ∈ p.words, w.Valid

theorem Valid.grouped {p : Printed} (h : p.Valid) (needed : Bool) : (p.grouped needed).Valid := by
  cases needed with
  | false => exact h
  | true =>
    intro w hw
    simp only [Printed.grouped, if_true, List.mem_cons, List.mem_append, List.not_mem_nil,
      or_false] at hw
    rcases hw with rfl | hw | rfl
    · exact nofun
    · exact h w hw
    · exact nofun

theorem valid_separated {ps : List Printed} (h : ∀ p ∈ ps, p.Valid) : (separated ps).Valid := by
  fun_induction separated ps with
  | case1 => simp [Valid]
  | case2 p => exact h p (by simp)
  | case3 p q ps rest ih =>
    intro w hw
    rcases List.mem_append.mp hw with hw | hw
    · exact h p (by simp) w hw
    · rcases List.mem_cons.mp hw with rfl | hw
      · exact nofun
      · exact ih (fun p hp => h p (List.mem_cons_of_mem _ hp)) w hw

/-- The first word is as stated. -/
def Begins (p : Printed) (P : Word → Prop) : Prop := ∃ w ws, p.words = w :: ws ∧ P w

namespace Begins
variable {p : Printed} {P Q : Word → Prop}

theorem mono (h : p.Begins P) (hPQ : ∀ w, P w → Q w) : p.Begins Q := by
  obtain ⟨w, ws, hw, hP⟩ := h
  exact ⟨w, ws, hw, hPQ w hP⟩

theorem append (h : p.Begins P) (ws : List Word) (n : Nat) : Begins ⟨p.words ++ ws, n⟩ P := by
  obtain ⟨w, vs, hw, hP⟩ := h
  exact ⟨w, vs ++ ws, by rw [hw, List.cons_append], hP⟩

theorem grouped {needed : Bool} (h : needed = false → p.Begins P) (hopen : P (.symbol .openParen)) :
    (p.grouped needed).Begins P := by
  cases needed with
  | false => exact h rfl
  | true => exact ⟨_, _, rfl, hopen⟩

end Begins
end Printed

/-- The word closes no parenthesis. -/
def Word.Starts (w : Word) : Prop := w ≠ .symbol .closeParen

/-- The word closes no parenthesis and is no sign. -/
def Word.StartsTerm (w : Word) : Prop :=
  w.Starts ∧ w ≠ .symbol .minus ∧ w ≠ .name Keyword.notWord.spelling

theorem Word.startsTerm_openParen : StartsTerm (.symbol .openParen) := ⟨nofun, nofun, nofun⟩

theorem Printed.Begins.term {p : Printed} (h : p.Begins Word.StartsTerm) {b : Prop} :
    p.Begins Word.Starts ∧ (b → p.Begins Word.StartsTerm) :=
  ⟨h.mono fun _ hw => hw.1, fun _ => h⟩

/-- The word of an operator is known to the lexer. -/
theorem Operator.valid_word (op : Operator) : op.word.Valid := by
  cases op
  case and => exact Keyword.isIdentifier .andWord
  case or => exact Keyword.isIdentifier .orWord
  case not => exact Keyword.isIdentifier .notWord
  all_goals exact nofun

namespace Expression

theorem printAll_eq (es : List Expression) : printAll es = es.map print := by
  induction es with
  | nil => rfl
  | cons e es ih => rw [printAll, ih, List.map_cons]

theorem Printable.valid {e : Expression} (h : e.Printable) : e.print.Valid := by
  induction h with
  | name h _ => simpa [print, Printed.Valid, Word.Valid] using h
  | number | string => simp [print, Printed.Valid, Word.Valid]
  | member _ hp ih =>
    intro w hw
    simp only [print, List.mem_append, List.mem_cons, List.not_mem_nil, or_false] at hw
    rcases hw with hw | rfl | rfl
    · exact ih.grouped _ w hw
    · exact nofun
    · exact hp
  | @call function args _ _ _ ihf iha =>
    have hargs : (Printed.separated (printAll args)).Valid := by
      rw [printAll_eq]
      refine Printed.valid_separated fun p hp => ?_
      obtain ⟨a, ha, rfl⟩ := List.mem_map.mp hp
      exact iha a ha
    intro w hw
    simp only [print, List.mem_append, List.mem_cons, List.not_mem_nil, or_false] at hw
    rcases hw with hw | rfl | hw | rfl
    · exact ihf.grouped _ w hw
    · exact nofun
    · exact hargs w hw
    · exact nofun
  | @binary op _ _ _ _ _ _ ihl ihr =>
    intro w hw
    simp only [print, List.mem_append, List.mem_cons] at hw
    rcases hw with hw | rfl | hw
    · exact ihl.grouped _ w hw
    · exact op.value.valid_word
    · exact ihr.grouped _ w hw
  | @unary op _ _ _ _ ih =>
    intro w hw
    simp only [print, List.mem_cons] at hw
    rcases hw with rfl | hw
    · exact op.value.valid_word
    · exact ih.grouped _ w hw
  | filter _ _ ihv ihf =>
    intro w hw
    simp only [print, List.mem_append, List.mem_cons] at hw
    rcases hw with hw | rfl | hw
    · exact ihv w hw
    · exact nofun
    · exact ihf.grouped _ w hw

/-- What stands before a property or a call begins like a term, with a parenthesis if need be. -/
theorem begins_object {e : Expression}
    (h : e.isOperation = false → e.print.Begins Word.StartsTerm) :
    (e.print.grouped (e.isOperation || e.isNumber)).Begins Word.StartsTerm :=
  Printed.Begins.grouped (fun hb => h (Bool.or_eq_false_iff.mp hb).1) Word.startsTerm_openParen

/-- The first word of an expression closes no parenthesis. It is no sign either, if the expression
is no operation. -/
theorem Printable.begins {e : Expression} (h : e.Printable) :
    e.print.Begins Word.Starts ∧ (e.isOperation = false → e.print.Begins Word.StartsTerm) := by
  induction h with
  | name _ hn => exact Printed.Begins.term ⟨_, [], rfl, by simp [Word.StartsTerm, Word.Starts, hn]⟩
  | number | string =>
    exact Printed.Begins.term ⟨_, [], rfl, by simp [Word.StartsTerm, Word.Starts]⟩
  | member _ _ ih => exact ((begins_object ih.2).append _ _).term
  | call _ _ ih _ => exact ((begins_object ih.2).append _ _).term
  | binary _ _ _ ih _ =>
    exact ⟨(Printed.Begins.grouped (fun _ => ih.1) Word.startsTerm_openParen.1).append _ _, nofun⟩
  | @unary op _ _ _ _ _ =>
    refine ⟨⟨_, _, rfl, ?_⟩, nofun⟩
    cases op.value <;> exact nofun
  | filter _ _ ih _ => exact ⟨ih.1.append _ _, nofun⟩

theorem intercalate_cons (first : List Char) (texts : List (List Char)) :
    [' '].intercalate (first :: texts) = first ++ texts.flatMap (' ' :: ·) := by
  induction texts generalizing first with
  | nil => simp
  | cons text texts ih =>
    rw [List.intercalate_cons_cons, ih, List.flatMap_cons]
    simp

/-- All words of a printed expression are found in its text, and nothing else is. -/
theorem Printable.exists_readsAll {e : Expression} (h : e.Printable) {text : String}
    (ht : e.PrintedAs text) :
    ∃ d, Cursor.ReadsAll e.print.words (.ofText text) d ∧ d.rest = [] := by
  obtain ⟨texts, hwords, htext⟩ := ht
  obtain ⟨w, ws, hw, -⟩ := h.begins.1
  have hvalid := h.valid
  rw [Printed.Valid, hw] at hvalid
  rw [hw] at hwords ⊢
  cases hwords with
  | @cons _ first _ texts hfirst hrest =>
    refine Cursor.exists_readsAll hrest [] hfirst hvalid (by simp) ?_
    rw [Cursor.ofText, htext, List.nil_append]
    exact intercalate_cons first texts

end Expression
end TemplateSyntax
