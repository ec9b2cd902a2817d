import TemplateSyntax.Proofs.Progress

/-!
# Readers as scripts

A script writes down when a reader takes a token, when it looks at one, and how it goes on with what
it finds. It can be run by a reader, which reads tokens as they are asked for and may have to keep
one back, or it can be followed along a row of entries that is there before, with nothing but the
number of the next entry to know. All readers of expressions are scripts, and their loops end
because each pass takes a token.
-/
namespace TemplateSyntax

/-- What a computation does with tokens. -/
inductive Script : Type → Type 1
  | pure {α : Type} (a : α) : Script α
  | throw {α : Type} (f : Fault) : Script α
  | next : Script Lexeme
  | peek : Script Lexeme
  | bind {α β : Type} (m : Script α) (f : α → Script β) : Script β
  | loop {β : Type} (step : β → Script (ForInStep β)) (b : β) : Script β

namespace Script
variable {α β : Type}

/-- The script run by a reader. -/
def read {α : Type} : Script α → ReadM α
  | .pure a => Pure.pure a
  | .throw f => MonadExcept.throw f
  | .next => Reader.next
  | .peek => Reader.peek
  | .bind m f => m.read >>= fun a => (f a).read
  | .loop step b => TemplateSyntax.loop Reader.size (fun b => (step b).read) b

/-- Followed along a row of entries from the one of the first number, the script ends with the
result before the one of the second number. A token that is looked at is not passed, but a fault is
passed however it is found. -/
inductive Follows (row : Nat → Except Fault Lexeme) :
    {α : Type} → Script α → Nat → Except Fault α → Nat → Prop
  | pure {α : Type} {a : α} {k : Nat} : Follows row (.pure a) k (.ok a) k
  | throw {α : Type} {f : Fault} {k : Nat} : Follows row (.throw f : Script α) k (.error f) k
  | next {k : Nat} : Follows row .next k (row k) (k + 1)
  | peek {k : Nat} {l : Lexeme} (h : row k = .ok l) : Follows row .peek k (.ok l) k
  | peekFault {k : Nat} {f : Fault} (h : row k = .error f) :
      Follows row .peek k (.error f) (k + 1)
  | bind {α β : Type} {m : Script α} {f : α → Script β} {a : α} {x : Except Fault β} {i j k : Nat}
      (hm : Follows row m i (.ok a) j) (hf : Follows row (f a) j x k) :
      Follows row (.bind m f) i x k
  | bindFault {α β : Type} {m : Script α} {f : α → Script β} {e : Fault} {i j : Nat}
      (hm : Follows row m i (.error e) j) : Follows row (.bind m f) i (.error e) j
  | done {β : Type} {step : β → Script (ForInStep β)} {b b' : β} {i j : Nat}
      (h : Follows row (step b) i (.ok (.done b')) j) : Follows row (.loop step b) i (.ok b') j
  | yield {β : Type} {step : β → Script (ForInStep β)} {b b' : β} {x : Except Fault β} {i j k : Nat}
      (h : Follows row (step b) i (.ok (.yield b')) j) (hrest : Follows row (.loop step b') j x k) :
      Follows row (.loop step b) i x k
  | loopFault {β : Type} {step : β → Script (ForInStep β)} {b : β} {e : Fault} {i j : Nat}
      (h : Follows row (step b) i (.error e) j) : Follows row (.loop step b) i (.error e) j

/-- There is only one way to follow a script. -/
theorem Follows.unique {row : Nat → Except Fault Lexeme} {p : Script α} {i j k : Nat}
    {x y : Except Fault α} (hx : Follows row p i x j) (hy : Follows row p i y k) :
    x = y ∧ j = k := by
  induction hx generalizing k with
  | pure | throw | next =>
    cases hy
    exact ⟨rfl, rfl⟩
  | peek h =>
    cases hy with
    | peek h' =>
      rw [h] at h'
      exact ⟨h', rfl⟩
    | peekFault h' =>
      rw [h] at h'
      cases h'
  | peekFault h =>
    cases hy with
    | peek h' =>
      rw [h] at h'
      cases h'
    | peekFault h' =>
      rw [h] at h'
      cases h'
      exact ⟨rfl, rfl⟩
  | bind _ _ ihm ihf =>
    cases hy with
    | bind hm hf =>
      obtain ⟨ha, rfl⟩ := ihm hm
      cases ha
      exact ihf hf
    | bindFault hm =>
      obtain ⟨ha, -⟩ := ihm hm
      cases ha
  | bindFault _ ihm =>
    cases hy with
    | bind hm hf =>
      obtain ⟨ha, -⟩ := ihm hm
      cases ha
    | bindFault hm =>
      obtain ⟨ha, rfl⟩ := ihm hm
      cases ha
      exact ⟨rfl, rfl⟩
  | done _ ih =>
    cases hy with
    | done h' =>
      obtain ⟨ha, rfl⟩ := ih h'
      cases ha
      exact ⟨rfl, rfl⟩
    | yield h' _ =>
      obtain ⟨ha, -⟩ := ih h'
      cases ha
    | loopFault h' =>
      obtain ⟨ha, -⟩ := ih h'
      cases ha
  | yield _ _ ih ihrest =>
    cases hy with
    | done h' =>
      obtain ⟨ha, -⟩ := ih h'
      cases ha
    | yield h' hrest =>
      obtain ⟨ha, rfl⟩ := ih h'
      cases ha
      exact ihrest hrest
    | loopFault h' =>
      obtain ⟨ha, -⟩ := ih h'
      cases ha
  | loopFault _ ih =>
    cases hy with
    | done h' =>
      obtain ⟨ha, -⟩ := ih h'
      cases ha
    | yield h' _ =>
      obtain ⟨ha, -⟩ := ih h'
      cases ha
    | loopFault h' =>
      obtain ⟨ha, rfl⟩ := ih h'
      cases ha
      exact ⟨rfl, rfl⟩

/-- A pass of a loop that asks for another pass has taken a token. -/
def Descending {α : Type} : Script α → Prop
  | .bind m f => m.Descending ∧ ∀ a, (f a).Descending
  | .loop step _ => (∀ b, (step b).Descending) ∧ Descends Reader.size fun b => (step b).read
  | _ => True

end Script

/-- The computation is a script that is run. -/
def Scripted {α : Type} (m : ReadM α) : Prop := ∃ p : Script α, p.Descending ∧ p.read = m

namespace Scripted
open Reader
variable {α β : Type}

theorem pure (a : α) : Scripted (pure a : ReadM α) := ⟨.pure a, trivial, rfl⟩

theorem throw (f : Fault) : Scripted (throw f : ReadM α) := ⟨.throw f, trivial, rfl⟩

theorem next : Scripted Reader.next := ⟨.next, trivial, rfl⟩

theorem peek : Scripted Reader.peek := ⟨.peek, trivial, rfl⟩

theorem bind {m : ReadM α} {f : α → ReadM β} (hm : Scripted m) (hf : ∀ a, Scripted (f a)) :
    Scripted (m >>= f) := by
  obtain ⟨p, hp, rfl⟩ := hm
  choose q hq hread using hf
  obtain rfl : (fun a => (q a).read) = f := funext hread
  exact ⟨.bind p q, ⟨hp, hq⟩, rfl⟩

theorem discard {m : ReadM α} (hm : Scripted m) : Scripted (discard m : ReadM PUnit) :=
  hm.bind fun _ => pure _

theorem loop {step : β → ReadM (ForInStep β)} (h : ∀ b, Scripted (step b))
    (hd : Descends Reader.size step) (b : β) : Scripted (loop Reader.size step b) := by
  choose p hp hread using h
  obtain rfl : (fun b => (p b).read) = step := funext hread
  exact ⟨.loop p b, ⟨hp, hd⟩, rfl⟩

theorem atSymbol (s : Symbol) : Scripted (atSymbol s) := peek.bind fun _ => pure _

theorem expectSymbol (s : Symbol) : Scripted (expectSymbol s) := by
  refine next.bind fun l => ?_
  split
  · exact pure _
  · exact throw _

theorem expectName : Scripted expectName := by
  refine next.bind fun l => ?_
  split
  · exact pure _
  · exact throw _

theorem variableName : Scripted variableName := expectName.bind fun _ => pure _

theorem nextItem {item : ReadM α} (h : Scripted item) (found : List α) :
    Scripted (nextItem item found) := by
  refine (atSymbol _).bind fun atEnd => ?_
  split
  · exact pure _
  · refine h.bind fun x => (atSymbol _).bind fun atClose => ?_
    split
    · exact pure _
    · exact (expectSymbol _).discard.bind fun _ => pure _

theorem items {item : ReadM α} (h : Scripted item) (hc : Consumes Reader.size item) :
    Scripted (items item) :=
  (loop (nextItem h) (descends_nextItem hc) []).bind fun _ =>
    (expectSymbol _).bind fun _ => pure _

end Scripted

/-! ## Expressions -/

namespace Expression
open Reader

/-- The readers of a level are scripts. -/
structure Scripts (n : Nat) : Prop where
  operand : Scripted (operand (descend n))
  operation (stops : List String) (minimum : Nat) : Scripted (operation (descend n) stops minimum)

/-- What opens a level is read by the readers of that level, or there are none. -/
theorem scripted_descend {n : Nat} {β : Type} {span : Span} {f : Level → ReadM β}
    (hf : ∀ m, n = m + 1 → Scripted (f ⟨operand (descend m), operation (descend m)⟩)) :
    Scripted (descend n span >>= f) := by
  cases n with
  | zero =>
    rw [descend_zero_bind]
    exact .throw _
  | succ m =>
    rw [descend_succ_bind]
    exact hf m rfl

theorem scripted_stringValue (raw : String) (span : Span) : Scripted (stringValue raw span) := by
  unfold stringValue
  split
  · exact .throw _
  · split
    · exact .pure _
    · exact .throw _
    · exact .throw _

section Levels
variable {n : Nat} (hn : ∀ m, n = m + 1 → Scripts m)
include hn

theorem scripted_arguments : Scripted (arguments (descend n)) :=
  (Scripted.expectSymbol _).bind fun _ => scripted_descend fun m hm =>
    .items ((hn m hm).operation _ _) (consumes_operation (tokenWise_descend m) _ _)

theorem scripted_primary : Scripted (primary (descend n)) := by
  refine Scripted.next.bind fun l => ?_
  unfold primaryFrom
  split
  · exact .pure _
  · exact scripted_stringValue _ _
  · exact .pure _
  · exact scripted_descend fun m hm => ((hn m hm).operation _ _).bind fun _ =>
      (Scripted.expectSymbol _).discard.bind fun _ => .pure _
  · exact .throw _

theorem scripted_nextSuffix (e : Expression) : Scripted (nextSuffix (descend n) e) := by
  refine (Scripted.atSymbol _).bind fun atDot => ?_
  split
  · exact Scripted.next.discard.bind fun _ => Scripted.variableName.bind fun _ => .pure _
  · refine (Scripted.atSymbol _).bind fun atParen => ?_
    split
    · exact (scripted_arguments hn).bind fun _ => .pure _
    · exact .pure _

theorem scripted_term : Scripted (term (descend n)) :=
  (scripted_primary hn).bind fun _ =>
    .loop (scripted_nextSuffix hn) (descends_nextSuffix (tokenWise_descend n)) _

theorem scripted_operand : Scripted (operand (descend n)) := by
  refine Scripted.peek.bind fun l => ?_
  split
  · exact scripted_term hn
  · exact Scripted.next.discard.bind fun _ => scripted_descend fun m hm =>
      (hn m hm).operand.bind fun _ => .pure _

theorem scripted_nextJoint (stops : List String) (minimum : Nat) (left : Expression) :
    Scripted (nextJoint (descend n) stops minimum left) := by
  refine Scripted.peek.bind fun l => ?_
  split
  · exact .pure _
  · exact Scripted.next.discard.bind fun _ => (scripted_term hn).bind fun _ => .pure _
  · exact Scripted.next.discard.bind fun _ => scripted_descend fun m hm =>
      ((hn m hm).operation _ _).bind fun _ => .pure _

theorem scripts_of_deeper : Scripts n where
  operand := scripted_operand hn
  operation stops minimum := (scripted_operand hn).bind fun _ =>
    .loop (scripted_nextJoint hn stops minimum)
      (descends_nextJoint (tokenWise_descend n) stops minimum) _

end Levels

theorem scripts (n : Nat) : Scripts n := by
  induction n using levels_induction with
  | level n hn => exact scripts_of_deeper hn

theorem scripted_read (n : Nat) (stops : List String) : Scripted (read n stops) :=
  (scripts n).operation stops 0

end Expression
end TemplateSyntax
