import TemplateSyntax.Proofs.CallStructure
import TemplateSyntax.Proofs.TokenLedger
import Mathlib.Logic.Relation

/-!
# The order of calls

While it carries out its plan a reader calls others. A call either opens a level behind a token
that was taken, or stays at its level and comes to a reader of lower rank, or is the next pass of the
same loop and stands behind a token that the last pass has taken. Hence no chain of calls comes back
to a reader without a token taken; and unless the chain is nothing but passes of one loop, it has
opened a level.
-/
namespace TemplateSyntax
open Reader Draft

/-! ## Readers and their ranks -/

/-- The readers and the loops, whatever their arguments. -/
inductive Procedure where
  | operation | operand | term | primary | arguments
  | body | tag | ifTag | forTag | callTag | filterTag | blockTag | macroTag
  | suffixLoop | jointLoop | argumentLoop | parameterLoop | nameLoop | filterLoop | armLoop
  | pieceLoop
  deriving DecidableEq

/-- A reader calls at its own level only readers of lower rank. -/
@[simp] def Procedure.rank : Procedure → Nat
  | primary | arguments | nameLoop => 0
  | suffixLoop => 1
  | term => 2
  | operand | jointLoop | filterLoop => 3
  | operation => 4
  | argumentLoop | parameterLoop | armLoop => 5
  | ifTag | forTag | callTag | filterTag | blockTag | macroTag => 6
  | tag => 7
  | pieceLoop => 8
  | body => 9

theorem Procedure.rank_lt (x : Procedure) : x.rank < 10 := by
  cases x <;> decide

namespace Repetition
variable {β : Type}

@[simp] def procedure : Repetition β → Procedure
  | suffixes _ => .suffixLoop
  | joints _ _ _ => .jointLoop
  | arguments _ => .argumentLoop
  | parameters _ => .parameterLoop
  | names => .nameLoop
  | filters _ => .filterLoop
  | arms _ => .armLoop
  | pieces _ _ => .pieceLoop

/-- How many levels are left, with the one that the loop runs in. No level matters to names. -/
@[simp] def levels : Repetition β → Nat
  | suffixes n | joints n _ _ | arguments n | parameters n | filters n | arms n | pieces n _ => n + 1
  | names => 0

end Repetition

namespace Routine
variable {α β : Type}

@[simp] def procedure : Routine α → Procedure
  | operation _ _ _ => .operation
  | operand _ => .operand
  | term _ => .term
  | primary _ => .primary
  | arguments _ => .arguments
  | body _ _ => .body
  | tag _ _ _ => .tag
  | ifTag _ _ => .ifTag
  | forTag _ _ => .forTag
  | callTag _ _ => .callTag
  | filterTag _ _ => .filterTag
  | blockTag _ _ => .blockTag
  | macroTag _ _ => .macroTag
  | passes p _ => p.procedure

/-- How many levels are left, with the one that the reader runs in. A body runs in the level that it
opens, so none is left for a body that may open none. -/
@[simp] def levels : Routine α → Nat
  | operation n _ _ | operand n | term n | primary n | arguments n => n + 1
  | body n _ => n
  | tag n _ _ | ifTag n _ | forTag n _ | callTag n _ | filterTag n _ | blockTag n _
  | macroTag n _ => n + 1
  | passes p _ => p.levels

/-- How many tokens are taken at least when the reader succeeds, if it was `n` before. -/
@[simp] def behind : Routine α → Int → Int
  | operation _ _ _, n | operand _, n | term _, n | primary _, n | arguments _, n => n + 1
  | _, n => n

theorem behind_mono (c : Routine α) {m n : Int} (h : m ≤ n) : c.behind m ≤ c.behind n := by
  cases c <;> simpa using h

theorem le_behind (c : Routine α) (n : Int) : n ≤ c.behind n := by
  cases c <;> simp

/-- The first loop goes on with the passes of the second. -/
inductive Continues : {α β : Type} → Routine α → Routine β → Prop
  | again {β : Type} (p : Repetition β) (b b' : β) : Continues (passes p b) (passes p b')

theorem Continues.eq {c : Routine α} {c' : Routine β} (h : c.Continues c') :
    c'.procedure = c.procedure ∧ c'.levels = c.levels := by
  cases h
  exact ⟨rfl, rfl⟩

/-- What a routine may call that has come to its start with the ledger `n` and `k`. -/
structure MayCall (c : Routine α) (n k : Int) (c' : Routine β) (d : Draft) : Prop where
  ledger : d.Ledger n k
  goes : c'.levels < c.levels ∧ d.Ledger (n + 1) k ∨
    c'.levels = c.levels ∧ c'.procedure.rank < c.procedure.rank ∨
    c.Continues c' ∧ d.Ledger (n + 1) k

/-- The ledger is kept by a routine from this draft on. -/
def Accounts (c : Routine α) (d : Draft) : Prop :=
  Ends (fun _ => Draft.Ledger (c.behind d.reader.taken) (d.reader.taken + d.reader.size))
    (fun _ => Draft.Capped (d.reader.taken + d.reader.size)) (c.run d)

end Routine

/-! ## Calls -/

/-- The calls that are made when a plan is carried out from a draft, and the drafts in which they
are made. -/
inductive Plan.Calls : {α : Type} → Plan α → Draft → {β : Type} → Routine β → Draft → Prop
  | here {α β : Type} {c : Routine β} {next : β → Plan α} {d : Draft} : Calls (.call c next) d c d
  | acted {α β γ : Type} {m : DraftM β} {next : β → Plan α} {c : Routine γ} {a : β}
      {d t u : Draft} (hm : m d = .ok a t) (h : Calls (next a) t c u) : Calls (.act m next) d c u
  | returned {α β γ : Type} {c : Routine β} {next : β → Plan α} {c' : Routine γ} {a : β}
      {d t u : Draft} (hc : c.run d = .ok a t) (h : Calls (next a) t c' u) :
      Calls (.call c next) d c' u

/-- A call of one of two plans in a row is one of either. -/
theorem Plan.calls_bind {α β γ : Type} {p : Plan α} {f : α → Plan β} {c : Routine γ} {d t : Draft}
    (h : (p >>= f).Calls d c t) :
    p.Calls d c t ∨ ∃ a u, p.run d = .ok a u ∧ (f a).Calls u c t := by
  change (p.bind f).Calls d c t at h
  induction p generalizing d with
  | done a => exact .inr ⟨a, d, rfl, h⟩
  | act m next ih =>
    cases h with
    | acted hm h =>
      obtain h | ⟨b, u, hr, h⟩ := ih _ h
      · exact .inl (.acted hm h)
      · exact .inr ⟨b, u, (run_bind_ok hm).trans hr, h⟩
  | call c₀ next ih =>
    cases h with
    | here => exact .inl .here
    | returned hc h =>
      obtain h | ⟨b, u, hr, h⟩ := ih _ h
      · exact .inl (.returned hc h)
      · exact .inr ⟨b, u, (run_bind_ok hc).trans hr, h⟩

/-- Carried out from a draft with `I`, a plan makes calls that are allowed only and ends as stated,
provided that every routine allowed keeps the ledger. -/
def Plan.Leads {α : Type} (Allowed : {β : Type} → Routine β → Draft → Prop) (k : Int)
    (I : Draft → Prop) (p : Plan α) (J : α → Draft → Prop) : Prop :=
  (∀ {β : Type} (c : Routine β) (d : Draft), Allowed c d → c.Accounts d) →
    Ensures I p.run J (fun _ => Capped k) ∧
      ∀ d, I d → ∀ {β : Type} (c : Routine β) (t : Draft), p.Calls d c t → Allowed c t

namespace Plan.Leads
variable {α β : Type} {Allowed : {β : Type} → Routine β → Draft → Prop} {k n m : Int}
variable {I I' : Draft → Prop} {J J' : α → Draft → Prop} {p : Plan α}

theorem pure {a : α} (h : ∀ d, I d → J a d) : Leads Allowed k I (pure a) J :=
  fun _ => ⟨Ensures.pure h, fun _ _ _ _ _ hc => nomatch hc⟩

theorem act {x : DraftM α} (h : Ensures I x J fun _ => Capped k) :
    Leads Allowed k I (liftM x) J := by
  refine fun _ => ⟨by rwa [run_act], fun d hd β c t hc => ?_⟩
  cases hc with
  | acted _ h => cases h

theorem read {P : Reader → Prop} {Q : α → Reader → Prop} {x : ReadM α}
    (h : Ensures P x Q fun _ => Reader.Capped k) :
    Leads Allowed k (fun d => P d.reader) (liftM x) (fun a d => Q a d.reader) :=
  act (ledger_lift h)

theorem bind {Q : β → Draft → Prop} {q : Plan β} {f : β → Plan α} (hq : Leads Allowed k I q Q)
    (hf : ∀ b, Leads Allowed k (Q b) (f b) J) : Leads Allowed k I (q >>= f) J := by
  intro ha
  refine ⟨?_, fun d hd β c t hc => ?_⟩
  · rw [Plan.run_bind]
    exact (hq ha).1.bind fun b => (hf b ha).1
  · obtain hc | ⟨b, u, hr, hc⟩ := calls_bind hc
    · exact (hq ha).2 d hd c t hc
    · exact (hf b ha).2 u ((hq ha).1.ok hd hr) c t hc

theorem mono (h : Leads Allowed k I p J) (hI : ∀ d, I' d → I d) (hJ : ∀ a d, J a d → J' a d) :
    Leads Allowed k I' p J' :=
  fun ha => ⟨(h ha).1.mono hI hJ fun _ _ h => h, fun d hd => (h ha).2 d (hI d hd)⟩

theorem before (h : Leads Allowed k I p J) (hI : ∀ d, I' d → I d) : Leads Allowed k I' p J :=
  h.mono hI fun _ _ h => h

theorem after (h : Leads Allowed k I p J) (hJ : ∀ a d, J a d → J' a d) : Leads Allowed k I p J' :=
  h.mono (fun _ h => h) hJ

theorem throw {f : Fault} (h : ∀ d, I d → d.Capped k) :
    Leads Allowed k I (liftM (throw f : DraftM α)) J :=
  act (Ensures.throw h)

theorem call {c : Routine α} (h : ∀ d : Draft, d.Ledger n k → Allowed c d) :
    Leads Allowed k (Draft.Ledger n k) (ofCall c) (fun _ => Draft.Ledger (c.behind n) k) := by
  refine fun ha => ⟨fun d hd => ?_, fun d hd β c' t hc => ?_⟩
  · have haccounts := ha c d (h d hd)
    rw [run_ofCall]
    unfold Routine.Accounts at haccounts
    cases hr : c.run d with
    | ok a t =>
      rw [hr] at haccounts
      exact ⟨(c.behind_mono hd.lower).trans haccounts.lower, haccounts.upper.trans hd.upper⟩
    | error f t =>
      rw [hr] at haccounts
      exact haccounts.trans hd
  · cases hc with
    | here => exact h d hd
    | returned _ h => cases h

theorem aside {x : DraftM α} (h : Aside x) :
    Leads Allowed k (Draft.Ledger n k) (liftM x) (fun _ => Draft.Ledger n k) :=
  act (ledger_aside h)

/-- A level is opened if one is left. -/
theorem opened {x : Nat} {span : Span} {next : Nat → Plan α} (hI : ∀ d, I d → d.Capped k)
    (h : ∀ y, x = y + 1 → Leads Allowed k I (next y) J) :
    Leads Allowed k I (Plan.opened x span next) J := by
  cases x with
  | zero => exact throw hI
  | succ y => exact h y rfl

variable {c : Routine β}

/-- A call of a reader of lower rank at the same level. -/
theorem below (c' : Routine α) (hl : c'.levels = c.levels)
    (hr : c'.procedure.rank < c.procedure.rank) (hm : n ≤ m) :
    Leads (c.MayCall n k) k (Draft.Ledger m k) (ofCall c')
      (fun _ => Draft.Ledger (c'.behind m) k) :=
  call fun _ hd => ⟨hd.weaken hm, .inr (.inl ⟨hl, hr⟩)⟩

/-- A call that opens a level, behind a token that was taken. -/
theorem deeper (c' : Routine α) (hl : c'.levels < c.levels) (hm : n + 1 ≤ m) :
    Leads (c.MayCall n k) k (Draft.Ledger m k) (ofCall c')
      (fun _ => Draft.Ledger (c'.behind m) k) :=
  call fun _ hd => ⟨hd.weaken (by omega), .inl ⟨hl, hd.weaken hm⟩⟩

end Plan.Leads
end TemplateSyntax
