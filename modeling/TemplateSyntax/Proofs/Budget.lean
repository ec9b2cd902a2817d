import TemplateSyntax.Proofs.CallDescent
import TemplateSyntax.Proofs.Session

/-!
# Reading within a budget

Readers can also be run on a budget that each call and each further pass of a loop draws on. Since
every call has less weight than the one that makes it, a budget that is linear in what is left of
the text is never used up, and what is read is what would be read without one. The ledger of tokens
gives the bound for the other resource: how often a token is read from the text.
-/
namespace TemplateSyntax
open Reader Draft

/-! ## Budgets -/

/-- A computation without a budget among those that have one. An exhausted budget is no fault. -/
def unbounded {α : Type} (m : DraftM α) : EStateM (Option Fault) Draft α := fun d =>
  match m d with
  | .ok a t => .ok a t
  | .error f t => .error (some f) t

/-- A plan carried out with other readers in the place of those that it calls. -/
def Plan.within {α : Type} (calls : {β : Type} → Routine β → EStateM (Option Fault) Draft β) :
    Plan α → EStateM (Option Fault) Draft α
  | done a => pure a
  | act m next => unbounded m >>= fun x => (next x).within calls
  | call c next => calls c >>= fun x => (next x).within calls

/-- A reader on a budget. One unit pays for the reader itself; the rest is handed to every reader
that it calls, and to the passes of a loop that are still to come. -/
def Routine.within : Nat → {α : Type} → Routine α → EStateM (Option Fault) Draft α
  | 0, _, _ => throw none
  | k + 1, _, c => c.plan.within (within k)

section Exactness
variable {α β : Type}

theorem unbounded_bind (m : DraftM α) (f : α → DraftM β) :
    unbounded (m >>= f) = unbounded m >>= fun a => unbounded (f a) := by
  funext d
  rw [run_bind]
  unfold unbounded
  rw [run_bind]
  cases m d <;> rfl

/-- Readers that answer like the ones in whose place they are called change nothing. -/
theorem Plan.within_eq {calls : {β : Type} → Routine β → EStateM (Option Fault) Draft β}
    {p : Plan α} {d : Draft}
    (h : ∀ {β : Type} (c : Routine β) (t : Draft), p.Calls d c t → calls c t = unbounded c.run t) :
    p.within calls d = unbounded p.run d := by
  induction p generalizing d with
  | done a => rfl
  | act m next ih =>
    rw [within, run, unbounded_bind, TemplateSyntax.run_bind, TemplateSyntax.run_bind]
    cases hm : m d with
    | ok a t =>
      simp only [unbounded, hm]
      exact ih a fun c u hc => h c u (.acted hm hc)
    | error f t => simp only [unbounded, hm]
  | call c next ih =>
    rw [within, run, unbounded_bind, TemplateSyntax.run_bind, TemplateSyntax.run_bind, h c d .here]
    cases hc : c.run d with
    | ok a t =>
      simp only [unbounded, hc]
      exact ih a fun c' u hc' => h c' u (.returned hc hc')
    | error f t => simp only [unbounded, hc]

/-- More than the weight of a call is enough. -/
theorem Routine.within_eq {c : Routine α} {d : Draft} {k : Nat} (h : c.weight d < k) :
    c.within k d = unbounded c.run d := by
  induction k generalizing α c d with
  | zero => exact absurd h (Nat.not_lt_zero _)
  | succ k ih =>
    rw [within, ← run_plan]
    refine Plan.within_eq fun c' t hc => ih ?_
    exact (mayCall hc).weight_lt.trans_le (Nat.le_of_lt_succ h)

theorem Reader.size_le (r : Reader) : r.size ≤ r.cursor.rest.length + 1 := by
  cases hp : r.peeked with
  | none =>
    rw [size_of_not_peeked hp]
    exact Nat.le_succ _
  | some l =>
    rw [size_of_peeked hp]
    split <;> omega

/-- The weight of a call is linear in what is left of the text. -/
theorem Routine.weight_lt (c : Routine α) (d : Draft) :
    c.weight d < 10 * (d.reader.cursor.rest.length + 2) := by
  have hrank := c.procedure.rank_lt
  have hsize := d.reader.size_le
  unfold weight
  omega

end Exactness

/-! ## Tokens read from the text -/

/-- A computation that reads no more tokens from the text than characters are left, and perhaps the
end of the source. -/
def Draft.Sparing {α : Type} (m : DraftM α) : Prop :=
  ∀ n, Ensures (fun d => d.reader.fetches + d.reader.cursor.rest.length ≤ n) m
    (fun _ t => t.reader.fetches ≤ n + 1) (fun _ t => t.reader.fetches ≤ n + 1)

theorem Routine.sparing {α : Type} (c : Routine α) : Sparing c.run := by
  intro n d hd
  have hends := c.accounts d
  have hsum := d.reader.taken_add_size_le
  have hmost {t : Draft} (ht : t.Capped (d.reader.taken + d.reader.size)) :
      t.reader.fetches ≤ n + 1 := by
    change (t.reader.fetches : Int) ≤ _ at ht
    omega
  unfold Accounts at hends
  cases hr : c.run d with
  | ok a t =>
    rw [hr] at hends
    exact hmost (Reader.Ledger.capped hends)
  | error f t =>
    rw [hr] at hends
    exact hmost hends

namespace Session

/-- The reader of all pieces that are left. -/
def pieces : Routine (Option Closing) := .passes (.pieces depthLimit []) none

/-- How often a token was read from the text. -/
def fetches (s : Session) : Nat := s.draft.reader.fetches

theorem fetches_run_le {α : Type} {m : DraftM α} (h : Sparing m) (s : Session) :
    (s.run m).2.fetches ≤ s.fetches + s.cursor.rest.length + 1 := by
  unfold Session.run
  cases hr : m s.draft with
  | ok a t => exact (h _).ok (Nat.le_refl _) hr
  | error f t => exact (h _).error (Nat.le_refl _) hr

theorem fetches_process (s : Session) : s.process.2.fetches = (s.run readAll).2.fetches := by
  unfold process
  cases s.run readAll with
  | mk result t => cases result <;> rfl

/-- A template is taken out without another token. -/
theorem reader_generate (s : Session) : s.generate.2.draft.reader = s.process.2.draft.reader := by
  unfold generate
  cases s.process with
  | mk result t =>
    cases result with
    | error e => rfl
    | ok _ =>
      dsimp only
      split <;> rfl

theorem fetches_generate (s : Session) : s.generate.2.fetches = s.process.2.fetches :=
  congrArg Reader.fetches s.reader_generate

theorem fetches_process_le (s : Session) :
    s.process.2.fetches ≤ s.fetches + s.cursor.rest.length + 1 := by
  rw [fetches_process]
  exact fetches_run_le (fun n => (pieces.sparing n).discard) s

end Session

/-- Reading ends within a linear budget. The plan of every reader is what the reader does. A pass of
a loop that asks for another one has taken a token; a chain of calls that comes back to a reader has
taken a token and opened a level, unless it is nothing but passes of one loop. A call of a session
reads from the text no more tokens than characters are left, and the end of the source once. On a
budget of ten units for each character that is left, and twenty more, every reader answers as it
does without one, and so do the readers that the calls of a session run. -/
theorem reading_within_budget :
    (∀ {α : Type} (c : Routine α), c.plan.run = c.run) ∧
    (∀ {β : Type} (p : Repetition β) (b b' : β) (d t : Draft),
      p.pass b d = .ok (.yield b') t → d.reader.taken < t.reader.taken) ∧
    (∀ x y : Moment, Relation.TransGen Moment.Calls x y →
      y.routine.procedure = x.routine.procedure →
      x.draft.reader.taken < y.draft.reader.taken ∧
        (y.routine.levels < x.routine.levels ∨ Relation.TransGen Moment.Repeats x y)) ∧
    (∀ s : Session, s.process.2.fetches ≤ s.fetches + s.cursor.rest.length + 1 ∧
      s.generate.2.fetches ≤ s.fetches + s.cursor.rest.length + 1 ∧
      ∀ stops, (s.expression stops).2.fetches ≤ s.fetches + s.cursor.rest.length + 1) ∧
    (∀ {α : Type} (c : Routine α) (d : Draft) (k : Nat),
      10 * (d.reader.cursor.rest.length + 2) ≤ k → c.within k d = unbounded c.run d) ∧
    (readAll = discard Session.pieces.run ∧ ∀ stops,
      (liftM (Expression.read depthLimit stops) : DraftM Expression) =
        (Routine.operation depthLimit stops 0).run) := by
  refine ⟨Routine.run_plan, fun p b b' d t h => Repetition.taken_lt_of_yield h,
    fun x y h hp => Moment.cycle h hp, fun s => ⟨s.fetches_process_le, ?_, fun stops => ?_⟩,
    fun c d k hk => Routine.within_eq ((c.weight_lt d).trans_le hk), rfl, fun stops => rfl⟩
  · rw [Session.fetches_generate]
    exact s.fetches_process_le
  · exact Session.fetches_run_le (Routine.operation depthLimit stops 0).sparing s

/-- A comma asks for another name. The operand of a sign is an operand again, a level deeper. -/
theorem reading_within_budget_minus :
    (∃ b t, Repetition.names.pass ([], .empty .start) (.ofText ", x") = .ok (.yield b) t ∧
      (Draft.ofText ", x").reader.taken < t.reader.taken) ∧
    (∃ t, Relation.TransGen Moment.Calls ⟨.operand 1, .ofText "-1"⟩ ⟨.operand 0, t⟩ ∧
      (Draft.ofText "-1").reader.taken < t.reader.taken) ∧
    (Routine.operand 1).within 40 (.ofText "-1") =
      unbounded (Routine.operand 1).run (.ofText "-1") := by
  obtain ⟨-, hpass, hcycle, -, hbudget, -⟩ := reading_within_budget
  refine ⟨?_, ?_, hbudget _ _ _ (by decide +kernel)⟩
  · have hname : nextName ([], .empty .start) { cursor := .ofText ", x" } =
        .ok (.yield ([⟨"x", ⟨⟨2, 1, 2⟩, ⟨3, 1, 3⟩⟩⟩], ⟨⟨0, 1, 0⟩, ⟨3, 1, 3⟩⟩))
          ⟨⟨⟨3, 1, 3⟩, []⟩, none, 2⟩ := by decide +kernel
    have hyield := run_lift_ok (d := .ofText ", x") hname
    exact ⟨_, _, hyield, hpass .names _ _ _ _ hyield⟩
  · let l : Lexeme := ⟨.symbol .minus, ⟨⟨0, 1, 0⟩, ⟨1, 1, 1⟩⟩⟩
    have hpeek : peek { cursor := .ofText "-1" } = .ok l ⟨⟨⟨1, 1, 1⟩, ['1']⟩, some l, 1⟩ := by
      decide +kernel
    have hnext : next ⟨⟨⟨1, 1, 1⟩, ['1']⟩, some l, 1⟩ = .ok l ⟨⟨⟨1, 1, 1⟩, ['1']⟩, none, 1⟩ := rfl
    have hpeeked := run_lift_ok (d := .ofText "-1") hpeek
    have htaken := run_lift_ok (d := { Draft.ofText "-1" with
      reader := ⟨⟨⟨1, 1, 1⟩, ['1']⟩, some l, 1⟩ }) hnext
    have hcalls : Moment.Calls ⟨.operand 1, .ofText "-1"⟩ ⟨.operand 0, _⟩ :=
      .acted hpeeked (.acted htaken .here)
    exact ⟨_, .single hcalls, (hcycle _ _ (.single hcalls) rfl).1⟩

end TemplateSyntax
