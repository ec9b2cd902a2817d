import TemplateSyntax.Proofs.CallOrder

/-!
# Every call descends

Reader by reader, the plans are shown to make only calls that descend in the order of calls, and to
keep the ledger of tokens if the readers that they call do. As every such call has less weight than
the one that makes it, all readers keep the ledger. What one call does then holds along every chain
of calls: the chain has opened a level behind a token that was taken, or has come to a reader of
lower rank, or has made passes of one loop.
-/
namespace TemplateSyntax
open Reader Draft Plan

namespace Plan.Leads
variable {α β : Type} {c : Routine β} {x : Nat} {n m k : Int}

section Parts

/-- An expression is an operation of the same level. -/
theorem readPlan (stops : List String) (hl : x + 1 = c.levels) (hr : 4 < c.procedure.rank)
    (hm : n ≤ m) :
    Leads (c.MayCall n k) k (Draft.Ledger m k) (Plan.read x stops)
      (fun _ => Draft.Ledger (m + 1) k) :=
  below (.operation x stops 0) hl hr hm

theorem lastExpression (hl : x + 1 = c.levels) (hr : 4 < c.procedure.rank)
    (hm : n ≤ m) :
    Leads (c.MayCall n k) k (Draft.Ledger m k) (Plan.lastExpression x)
      (fun _ => Draft.Ledger (m + 1) k) :=
  (readPlan _ hl hr hm).bind fun _ => (read (ledger_expectSymbol _)).bind fun _ =>
    pure fun _ h => h.earlier

theorem pattern (hl : 0 < c.levels) (hm : n ≤ m) :
    Leads (c.MayCall n k) k (Draft.Ledger m k) Plan.pattern (fun _ => Draft.Ledger (m + 1) k) := by
  refine (read ledger_variableName).bind fun first => (read (ledger_atSymbol _)).bind fun b => ?_
  split
  · refine bind (before (deeper (.passes .names _) hl (by omega)) fun _ h => h.1) fun _ => ?_
    exact pure fun _ h => h
  · exact pure fun _ h => h.1

/-- Filters are terms of the same level. -/
theorem placeable (opening : Span) (hl : x + 1 = c.levels) (hr : 4 < c.procedure.rank)
    (hm : n ≤ m) :
    Leads (c.MayCall n k) k (Draft.Ledger m k) (Plan.placeable x opening)
      (fun _ => Draft.Ledger (m + 1) k) :=
  (readPlan _ hl hr hm).bind fun _ =>
    bind (below (.passes (.filters x) _) hl (Nat.lt_of_succ_lt hr) (by omega)) fun _ =>
    (read (ledger_expectSymbol _)).bind fun _ => pure fun _ h => h.earlier

theorem items {p : Repetition (List α)}
    (hp : Leads (c.MayCall n k) k (Draft.Ledger m k) (ofCall (.passes p []))
      (fun _ => Draft.Ledger m k)) :
    Leads (c.MayCall n k) k (Draft.Ledger m k) (Plan.items p) (fun _ => Draft.Ledger (m + 1) k) :=
  hp.bind fun _ => (read (ledger_expectSymbol _)).bind fun _ => pure fun _ h => h

/-- What is kept by a pass: with a token taken if another pass is asked for. -/
abbrev Goes (m k : Int) : ForInStep α → Draft → Prop :=
  OnPass (fun _ => Draft.Ledger m k) (fun _ => Draft.Ledger (m + 1) k)

theorem nextItem {p : Plan α}
    (hp : Leads (c.MayCall n k) k (Draft.Ledger n k) p (fun _ => Draft.Ledger (n + 1) k))
    (found : List α) :
    Leads (c.MayCall n k) k (Draft.Ledger n k) (Plan.nextItem p found) (Goes n k) := by
  refine (read (ledger_atSymbol _)).bind fun atEnd => ?_
  split
  · exact pure fun _ h => h.1
  · refine (hp.before fun _ h => h.1).bind fun a => (read (ledger_atSymbol _)).bind fun b => ?_
    split
    · exact pure fun _ h => h.1
    · refine bind (before (read (ledger_expectSymbol _)) fun _ h => h.1) fun _ => ?_
      exact pure fun _ h => h.earlier

theorem parameter (hl : x + 1 = c.levels) (hr : 4 < c.procedure.rank) :
    Leads (c.MayCall n k) k (Draft.Ledger n k) (Plan.parameter x)
      (fun _ => Draft.Ledger (n + 1) k) := by
  refine (read ledger_expectName).bind fun name => (read (ledger_atSymbol _)).bind fun b => ?_
  split
  · next hb =>
    refine bind (before (read ledger_next_pending) fun _ h => ⟨h.1, h.2 hb⟩) fun _ => ?_
    exact (readPlan _ hl hr (by omega)).bind fun _ => pure fun _ h => h.earlier.earlier
  · exact pure fun _ h => h.1

theorem setTag (opening : Span) (hl : x + 1 = c.levels) (hr : 4 < c.procedure.rank) :
    Leads (c.MayCall n k) k (Draft.Ledger n k) (Plan.setTag x opening)
      (fun _ => Draft.Ledger n k) :=
  (pattern (by omega) le_rfl).bind fun _ => (read (ledger_expectSymbol _)).bind fun _ =>
    (readPlan _ hl hr (by omega)).bind fun _ => (read (ledger_expectSymbol _)).bind fun _ =>
    pure fun _ h => h.earlier.earlier.earlier.earlier

theorem extendsTag (hl : x + 1 = c.levels) (hr : 4 < c.procedure.rank) :
    Leads (c.MayCall n k) k (Draft.Ledger n k) (Plan.extendsTag x)
      (fun _ => Draft.Ledger n k) := by
  refine (lastExpression hl hr (by omega)).bind fun target => ?_
  refine (aside (aside_setParent _)).bind fun first => ?_
  split
  · exact pure fun _ h => h.earlier
  · exact throw fun _ h => h.capped

theorem loopCondition (hl : x + 1 = c.levels) (hr : 4 < c.procedure.rank)
    (hm : n ≤ m) :
    Leads (c.MayCall n k) k (Draft.Ledger m k) (Plan.loopCondition x)
      (fun _ => Draft.Ledger m k) := by
  refine (read (ledger_atKeyword _)).bind fun b => ?_
  split
  · next hb =>
    refine bind (before (read ledger_next_pending) fun _ h => ⟨h.1, h.2 hb⟩) fun _ => ?_
    exact (readPlan _ hl hr (by omega)).bind fun _ => pure fun _ h => h.earlier.earlier
  · exact pure fun _ h => h.1

theorem callArguments (hl : x + 1 = c.levels) (hr : 0 < c.procedure.rank)
    (hm : n ≤ m) :
    Leads (c.MayCall n k) k (Draft.Ledger m k) (Plan.callArguments x)
      (fun _ => Draft.Ledger m k) := by
  refine (read (ledger_atSymbol _)).bind fun b => ?_
  split
  · refine bind (before (below (.arguments x) hl hr hm) fun _ h => h.1) fun _ => ?_
    exact pure fun _ h => h.earlier
  · exact pure fun _ h => h.1

end Parts

/-! ## Passes -/

section Passes
variable {stops : List String} {minimum : Nat}

theorem suffixes (e : Expression) :
    Leads ((Routine.passes (.suffixes x) e).MayCall n k) k (Draft.Ledger n k)
      ((Repetition.suffixes x).plan e) (Goes n k) := by
  refine (read (ledger_atSymbol _)).bind fun atDot => ?_
  split
  · next hb =>
    refine bind (before (read ledger_next_pending) fun _ h => ⟨h.1, h.2 hb⟩) fun _ => ?_
    exact (read ledger_variableName).bind fun _ => pure fun _ h => h.earlier
  · refine bind (before (read (ledger_atSymbol _)) fun _ h => h.1) fun atParen => ?_
    split
    · refine bind (before (below (.arguments x) rfl (by simp) (by omega)) fun _ h => h.1)
        fun _ => ?_
      exact pure fun _ h => h
    · exact pure fun _ h => h.1

theorem joints (left : Expression) :
    Leads ((Routine.passes (.joints x stops minimum) left).MayCall n k) k (Draft.Ledger n k)
      ((Repetition.joints x stops minimum).plan left) (Goes n k) := by
  refine (read ledger_peek).bind fun l => ?_
  have taken (h : Expression.joint? stops minimum l.token ≠ none) :
      Leads ((Routine.passes (.joints x stops minimum) left).MayCall n k) k
        (fun d => d.reader.Ledger n k ∧ d.reader.peeked = some l) (liftM next)
        (fun _ => Draft.Ledger (n + 1) k) := by
    refine before (read ledger_next_pending) fun _ hd => ⟨hd.1, l, hd.2, fun hl => h ?_⟩
    rw [hl, Expression.joint?_endOfSource]
  split
  · exact pure fun _ h => h.1
  · next hj =>
    refine (taken (by simp [hj])).bind fun _ => ?_
    refine bind (below (.term x) rfl (by simp) (by omega)) fun _ => ?_
    exact pure fun _ h => h.earlier
  · next op binding hj =>
    refine (taken (by simp [hj])).bind fun _ => opened (fun _ h => h.capped) fun y hy => ?_
    refine bind (deeper (.operation y stops binding.rightMinimum) (by simp [hy]) (by omega))
      fun _ => ?_
    exact pure fun _ h => h.earlier

theorem names (found : List Variable × Span) :
    Leads ((Routine.passes .names found).MayCall n k) k (Draft.Ledger n k)
      (Repetition.names.plan found) (Goes n k) := by
  refine (read (ledger_atSymbol _)).bind fun b => ?_
  split
  · next hb =>
    refine bind (before (read ledger_next_pending) fun _ h => ⟨h.1, h.2 hb⟩) fun _ => ?_
    exact (read ledger_variableName).bind fun _ => pure fun _ h => h.earlier
  · exact pure fun _ h => h.1

theorem filters (found : List Expression) :
    Leads ((Routine.passes (.filters x) found).MayCall n k) k (Draft.Ledger n k)
      ((Repetition.filters x).plan found) (Goes n k) := by
  refine (read (ledger_atSymbol _)).bind fun b => ?_
  split
  · next hb =>
    refine bind (before (read ledger_next_pending) fun _ h => ⟨h.1, h.2 hb⟩) fun _ => ?_
    exact bind (below (.term x) rfl (by simp) (by omega)) fun _ => pure fun _ h => h.earlier
  · exact pure fun _ h => h.1

theorem arms (found : List (Arm Statement) × Closing) :
    Leads ((Routine.passes (.arms x) found).MayCall n k) k (Draft.Ledger n k)
      ((Repetition.arms x).plan found) (Goes n k) := by
  obtain ⟨arms, closing⟩ := found
  dsimp only [Repetition.plan]
  split
  · refine (lastExpression rfl (by simp) (by omega)).bind fun condition => ?_
    exact bind (deeper (.body x armClosers) (by simp) (by omega)) fun _ => pure fun _ h => h
  · exact pure fun _ h => h

theorem pieces {closers : List Keyword} (closing : Option Closing) :
    Leads ((Routine.passes (.pieces x closers) closing).MayCall n k) k (Draft.Ledger n k)
      ((Repetition.pieces x closers).plan closing) (Goes n k) := by
  refine (act ledger_opening).bind fun found => ?_
  cases found with
  | none => exact pure fun _ h => h.2
  | some l =>
    -- what opens a placeable or a tag is no end of the source
    have taken {s : Symbol} (hs : l.token = .symbol s) (d : Draft)
        (h : d.Capped k ∧ (l.token ≠ .endOfSource → d.Ledger (n + 1) k)) : d.Ledger (n + 1) k :=
      h.2 (by simp [hs])
    dsimp only
    split
    · next hs =>
      refine bind (before (placeable _ rfl (by simp) (by omega)) (taken hs)) fun s => ?_
      exact (aside (aside_push s)).bind fun _ => pure fun _ h => h.earlier
    · next hs =>
      refine bind (before (read ledger_expectName) (taken hs)) fun name => ?_
      refine (aside (aside_note _)).bind fun _ => ?_
      split
      · exact pure fun _ h => h.earlier.earlier
      · exact bind (below (.tag x l.span name) rfl (by simp) (by omega)) fun _ =>
          pure fun _ h => h.earlier
    · exact throw fun _ h => h.1

/-- The calls of a pass, and what it takes. -/
theorem pass (p : Repetition α) (b : α) :
    Leads ((Routine.passes p b).MayCall n k) k (Draft.Ledger n k) (p.plan b) (Goes n k) := by
  cases p with
  | suffixes x => exact suffixes b
  | joints x stops minimum => exact joints b
  | arguments x =>
    refine nextItem (p := ofCall (.operation x argumentStops 0)) ?_ b
    exact below _ rfl (by simp) (by omega)
  | parameters x => exact nextItem (parameter rfl (by simp)) b
  | names => exact names b
  | filters x => exact filters b
  | arms x => exact arms b
  | pieces x closers => exact pieces b

theorem passes (p : Repetition α) (b : α) :
    Leads ((Routine.passes p b).MayCall n k) k (Draft.Ledger n k) (Routine.passes p b).plan
      (fun _ => Draft.Ledger n k) := by
  refine (pass p b).bind fun r => ?_
  cases r with
  | done b' => exact pure fun _ h => h
  | yield b' =>
    refine (call fun d hd => ⟨hd.earlier, .inr (.inr ⟨.again p b b', hd⟩)⟩).after ?_
    exact fun _ _ h => h.earlier

end Passes

/-! ## Readers -/

section Routines
variable {stops : List String} {minimum : Nat} {opening : Span}

theorem operation : Leads ((Routine.operation x stops minimum).MayCall n k) k (Draft.Ledger n k)
    (Routine.operation x stops minimum).plan (fun _ => Draft.Ledger (n + 1) k) :=
  bind (below (.operand x) rfl (by simp) (by omega)) fun _ =>
    below (.passes (.joints x stops minimum) _) rfl (by simp) (Routine.le_behind _ n)

theorem operand : Leads ((Routine.operand x).MayCall n k) k (Draft.Ledger n k)
    (Routine.operand x).plan (fun _ => Draft.Ledger (n + 1) k) := by
  refine (read ledger_peek).bind fun l => ?_
  split
  · exact before (below (.term x) rfl (by simp) (by omega)) fun _ h => h.1
  · next op hop =>
    have hl : l.token ≠ .endOfSource := by
      intro hl
      rw [hl, Expression.sign?_endOfSource] at hop
      cases hop
    refine bind (before (read ledger_next_pending) fun _ h => ⟨h.1, l, h.2, hl⟩) fun _ => ?_
    refine opened (fun _ h => h.capped) fun y hy => ?_
    exact bind (deeper (.operand y) (by simp [hy]) (by omega)) fun _ => pure fun _ h => h.earlier

theorem term : Leads ((Routine.term x).MayCall n k) k (Draft.Ledger n k)
    (Routine.term x).plan (fun _ => Draft.Ledger (n + 1) k) :=
  bind (below (.primary x) rfl (by simp) (by omega)) fun _ =>
    below (.passes (.suffixes x) _) rfl (by simp) (Routine.le_behind _ n)

theorem primary : Leads ((Routine.primary x).MayCall n k) k (Draft.Ledger n k)
    (Routine.primary x).plan (fun _ => Draft.Ledger (n + 1) k) := by
  refine (read ledger_next).bind fun l => ?_
  have taken (hl : l.token ≠ .endOfSource) (d : Draft)
      (h : d.reader.Capped k ∧ (l.token ≠ .endOfSource → d.reader.Ledger (n + 1) k)) :
      d.Ledger (n + 1) k := h.2 hl
  split
  · next hl => exact pure (taken (by simp [hl]))
  · next hl => exact before (read (ledger_stringValue _ _)) (taken (by simp [hl]))
  · next hl => exact pure (taken (by simp [hl]))
  · next hl =>
    refine before (opened (fun _ h => h.capped) fun y hy => ?_) (taken (by simp [hl]))
    refine bind (deeper (.operation y _ 0) (by simp [hy]) (by omega)) fun _ => ?_
    exact (read (ledger_expectSymbol _)).bind fun _ => pure fun _ h => h.earlier.earlier
  · exact throw fun _ h => h.1

theorem arguments : Leads ((Routine.arguments x).MayCall n k) k (Draft.Ledger n k)
    (Routine.arguments x).plan (fun _ => Draft.Ledger (n + 1) k) := by
  refine (read (ledger_expectSymbol _)).bind fun opening => ?_
  refine opened (fun _ h => h.capped) fun y hy => ?_
  exact (items (deeper (.passes (.arguments y) []) (by simp [hy]) (by omega))).after
    fun _ _ h => h.earlier

theorem body {closers : List Keyword} :
    Leads ((Routine.body x closers).MayCall n k) k (Draft.Ledger n k)
      (Routine.body x closers).plan (fun _ => Draft.Ledger n k) := by
  cases x with
  | zero => exact (aside aside_position).bind fun _ => throw fun _ h => h.capped
  | succ x =>
    refine (aside aside_openBody).bind fun _ =>
      bind (below (.passes (.pieces x closers) none) rfl (by simp) (by omega)) fun closing => ?_
    cases closing with
    | some closing => exact (aside (aside_closeBody _)).bind fun _ => pure fun _ h => h
    | none => exact (aside aside_position).bind fun _ => throw fun _ h => h.capped

theorem tag {word : Identifier} :
    Leads ((Routine.tag x opening word).MayCall n k) k (Draft.Ledger n k)
      (Routine.tag x opening word).plan (fun _ => Draft.Ledger n k) := by
  have pushed {p : Plan Statement} (h : Leads ((Routine.tag x opening word).MayCall n k) k
      (Draft.Ledger n k) p (fun _ => Draft.Ledger n k)) :
      Leads ((Routine.tag x opening word).MayCall n k) k (Draft.Ledger n k)
        (p >>= fun s => liftM (push s)) (fun _ => Draft.Ledger n k) :=
    h.bind fun s => aside (aside_push s)
  dsimp only [Routine.plan]
  split
  · exact pushed (below (.ifTag x opening) rfl (by simp) (by omega))
  · exact pushed (below (.forTag x opening) rfl (by simp) (by omega))
  · exact pushed (setTag opening rfl (by simp))
  · exact pushed (below (.callTag x opening) rfl (by simp) (by omega))
  · exact pushed (below (.filterTag x opening) rfl (by simp) (by omega))
  · exact pushed (below (.blockTag x opening) rfl (by simp) (by omega))
  · exact below (.macroTag x opening) rfl (by simp) (by omega)
  · exact extendsTag rfl (by simp)
  · exact throw fun _ h => h.capped

theorem ifTag : Leads ((Routine.ifTag x opening).MayCall n k) k (Draft.Ledger n k)
    (Routine.ifTag x opening).plan (fun _ => Draft.Ledger n k) := by
  refine (lastExpression rfl (by simp) (by omega)).bind fun condition =>
    bind (deeper (.body x armClosers) (by simp) (by omega)) fun (first, closing) =>
    bind (below (.passes (.arms x) _) rfl (by simp) (by simp)) fun (arms, closing) => ?_
  dsimp only
  split
  · refine (read (ledger_expectSymbol _)).bind fun _ =>
      bind (deeper (.body x [.endIf]) (by simp) (by simp)) fun _ =>
      (read (ledger_expectSymbol _)).bind fun _ => pure fun _ h => ?_
    exact h.earlier.earlier.earlier
  · exact (read (ledger_expectSymbol _)).bind fun _ => pure fun _ h => h.earlier.earlier

theorem forTag : Leads ((Routine.forTag x opening).MayCall n k) k (Draft.Ledger n k)
    (Routine.forTag x opening).plan (fun _ => Draft.Ledger n k) := by
  refine (pattern (by simp) le_rfl).bind fun target => (read (ledger_expectKeyword _)).bind fun _ =>
    (readPlan _ rfl (by simp) (by omega)).bind fun iterable =>
    (loopCondition rfl (by simp) (by omega)).bind fun condition =>
    (read (ledger_expectSymbol _)).bind fun _ =>
    bind (deeper (.body x [.elseWord, .endFor]) (by simp) (by omega)) fun (main, closing) => ?_
  dsimp only
  split
  · refine (read (ledger_expectSymbol _)).bind fun _ =>
      bind (deeper (.body x [.endFor]) (by simp) (by simp; omega)) fun _ =>
      (read (ledger_expectSymbol _)).bind fun _ => pure fun _ h => ?_
    exact h.weaken (by simp; omega)
  · exact (read (ledger_expectSymbol _)).bind fun _ => pure fun _ h => h.weaken (by simp; omega)

theorem callTag : Leads ((Routine.callTag x opening).MayCall n k) k (Draft.Ledger n k)
    (Routine.callTag x opening).plan (fun _ => Draft.Ledger n k) :=
  (read ledger_expectName).bind fun _ => (callArguments rfl (by simp) (by omega)).bind fun _ =>
    (read (ledger_expectSymbol _)).bind fun _ =>
    bind (deeper (.body x [.endCall]) (by simp) (by omega)) fun _ =>
    (read (ledger_expectSymbol _)).bind fun _ => pure fun _ h => h.earlier.earlier.earlier

theorem filterTag : Leads ((Routine.filterTag x opening).MayCall n k) k (Draft.Ledger n k)
    (Routine.filterTag x opening).plan (fun _ => Draft.Ledger n k) :=
  (lastExpression rfl (by simp) (by omega)).bind fun _ =>
    bind (deeper (.body x [.endFilter]) (by simp) (by omega)) fun _ =>
    (read (ledger_expectSymbol _)).bind fun _ => pure fun _ h => h.earlier.earlier

theorem blockTag : Leads ((Routine.blockTag x opening).MayCall n k) k (Draft.Ledger n k)
    (Routine.blockTag x opening).plan (fun _ => Draft.Ledger n k) :=
  (read ledger_blockHead).bind fun _ =>
    bind (deeper (.body x [.endBlock]) (by simp) (by omega)) fun _ =>
    (read (ledger_blockEnd _)).bind fun _ => (aside (aside_define _)).bind fun _ =>
    pure fun _ h => h.earlier.earlier

theorem macroTag : Leads ((Routine.macroTag x opening).MayCall n k) k (Draft.Ledger n k)
    (Routine.macroTag x opening).plan (fun _ => Draft.Ledger n k) :=
  (read ledger_expectName).bind fun _ => (read (ledger_expectSymbol _)).bind fun _ =>
    bind (items (below (.passes (.parameters x) []) rfl (by simp) (by omega))) fun _ =>
    (read (ledger_expectSymbol _)).bind fun _ =>
    bind (deeper (.body x [.endMacro]) (by simp) (by omega)) fun _ =>
    (read (ledger_expectSymbol _)).bind fun _ =>
    (aside (aside_define _)).after fun _ _ h => h.earlier.earlier.earlier.earlier.earlier

end Routines
end Plan.Leads

namespace Routine
variable {α β : Type}

/-- One step lemma for each reader, put together. -/
theorem leads (c : Routine α) (n k : Int) : Leads (c.MayCall n k) k (Draft.Ledger n k) c.plan
    (fun _ => Draft.Ledger (c.behind n) k) := by
  cases c with
  | operation x stops minimum => exact .operation
  | operand x => exact .operand
  | term x => exact .term
  | primary x => exact .primary
  | arguments x => exact .arguments
  | body x closers => exact .body
  | tag x opening word => exact .tag
  | ifTag x opening => exact .ifTag
  | forTag x opening => exact .forTag
  | callTag x opening => exact .callTag
  | filterTag x opening => exact .filterTag
  | blockTag x opening => exact .blockTag
  | macroTag x opening => exact .macroTag
  | passes p b => exact .passes p b

/-- What gets smaller from call to call: the tokens that may be left and, among calls for which
those are the same, the rank of the reader. -/
def weight (c : Routine α) (d : Draft) : Nat := 10 * d.reader.size + c.procedure.rank

theorem MayCall.weight_lt {c : Routine α} {c' : Routine β} {d t : Draft}
    (h : c.MayCall d.reader.taken (d.reader.taken + d.reader.size) c' t) :
    c'.weight t < c.weight d := by
  have hrank := c'.procedure.rank_lt
  have hlower := h.ledger.lower
  have hupper := h.ledger.upper
  unfold weight
  rcases h.goes with ⟨-, ht⟩ | ⟨-, hlt⟩ | ⟨-, ht⟩
  · have := ht.lower
    omega
  · omega
  · have := ht.lower
    omega

/-- Every routine keeps the ledger, and calls only what it may call. -/
theorem accounts_and_calls (c : Routine α) (d : Draft) :
    c.Accounts d ∧ ∀ {β : Type} (c' : Routine β) (t : Draft), c.plan.Calls d c' t →
      c.MayCall d.reader.taken (d.reader.taken + d.reader.size) c' t := by
  generalize hw : c.weight d = w
  induction w using Nat.strong_induction_on generalizing α c d with
  | h w ih =>
    have hcalls := c.leads d.reader.taken (d.reader.taken + d.reader.size) fun c' t h =>
      (ih _ (hw ▸ h.weight_lt) c' t rfl).1
    have hstart := Reader.Ledger.start d.reader
    refine ⟨?_, hcalls.2 d hstart⟩
    have hends := hcalls.1 d hstart
    rwa [run_plan] at hends

theorem accounts (c : Routine α) (d : Draft) : c.Accounts d := (c.accounts_and_calls d).1

theorem mayCall {c : Routine α} {c' : Routine β} {d t : Draft} (h : c.plan.Calls d c' t) :
    c.MayCall d.reader.taken (d.reader.taken + d.reader.size) c' t :=
  (c.accounts_and_calls d).2 c' t h

end Routine

/-- A pass that asks for another one has taken a token. -/
theorem Repetition.taken_lt_of_yield {β : Type} {p : Repetition β} {b b' : β} {d t : Draft}
    (h : p.pass b d = .ok (.yield b') t) : d.reader.taken < t.reader.taken := by
  have hpass := Plan.Leads.pass (n := d.reader.taken) (k := d.reader.taken + d.reader.size) p b
    fun c t _ => c.accounts t
  rw [run_plan] at hpass
  have hgoes := hpass.1.ok (Reader.Ledger.start d.reader) h
  exact Int.lt_of_add_one_le hgoes.lower

/-! ## Chains of calls -/

/-- A routine that is called, and the draft it starts from. -/
structure Moment where
  {β : Type}
  routine : Routine β
  draft : Draft

namespace Moment

/-- The first call makes the second. -/
def Calls (x y : Moment) : Prop := x.routine.plan.Calls x.draft y.routine y.draft

/-- The first call is a pass of a loop and the second the passes behind it. -/
def Repeats (x y : Moment) : Prop := x.Calls y ∧ x.routine.Continues y.routine

/-- How far a chain of calls has got: a level deeper, or to lower rank, or some passes on in a
loop. -/
inductive Descends (x y : Moment) : Prop
  | deeper (hl : y.routine.levels < x.routine.levels)
      (ht : x.draft.reader.taken < y.draft.reader.taken)
  | below (hl : y.routine.levels = x.routine.levels)
      (hr : y.routine.procedure.rank < x.routine.procedure.rank)
      (ht : x.draft.reader.taken ≤ y.draft.reader.taken)
  | again (hl : y.routine.levels = x.routine.levels)
      (hp : y.routine.procedure = x.routine.procedure)
      (hr : Relation.TransGen Repeats x y) (ht : x.draft.reader.taken < y.draft.reader.taken)

theorem Calls.descends {x y : Moment} (h : x.Calls y) : x.Descends y := by
  have hmay := Routine.mayCall h
  rcases hmay.goes with ⟨hl, ht⟩ | ⟨hl, hr⟩ | ⟨hc, ht⟩
  · exact .deeper hl (Int.lt_of_add_one_le ht.lower)
  · exact .below hl hr hmay.ledger.lower
  · exact .again hc.eq.2 hc.eq.1 (.single ⟨h, hc⟩) (Int.lt_of_add_one_le ht.lower)

theorem Descends.trans {x y z : Moment} (h : x.Descends y) (h' : y.Descends z) :
    x.Descends z := by
  cases h with
  | deeper hl ht =>
    cases h' with
    | deeper hl' ht' => exact .deeper (hl'.trans hl) (ht.trans ht')
    | below hl' _ ht' => exact .deeper (hl'.trans_lt hl) (ht.trans_le ht')
    | again hl' _ _ ht' => exact .deeper (hl'.trans_lt hl) (ht.trans ht')
  | below hl hr ht =>
    cases h' with
    | deeper hl' ht' => exact .deeper (hl'.trans_eq hl) (ht.trans_lt ht')
    | below hl' hr' ht' => exact .below (hl'.trans hl) (hr'.trans hr) (ht.trans ht')
    | again hl' hp' _ ht' => exact .below (hl'.trans hl) (hp' ▸ hr) (ht.trans ht'.le)
  | again hl hp hr ht =>
    cases h' with
    | deeper hl' ht' => exact .deeper (hl'.trans_eq hl) (ht.trans ht')
    | below hl' hr' ht' => exact .below (hl'.trans hl) (hp ▸ hr') (ht.le.trans ht')
    | again hl' hp' hr' ht' =>
      exact .again (hl'.trans hl) (hp'.trans hp) (hr.trans hr') (ht.trans ht')

theorem descends_of_transGen {x y : Moment} (h : Relation.TransGen Calls x y) :
    x.Descends y := by
  induction h with
  | single h => exact h.descends
  | tail _ h ih => exact ih.trans h.descends

/-- A chain of calls that comes back to a reader has taken a token on the way. It has opened a level
too, unless it is nothing but passes of one loop. -/
theorem cycle {x y : Moment} (h : Relation.TransGen Calls x y)
    (hp : y.routine.procedure = x.routine.procedure) :
    x.draft.reader.taken < y.draft.reader.taken ∧
      (y.routine.levels < x.routine.levels ∨ Relation.TransGen Repeats x y) := by
  cases descends_of_transGen h with
  | deeper hl ht => exact ⟨ht, .inl hl⟩
  | below hl hr ht =>
    rw [hp] at hr
    exact absurd hr (Nat.lt_irrefl _)
  | again hl hp hr ht => exact ⟨ht, .inr hr⟩

end Moment
end TemplateSyntax
