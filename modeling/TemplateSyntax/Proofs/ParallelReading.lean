import TemplateSyntax.Proofs.EditedTexts
import TemplateSyntax.Proofs.Progress

/-!
# Reading two texts in parallel

A reader runs on two texts that have the same tokens, at whatever places. If taking a token does the
same in both texts, then so does every reader: if it succeeds in the first text it succeeds in the
second one, with the same value up to places. The texts may have the same tokens only up to some
place of the first one; a run that passes this place is not compared.
-/
namespace TemplateSyntax

/-! ## Runs -/

section Runs
variable {σ α β : Type} [Movable α] [Movable β]

theorem Same.token_eq {l l' : Lexeme} (h : Same l l') : l'.token = l.token :=
  (congrArg Lexeme.token h).symm

theorem Same.value_eq {name name' : Identifier} (h : Same name name') : name.value = name'.value :=
  (Identifier.mk.inj h).1

theorem Same.keyword_eq {x x' : Closing} (h : Same x x') : x.keyword = x'.keyword :=
  (Closing.mk.inj h).1

/-- From states related by `P` the second computation succeeds if the first one does, in states
related by `Q` and with the value that `g` makes of the first one's, unless the first run passes the
place up to which they are compared. A run that has passed it does not come back. -/
structure Follows (past : σ → Prop) (P : σ → σ → Prop) (m m' : EStateM Fault σ α) (g : α → α)
    (Q : α → σ → σ → Prop) : Prop where
  keeps : Keeps past m
  ok {s s' t : σ} {a : α} (hr : P s s') (h : m s = .ok a t) :
    past t ∨ ∃ a' t', m' s' = .ok a' t' ∧ Same (g a) a' ∧ Q a t t'

/-- The same pass of a loop with another value. -/
def withValue (g : β → β) : ForInStep β → ForInStep β
  | .done b => .done (g b)
  | .yield b => .yield (g b)

/-- How states are related behind a pass of a loop. -/
def BehindPass (Q P : β → σ → σ → Prop) : ForInStep β → σ → σ → Prop
  | .done b => Q b
  | .yield b => P b

namespace Follows
variable {past : σ → Prop} {P : σ → σ → Prop} {Q Q' : α → σ → σ → Prop} {R : β → σ → σ → Prop}
variable {m m' : EStateM Fault σ α} {k k' : α → EStateM Fault σ β} {g g' : α → α} {f : β → β}

theorem result {a a' : α} (h : Same (g a) a') (hs : ∀ s s', P s s' → Q a s s') :
    Follows past P (pure a : EStateM Fault σ α) (pure a') g Q where
  keeps := Ensures.pure fun _ hp => hp
  ok hr := by
    rintro ⟨⟩
    exact .inr ⟨a', _, rfl, h, hs _ _ hr⟩

theorem pure {a a' : α} (h : Same (g a) a') :
    Follows past P (pure a : EStateM Fault σ α) (pure a') g fun _ => P :=
  result h fun _ _ hr => hr

theorem throw (e : Fault) (m' : EStateM Fault σ α) :
    Follows past P (throw e : EStateM Fault σ α) m' g Q where
  keeps := Ensures.throw fun _ hp => hp
  ok _ h := by cases h

theorem bind (hm : Follows past P m m' g Q)
    (hk : ∀ a a', Same (g a) a' → Follows past (Q a) (k a) (k' a') f R) :
    Follows past P (m >>= k) (m' >>= k') f R where
  keeps := hm.keeps.bind fun a => (hk a (g a) rfl).keeps
  ok hr h := by
    obtain ⟨a, t, ht, hu⟩ := bind_eq_ok h
    rcases hm.ok hr ht with hp | ⟨a', t', ht', ha, hr'⟩
    · exact .inl ((hk a (g a) rfl).keeps.ok hp hu)
    · rw [run_bind_ok ht']
      exact (hk a a' ha).ok hr' hu

theorem discard {Q : σ → σ → Prop} (hm : Follows past P m m' g fun _ => Q) :
    Follows past P (discard m : EStateM Fault σ PUnit) (discard m') (fun u => u) fun _ => Q :=
  hm.bind fun _ _ _ => pure rfl

theorem after (hm : Follows past P m m' g Q) (hg : ∀ a, g a = g' a)
    (hQ : ∀ a s s', Q a s s' → Q' a s s') : Follows past P m m' g' Q' where
  keeps := hm.keeps
  ok hr h := (hm.ok hr h).imp id fun ⟨a', t', ht', ha, hr'⟩ =>
    ⟨a', t', ht', hg _ ▸ ha, hQ _ _ _ hr'⟩

/-- Both runs take the same branch. -/
theorem ite {p q : Prop} [Decidable p] [Decidable q] (hpq : p ↔ q)
    {m m' n n' : EStateM Fault σ α} (hm : Follows past P m m' g Q)
    (hn : Follows past P n n' g Q) :
    Follows past P (if p then m else n) (if q then m' else n') g Q := by
  by_cases h : p
  · rw [if_pos h, if_pos (hpq.mp h)]
    exact hm
  · rw [if_neg h, if_neg (fun hq => h (hpq.mpr hq))]
    exact hn

/-- A loop follows another if its passes follow those of the other. -/
theorem loop {size : σ → Nat} {step step' : β → EStateM Fault σ (ForInStep β)}
    {I : β → σ → σ → Prop} (hd : Descends size step) (hd' : Descends size step')
    (h : ∀ b b', Same (f b) b' →
      Follows past (I b) (step b) (step' b') (withValue f) (BehindPass R I))
    {b b' : β} (hb : Same (f b) b') :
    Follows past (I b) (loop size step b) (loop size step' b') f R where
  keeps := Keeps.loop (fun b => (h b (f b) rfl).keeps) b
  ok {s s' t a} hr ht := by
    induction hn : size s using Nat.strong_induction_on generalizing s s' b b' with
    | h n ih =>
      have hpass := h b b' hb
      rw [loop_eq hd] at ht
      rw [loop_eq hd']
      obtain ⟨r, u, hu, ht⟩ := bind_eq_ok ht
      rcases hpass.ok hr hu with hp | ⟨r', u', hu', hrr, hr'⟩
      · left
        cases r with
        | done c =>
          cases ht
          exact hp
        | yield c => exact (Keeps.loop (fun b => (h b (f b) rfl).keeps) c).ok hp ht
      · rw [run_bind_ok hu']
        cases r with
        | done c =>
          cases r' with
          | done c' =>
            cases ht
            exact .inr ⟨c', u', rfl, ForInStep.done.inj hrr, hr'⟩
          | yield c' => cases hrr
        | yield c =>
          cases r' with
          | done c' => cases hrr
          | yield c' => exact ih _ (hn ▸ hd b s c u hu) (ForInStep.yield.inj hrr) hr' ht rfl

end Follows

/-- From related states the second computation succeeds with the same value as the first one and in
a related state, unless the first one fails or passes the place up to which they are compared. -/
abbrev Parallel (R : σ → σ → Prop) (past : σ → Prop) (m m' : EStateM Fault σ α) : Prop :=
  Follows past R m m' (fun a => a) fun _ => R

namespace Parallel
variable {R : σ → σ → Prop} {past : σ → Prop}

/-- Both runs take the same branch. -/
theorem test {m m' : EStateM Fault σ Bool} {k k' n n' : EStateM Fault σ α}
    (hm : Parallel R past m m') (hk : Parallel R past k k') (hn : Parallel R past n n') :
    Parallel R past (m >>= fun b => if b then k else n) (m' >>= fun b => if b then k' else n') := by
  refine hm.bind fun b b' (hb : b = b') => ?_
  subst hb
  exact .ite .rfl hk hn

/-- Loops are parallel if their passes are. -/
theorem loop {size : σ → Nat} {step step' : β → EStateM Fault σ (ForInStep β)}
    (hd : Descends size step) (hd' : Descends size step')
    (h : ∀ b b', Same b b' → Parallel R past (step b) (step' b')) {b b' : β} (hb : Same b b') :
    Parallel R past (loop size step b) (loop size step' b') := by
  refine Follows.loop (I := fun _ => R) hd hd' (fun b b' hb => (h b b' hb).after ?_ ?_) hb
  · rintro (b | b) <;> rfl
  · rintro (b | b) _ _ hr <;> exact hr

end Parallel
end Runs

/-! ## Tokens -/

/-- Taking a token and looking at it do the same in related readers. -/
structure InStep (R : Reader → Reader → Prop) (past : Reader → Prop) : Prop where
  next : Parallel R past Reader.next Reader.next
  peek : Parallel R past Reader.peek Reader.peek

namespace InStep
variable {R : Reader → Reader → Prop} {past : Reader → Prop} (h : InStep R past)
include h

section Tokens
open Reader
variable {α : Type} [Movable α]

theorem atSymbol (s : Symbol) : Parallel R past (atSymbol s) (atSymbol s) :=
  h.peek.bind fun _ _ hl => .pure (congrArg (· == .symbol s) hl.token_eq).symm

theorem atKeyword (k : Keyword) : Parallel R past (atKeyword k) (atKeyword k) :=
  h.peek.bind fun _ _ hl => .pure (congrArg (· == .identifier k.spelling) hl.token_eq).symm

theorem expectSymbol (s : Symbol) : Parallel R past (expectSymbol s) (expectSymbol s) :=
  h.next.bind fun _ _ hl => .ite (by rw [hl.token_eq]) (.pure rfl) (.throw _ _)

theorem expectKeyword (k : Keyword) : Parallel R past (expectKeyword k) (expectKeyword k) :=
  h.next.bind fun _ _ hl => .ite (by rw [hl.token_eq]) (.pure rfl) (.throw _ _)

theorem expectName : Parallel R past expectName expectName := by
  refine h.next.bind fun l l' hl => ?_
  rw [hl.token_eq]
  split
  · exact .pure rfl
  · exact .throw _ _

theorem variableName : Parallel R past variableName variableName :=
  h.expectName.bind fun _ _ hname => .pure (congrArg (Variable.mk · _) hname.value_eq)

theorem nextItem {item item' : ReadM α} (hi : Parallel R past item item') {found found' : List α}
    (hf : Same found found') : Parallel R past (nextItem item found) (nextItem item' found') := by
  refine (h.atSymbol _).test (.pure (congrArg ForInStep.done hf)) (hi.bind fun x x' hx => ?_)
  have hmore : Same (ForInStep.yield (found ++ [x])) (ForInStep.yield (found' ++ [x'])) :=
    congrArg ForInStep.yield (hf.concat hx)
  exact (h.atSymbol _).test (.pure hmore)
    ((h.expectSymbol _).discard.bind fun _ _ _ => .pure hmore)

theorem items {item item' : ReadM α} (hi : Parallel R past item item')
    (hc : Consumes Reader.size item) (hc' : Consumes Reader.size item') :
    Parallel R past (items item) (items item') := by
  have hloop := Parallel.loop (descends_nextItem hc) (descends_nextItem hc')
    (fun _ _ hf => h.nextItem hi hf) (.refl [])
  exact hloop.bind fun found found' hf => (h.expectSymbol _).bind fun _ _ hs =>
    .pure (Prod.ext hf hs)

end Tokens

/-! ## Expressions -/

section Expressions
open Reader Expression
variable {deeper : Descent}

/-- The readers of the next level do the same in related readers, and each takes a token. -/
structure DescendsInStep (R : Reader → Reader → Prop) (past : Reader → Prop) (deeper : Descent) :
    Prop where
  tokenWise : deeper.TokenWise
  bind {β : Type} [Movable β] (s s' : Span) (k k' : Level → ReadM β)
    (hk : ∀ level : Level, Parallel R past level.operand level.operand →
      (∀ stops n, Parallel R past (level.operation stops n) (level.operation stops n) ∧
        Consumes Reader.size (level.operation stops n)) → Parallel R past (k level) (k' level)) :
    Parallel R past (deeper s >>= k) (deeper s' >>= k')

omit h in
theorem stringValue (raw : String) (s s' : Span) :
    Parallel R past (stringValue raw s) (stringValue raw s') := by
  unfold Expression.stringValue
  split
  · exact .throw _ _
  · split
    · exact .pure rfl
    · exact .throw _ _
    · exact .throw _ _

theorem arguments (hd : DescendsInStep R past deeper) :
    Parallel R past (arguments deeper) (arguments deeper) :=
  (h.expectSymbol _).bind fun s s' _ => hd.bind s s' _ _ fun _ _ ho =>
    h.items (ho _ _).1 (ho _ _).2 (ho _ _).2

theorem primaryFrom (hd : DescendsInStep R past deeper) {l l' : Lexeme} (hl : Same l l') :
    Parallel R past (primaryFrom deeper l) (primaryFrom deeper l') := by
  unfold Expression.primaryFrom
  rw [hl.token_eq]
  split
  · exact .pure rfl
  · exact stringValue _ _ _
  · exact .pure rfl
  · exact hd.bind _ _ _ _ fun _ _ ho => (ho _ _).1.bind fun _ _ he =>
      (h.expectSymbol _).discard.bind fun _ _ _ => .pure he
  · exact .throw _ _

theorem primary (hd : DescendsInStep R past deeper) :
    Parallel R past (primary deeper) (primary deeper) :=
  h.next.bind fun _ _ hl => h.primaryFrom hd hl

theorem nextSuffix (hd : DescendsInStep R past deeper) {e e' : Expression} (he : Same e e') :
    Parallel R past (nextSuffix deeper e) (nextSuffix deeper e') := by
  refine (h.atSymbol _).test ?_ ?_
  · refine h.next.discard.bind fun _ _ _ => h.variableName.bind fun _ _ hp => .pure ?_
    exact congrArg ForInStep.yield (Alike.member he (Variable.mk.inj hp).1)
  · refine (h.atSymbol _).test ?_ ?_
    · refine (h.arguments hd).bind fun (args, _) (args', _) ha => .pure ?_
      refine congrArg ForInStep.yield ?_
      have hargs : Same args args' := congrArg Prod.fst ha
      rw [move_call, move_call, he, hargs]
      rfl
    · exact .pure (congrArg ForInStep.done he)

theorem term (hd : DescendsInStep R past deeper) : Parallel R past (term deeper) (term deeper) :=
  (h.primary hd).bind fun _ _ he => Parallel.loop (descends_nextSuffix hd.tokenWise)
    (descends_nextSuffix hd.tokenWise) (fun _ _ he => h.nextSuffix hd he) he

theorem operand (hd : DescendsInStep R past deeper) :
    Parallel R past (operand deeper) (operand deeper) := by
  refine h.peek.bind fun l l' hl => ?_
  rw [hl.token_eq]
  split
  · exact h.term hd
  · exact h.next.discard.bind fun _ _ _ => hd.bind _ _ _ _ fun _ ho _ => ho.bind fun _ _ ha =>
      .pure (Alike.unary rfl ha)

theorem nextJoint (hd : DescendsInStep R past deeper) (stops : List String) (minimum : Nat)
    {left left' : Expression} (hleft : Same left left') :
    Parallel R past (nextJoint deeper stops minimum left)
      (nextJoint deeper stops minimum left') := by
  refine h.peek.bind fun l l' hl => ?_
  rw [hl.token_eq]
  split
  · exact .pure (congrArg ForInStep.done hleft)
  · exact h.next.discard.bind fun _ _ _ => (h.term hd).bind fun _ _ hf =>
      .pure (congrArg ForInStep.yield (Alike.filter hleft hf))
  · exact h.next.discard.bind fun _ _ _ => hd.bind _ _ _ _ fun _ _ ho =>
      (ho _ _).1.bind fun _ _ hr => .pure (congrArg ForInStep.yield (Alike.binary rfl hleft hr))

theorem operation (hd : DescendsInStep R past deeper) (stops : List String) (minimum : Nat) :
    Parallel R past (operation deeper stops minimum) (operation deeper stops minimum) :=
  (h.operand hd).bind fun _ _ he => Parallel.loop (descends_nextJoint hd.tokenWise _ _)
    (descends_nextJoint hd.tokenWise _ _) (fun _ _ he => h.nextJoint hd _ _ he) he

theorem descend (n : Nat) : DescendsInStep R past (descend n) := by
  induction n with
  | zero => exact ⟨tokenWise_descend 0, fun _ _ _ _ _ => .throw _ _⟩
  | succ n ih =>
    refine ⟨tokenWise_descend _, fun s s' k k' hk => ?_⟩
    rw [descend_succ_bind, descend_succ_bind]
    exact hk _ (h.operand ih) fun _ _ => ⟨h.operation ih _ _, consumes_operation ih.tokenWise _ _⟩

theorem read (n : Nat) (stops : List String) : Parallel R past (read n stops) (read n stops) :=
  h.operation (h.descend n) stops 0

theorem readFilter (n : Nat) : Parallel R past (readFilter n) (readFilter n) :=
  h.term (h.descend n)

end Expressions

/-! ## Tags -/

section Tags
open Reader Draft
variable {n : Nat}

theorem endTag : Parallel R past endTag endTag := h.expectSymbol _

theorem lastExpression : Parallel R past (lastExpression n) (lastExpression n) :=
  (h.read _ _).bind fun _ _ he => h.endTag.discard.bind fun _ _ _ => .pure he

theorem nextName {x x' : List Variable × Span} (hx : Same x x') :
    Parallel R past (nextName x) (nextName x') := by
  obtain ⟨names, s⟩ := x
  obtain ⟨names', s'⟩ := x'
  refine (h.atSymbol _).test ?_ ?_
  · refine h.next.discard.bind fun _ _ _ => h.variableName.bind fun _ _ hname => .pure ?_
    exact congrArg ForInStep.yield (Prod.ext (Same.concat (congrArg Prod.fst hx) hname) rfl)
  · exact .pure (congrArg ForInStep.done hx)

theorem pattern : Parallel R past pattern pattern := by
  refine h.variableName.bind fun first first' hfirst =>
    (h.atSymbol _).test ?_ ?_
  · have hstart : Same ([first], first.span) ([first'], first'.span) :=
      Prod.ext (congrArg (fun v => [v]) hfirst) rfl
    exact (Parallel.loop descends_nextName descends_nextName (fun _ _ hx => h.nextName hx)
      hstart).bind fun (names, _) (names', _) hx =>
        .pure (congrArg (Pattern.unpack · _) (congrArg Prod.fst hx))
  · exact .pure (congrArg Pattern.single hfirst)

theorem nextFilter {filters filters' : List Expression} (hf : Same filters filters') :
    Parallel R past (nextFilter n filters) (nextFilter n filters') := by
  refine (h.atSymbol _).test ?_ ?_
  · exact h.next.discard.bind fun _ _ _ => (h.readFilter _).bind fun _ _ hx =>
      .pure (congrArg ForInStep.yield (hf.concat hx))
  · exact .pure (congrArg ForInStep.done hf)

theorem placeable (edit : Edit) (opening opening' : Span) :
    Follows past R (placeable n opening) (placeable n opening') (Statement.edited edit)
      fun _ => R := by
  refine (h.read _ _).bind fun _ _ hv => (Parallel.loop descends_nextFilter descends_nextFilter
    (fun _ _ hf => h.nextFilter hf) (.refl [])).bind fun _ _ hf =>
      (h.expectSymbol _).bind fun _ _ _ => .pure ?_
  exact congrArg₂ (Statement.put · · _) hv hf

theorem loopCondition : Parallel R past (loopCondition n) (loopCondition n) := by
  refine (h.atKeyword _).test ?_ (.pure rfl)
  exact h.next.discard.bind fun _ _ _ => (h.read _ _).bind fun _ _ hc =>
    .pure (congrArg some hc)

theorem loopHead : Parallel R past (loopHead n) (loopHead n) :=
  h.pattern.bind fun _ _ hp => (h.expectKeyword _).discard.bind fun _ _ _ =>
    (h.read _ _).bind fun _ _ hi => h.loopCondition.bind fun _ _ hc =>
      h.endTag.discard.bind fun _ _ _ => .pure (Prod.ext hp (Prod.ext hi hc))

theorem setTag (edit : Edit) (opening opening' : Span) :
    Follows past R (setTag n opening) (setTag n opening') (Statement.edited edit) fun _ => R :=
  h.pattern.bind fun _ _ hp => (h.expectSymbol _).discard.bind fun _ _ _ =>
    (h.read _ _).bind fun _ _ hv => (h.expectSymbol _).bind fun _ _ _ =>
      .pure (congrArg₂ (Statement.assign · · _) hp hv)

theorem callArguments : Parallel R past (callArguments n) (callArguments n) := by
  refine (h.atSymbol _).test ?_ (.pure rfl)
  exact (h.arguments (h.descend n)).bind fun _ _ hx => .pure (congrArg Prod.fst hx)

theorem callHead : Parallel R past (callHead n) (callHead n) :=
  h.expectName.bind fun _ _ hname => h.callArguments.bind fun _ _ ha =>
    h.endTag.discard.bind fun _ _ _ => .pure (Prod.ext hname ha)

theorem closingName (name : String) : Parallel R past (closingName name) (closingName name) := by
  refine h.peek.bind fun l l' hl => ?_
  rw [hl.token_eq]
  split
  · exact .ite Iff.rfl h.next.discard (.throw _ _)
  · exact .pure rfl

theorem blockHead : Parallel R past blockHead blockHead :=
  h.expectName.bind fun _ _ hname => h.endTag.discard.bind fun _ _ _ => .pure hname

theorem blockEnd (name : String) : Parallel R past (blockEnd name) (blockEnd name) :=
  (h.closingName name).bind fun _ _ _ => h.endTag

theorem parameter : Parallel R past (parameter n) (parameter n) := by
  refine h.expectName.bind fun _ _ hname =>
    (h.atSymbol _).test ?_ ?_
  · refine h.next.discard.bind fun _ _ _ => (h.read _ _).bind fun _ _ hf => .pure ?_
    exact congrArg₂ (Parameter.mk · · _) hname (congrArg some hf)
  · exact .pure (congrArg (Parameter.mk · none _) hname)

theorem macroHead : Parallel R past (macroHead n) (macroHead n) :=
  h.expectName.bind fun _ _ hname => (h.expectSymbol _).discard.bind fun _ _ _ =>
    (h.items h.parameter consumes_parameter consumes_parameter).bind fun _ _ hx =>
      h.endTag.discard.bind fun _ _ _ => .pure (Prod.ext hname (congrArg Prod.fst hx))

end Tags
end InStep
end TemplateSyntax
