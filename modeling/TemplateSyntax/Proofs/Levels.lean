import TemplateSyntax.Proofs.Grammar
import TemplateSyntax.Proofs.Run
import TemplateSyntax.Proofs.TokenWise

/-!
# A limit that is not reached

Readers are told how many levels they may still open. A reader that may open one level more does the
same, unless the first one finds the source nested too deeply. So a source in which fewer levels are
open at any time is read alike under every limit from there on.
-/
namespace TemplateSyntax

/-! ## Runs under two limits -/

section Runs
variable {σ α β : Type}

/-- The first computation finds the source nested too deeply, or does what the second one does. -/
def Within (m m' : EStateM Fault σ α) : Prop :=
  ∀ s, (∃ f t, m s = .error f t ∧ f.cause = .tooDeep) ∨ m s = m' s

namespace Within

theorem refl (m : EStateM Fault σ α) : Within m m := fun _ => .inr rfl

theorem bind {m m' : EStateM Fault σ α} {g g' : α → EStateM Fault σ β} (hm : Within m m')
    (hg : ∀ a, Within (g a) (g' a)) : Within (m >>= g) (m' >>= g') := by
  intro s
  rw [run_bind, run_bind]
  rcases hm s with ⟨f, t, hs, hf⟩ | hs
  · exact .inl ⟨f, t, by rw [hs], hf⟩
  · rw [← hs]
    cases m s with
    | ok a t => exact hg a t
    | error f t => exact .inr rfl

theorem trans {m m' m'' : EStateM Fault σ α} (h : Within m m') (h' : Within m' m'') :
    Within m m'' := by
  intro s
  rcases h s with hs | hs
  · exact .inl hs
  · rw [hs]
    exact h' s

theorem discard {m m' : EStateM Fault σ α} (hm : Within m m') :
    Within (discard m : EStateM Fault σ PUnit) (discard m') :=
  hm.bind fun _ => refl _

theorem ite {p : Prop} [Decidable p] {m m' n n' : EStateM Fault σ α} (hm : Within m m')
    (hn : Within n n') : Within (if p then m else n) (if p then m' else n') := by
  split
  · exact hm
  · exact hn

theorem loop {size : σ → Nat} {step step' : β → EStateM Fault σ (ForInStep β)}
    (h : ∀ b, Within (step b) (step' b)) (b : β) :
    Within (loop size step b) (TemplateSyntax.loop size step' b) := by
  intro s
  induction hn : size s using Nat.strong_induction_on generalizing s b with
  | h n ih =>
    rw [TemplateSyntax.loop, TemplateSyntax.loop]
    rcases h b s with ⟨f, t, hs, hf⟩ | hs
    · exact .inl ⟨f, t, by rw [hs], hf⟩
    · rw [← hs]
      cases step b s with
      | error f t => exact .inr rfl
      | ok r t =>
        cases r with
        | done b' => exact .inr rfl
        | yield b' =>
          dsimp only
          split
          · next hlt => exact ih (size t) (hn ▸ hlt) b' t rfl
          · exact .inr rfl

theorem lift {m m' : ReadM α} (h : Within m m') :
    Within (liftM m : DraftM α) (liftM m' : DraftM α) := by
  intro d
  rw [run_lift, run_lift]
  rcases h d.reader with ⟨f, t, hs, hf⟩ | hs
  · exact .inl ⟨f, { d with reader := t }, by rw [hs], hf⟩
  · rw [hs]
    exact .inr rfl

end Within
end Runs

/-! ## Expressions -/

namespace Reader

theorem within_items {α : Type} {item item' : ReadM α} (h : Within item item') :
    Within (items item) (items item') := by
  have hnext (found : List α) : Within (nextItem item found) (nextItem item' found) :=
    (Within.refl _).bind fun _ => .ite (.refl _) (h.bind fun _ => .refl _)
  exact (Within.loop hnext []).bind fun _ => .refl _

end Reader

namespace Expression
open Reader

/-- The readers of a level do the same as those of another, as far as their limit allows. -/
structure Level.Within (level level' : Level) : Prop where
  operand : TemplateSyntax.Within level.operand level'.operand
  operation (stops : List String) (minimum : Nat) :
    TemplateSyntax.Within (level.operation stops minimum) (level'.operation stops minimum)

/-- Going down one way leads to readers that do the same as those of the other. -/
def Descent.Within (deeper deeper' : Descent) : Prop :=
  ∀ (span : Span) {β : Type} (g g' : Level → ReadM β),
    (∀ level level' : Level, level.Within level' →
      TemplateSyntax.Within (g level) (g' level')) →
        TemplateSyntax.Within (deeper span >>= g) (deeper' span >>= g')

section Readers
variable {deeper deeper' : Descent} (hd : deeper.Within deeper')
include hd

theorem within_arguments : Within (arguments deeper) (arguments deeper') :=
  (Within.refl _).bind fun span => hd span _ _ fun _ _ h => within_items (h.operation _ _)

theorem within_primary : Within (primary deeper) (primary deeper') := by
  refine (Within.refl _).bind fun l => ?_
  unfold primaryFrom
  split
  · exact .refl _
  · exact .refl _
  · exact .refl _
  · exact hd _ _ _ fun _ _ h => (h.operation _ _).bind fun _ => .refl _
  · exact .refl _

theorem within_term : Within (term deeper) (term deeper') := by
  refine (within_primary hd).bind fun e => Within.loop (fun e => ?_) e
  refine (Within.refl _).bind fun _ => .ite (.refl _) ((Within.refl _).bind fun _ =>
    .ite ?_ (.refl _))
  exact (within_arguments hd).bind fun _ => .refl _

theorem within_operand : Within (operand deeper) (operand deeper') := by
  refine (Within.refl _).bind fun l => ?_
  cases sign? l.token with
  | none => exact within_term hd
  | some op =>
    exact (Within.refl _).bind fun _ => hd _ _ _ fun _ _ h => h.operand.bind fun _ => .refl _

theorem within_operation (stops : List String) (minimum : Nat) :
    Within (operation deeper stops minimum) (operation deeper' stops minimum) := by
  refine (within_operand hd).bind fun e => Within.loop (fun left => ?_) e
  refine (Within.refl _).bind fun l => ?_
  split
  · exact .refl _
  · exact (Within.refl _).bind fun _ => (within_term hd).bind fun _ => .refl _
  · exact (Within.refl _).bind fun _ => hd _ _ _ fun _ _ h =>
      (h.operation _ _).bind fun _ => .refl _

end Readers

theorem within_descend (n : Nat) : (descend n).Within (descend (n + 1)) := by
  induction n with
  | zero => exact fun span _ _ _ _ _ => .inl ⟨⟨.tooDeep, span⟩, _, rfl, rfl⟩
  | succ n ih =>
    intro span _ g g' hg
    rw [descend_succ_bind, descend_succ_bind]
    exact hg _ _ ⟨within_operand ih, within_operation ih⟩

theorem within_read (n : Nat) (stops : List String) : Within (read n stops) (read (n + 1) stops) :=
  within_operation (within_descend n) stops 0

theorem within_readFilter (n : Nat) : Within (readFilter n) (readFilter (n + 1)) :=
  within_term (within_descend n)

end Expression

/-! ## Tags and bodies -/

namespace Draft
open Reader Expression
variable {n : Nat} {opening : Span}

theorem within_lastExpression : Within (lastExpression n) (lastExpression (n + 1)) :=
  (within_read n _).bind fun _ => .refl _

theorem within_placeable : Within (placeable n opening) (placeable (n + 1) opening) := by
  have hnext (filters : List Expression) :
      Within (nextFilter n filters) (nextFilter (n + 1) filters) :=
    (Within.refl _).bind fun _ => .ite ((Within.refl _).bind fun _ =>
      (within_readFilter n).bind fun _ => .refl _) (.refl _)
  exact (within_read n _).bind fun _ => (Within.loop hnext []).bind fun _ => .refl _

theorem within_loopHead : Within (loopHead n) (loopHead (n + 1)) := by
  have hcondition : Within (loopCondition n) (loopCondition (n + 1)) :=
    (Within.refl _).bind fun _ => .ite ((Within.refl _).bind fun _ =>
      (within_read n _).bind fun _ => .refl _) (.refl _)
  exact (Within.refl _).bind fun _ => (Within.refl _).bind fun _ => (within_read n _).bind fun _ =>
    hcondition.bind fun _ => .refl _

theorem within_setTag : Within (setTag n opening) (setTag (n + 1) opening) :=
  (Within.refl _).bind fun _ => (Within.refl _).bind fun _ => (within_read n _).bind fun _ =>
    .refl _

theorem within_callHead : Within (callHead n) (callHead (n + 1)) := by
  have hargs : Within (callArguments n) (callArguments (n + 1)) :=
    (Within.refl _).bind fun _ => .ite ((within_arguments (within_descend n)).bind fun _ =>
      .refl _) (.refl _)
  exact (Within.refl _).bind fun _ => hargs.bind fun _ => .refl _

theorem within_macroHead : Within (macroHead n) (macroHead (n + 1)) := by
  have hparameter : Within (parameter n) (parameter (n + 1)) :=
    (Within.refl _).bind fun _ => (Within.refl _).bind fun _ => .ite ((Within.refl _).bind fun _ =>
      (within_read n _).bind fun _ => .refl _) (.refl _)
  exact (Within.refl _).bind fun _ => (Within.refl _).bind fun _ =>
    (within_items hparameter).bind fun _ => .refl _

/-- The reader does what the other one does, as far as its limit allows. -/
def BodyReader.Within (body body' : BodyReader) : Prop :=
  ∀ closers, TemplateSyntax.Within (body closers) (body' closers)

section Tags
variable {body body' : BodyReader} (hb : body.Within body')
include hb

theorem within_ifTag : Within (ifTag n body opening) (ifTag (n + 1) body' opening) := by
  have harm (x : List (Arm Statement) × Closing) :
      Within (nextArm n body x) (nextArm (n + 1) body' x) :=
    .ite (within_lastExpression.lift.bind fun _ => (hb _).bind fun _ => .refl _) (.refl _)
  refine within_lastExpression.lift.bind fun _ => (hb _).bind fun _ =>
    (Within.loop harm _).bind fun _ => .ite ?_ (.refl _)
  exact (Within.refl _).bind fun _ => (hb _).bind fun _ => .refl _

theorem within_forTag : Within (forTag n body opening) (forTag (n + 1) body' opening) := by
  refine within_loopHead.lift.bind fun _ => (hb _).bind fun _ => .ite ?_ (.refl _)
  exact (Within.refl _).bind fun _ => (hb _).bind fun _ => .refl _

theorem within_callTag : Within (callTag n body opening) (callTag (n + 1) body' opening) :=
  within_callHead.lift.bind fun _ => (hb _).bind fun _ => .refl _

theorem within_filterTag : Within (filterTag n body opening) (filterTag (n + 1) body' opening) :=
  within_lastExpression.lift.bind fun _ => (hb _).bind fun _ => .refl _

theorem within_blockTag : Within (blockTag body opening) (blockTag body' opening) :=
  (Within.refl _).bind fun _ => (hb _).bind fun _ => .refl _

theorem within_macroTag : Within (macroTag n body opening) (macroTag (n + 1) body' opening) :=
  within_macroHead.lift.bind fun _ => (hb _).bind fun _ => .refl _

theorem within_tag (name : Identifier) :
    Within (tag n body opening name) (tag (n + 1) body' opening name) := by
  unfold tag
  split
  · exact (within_ifTag hb).bind fun _ => .refl _
  · exact (within_forTag hb).bind fun _ => .refl _
  · exact within_setTag.lift.bind fun _ => .refl _
  · exact (within_callTag hb).bind fun _ => .refl _
  · exact (within_filterTag hb).bind fun _ => .refl _
  · exact (within_blockTag hb).bind fun _ => .refl _
  · exact within_macroTag hb
  · exact within_lastExpression.lift.bind fun _ => .refl _
  · exact .refl _

theorem within_content (closers : List Keyword) :
    Within (content n body closers) (content (n + 1) body' closers) := by
  refine Within.loop (fun _ => (Within.refl _).bind fun found => ?_) none
  cases found with
  | none => exact .refl _
  | some l =>
    dsimp only
    split
    · exact within_placeable.lift.bind fun _ => .refl _
    · refine (Within.refl _).bind fun name => (Within.refl _).bind fun _ => ?_
      split
      · exact .refl _
      · exact (within_tag hb name).bind fun _ => .refl _
    · exact .refl _

end Tags

theorem within_body (n : Nat) : (body n).Within (body (n + 1)) := by
  induction n with
  | zero =>
    intro closers d
    exact .inl ⟨⟨.tooDeep, .empty d.reader.cursor.position⟩, d, rfl, rfl⟩
  | succ n ih =>
    exact fun closers => (Within.refl _).bind fun _ => (within_content ih closers).bind fun _ =>
      .refl _

/-- Read all that is left into the innermost open body, with at most this many levels open. -/
def readWithin (levels : Nat) : DraftM Unit := do
  discard <| content levels (body levels) []

theorem readAll_eq_readWithin : readAll = readWithin depthLimit := rfl

/-- While the source is read, no more levels than this are ever open: a limit of that many levels
would refuse none. -/
def StaysWithin (levels : Nat) (text : String) : Prop :=
  ∀ f d, readWithin levels (.ofText text) = .error f d → f.cause ≠ .tooDeep

instance (levels : Nat) (text : String) : Decidable (StaysWithin levels text) :=
  match h : readWithin levels (.ofText text) with
  | .ok _ _ => .isTrue fun _ _ hr => nomatch h.symm.trans hr
  | .error f _ =>
    if hf : f.cause = .tooDeep then .isFalse fun hw => hw _ _ h hf
    else .isTrue fun _ _ hr => by
      cases h.symm.trans hr
      exact hf

/-- A limit that is never reached may as well be higher. -/
theorem StaysWithin.readWithin_succ {text : String} (h : StaysWithin n text) :
    readWithin (n + 1) (.ofText text) = readWithin n (.ofText text) := by
  rcases (within_content (within_body n) []).discard (.ofText text) with ⟨f, d, hr, hf⟩ | hr
  · exact absurd hf (h f d hr)
  · exact hr.symm

end Draft

/-! ## The grammar -/

section Grammar
variable {n : Nat} {c d : Cursor}

/-- A phrase may be given one level more. -/
theorem Phrase.Derives.succ {p : Phrase} (h : Derives p n c d) : Derives p (n + 1) c d := by
  induction h with
  | number h => exact .number h
  | string h hl => exact .string h hl
  | name h => exact .name h
  | parens ho _ hc ih => exact .parens ho ih hc
  | primary _ ih => exact .primary ih
  | member _ hd hn ih => exact .member ih hd hn
  | call _ ho _ iht iha => exact .call iht ho iha
  | term hn _ ih => exact .term hn ih
  | sign hs _ ih => exact .sign hs ih
  | operand _ ih => exact .operand ih
  | binary _ ht hop hb _ ihl ihr =>
    rw [Nat.add_right_comm] at ihl ⊢
    exact .binary ihl ht hop hb ihr
  | filter _ hb _ ihl iht => exact .filter ihl hb iht
  | noArgument h => exact .noArgument h
  | lastArgument _ h ih => exact .lastArgument ih h
  | argument _ hc _ iha ih => exact .argument iha hc ih

theorem Expression.Spans.succ (h : Spans n c d) : Spans (n + 1) c d := by
  obtain ⟨pending, h⟩ := h
  exact ⟨pending, h.succ⟩

theorem SpansFilters.succ (h : SpansFilters n c d) : SpansFilters (n + 1) c d := by
  induction h with
  | none => exact .none
  | more _ hb ht ih => exact .more ih hb ht.succ

theorem SpansPlaceable.succ (h : SpansPlaceable n c d) : SpansPlaceable (n + 1) c d := by
  obtain ⟨pending, e, f, he, hf, hd⟩ := h
  exact ⟨pending, e, f, he.succ, hf.succ, hd⟩

theorem SpansLast.succ (h : SpansLast n c d) : SpansLast (n + 1) c d := by
  obtain ⟨e, he, hd⟩ := h
  exact ⟨e, he.succ, hd⟩

theorem SpansLoopHead.succ (h : SpansLoopHead n c d) : SpansLoopHead (n + 1) c d := by
  obtain ⟨e, f, g, h, he, hf, hg, hh, hd⟩ := h
  refine ⟨e, f, g, h, he, hf, hg.succ, hh.imp id ?_, hd⟩
  rintro ⟨k, hk, hh⟩
  exact ⟨k, hk, hh.succ⟩

theorem SpansAssignment.succ (h : SpansAssignment n c d) : SpansAssignment (n + 1) c d := by
  obtain ⟨e, f, he, hf, hd⟩ := h
  exact ⟨e, f, he, hf, hd.succ⟩

theorem SpansParameter.succ (h : SpansParameter n c d) : SpansParameter (n + 1) c d := by
  obtain ⟨e, he, hd⟩ := h
  refine ⟨e, he, hd.imp id ?_⟩
  rintro ⟨f, hf, hd⟩
  exact ⟨f, hf, hd.succ⟩

theorem Items.mono {G H : Cursor → Cursor → Prop} (h : Items G c d)
    (hGH : ∀ c d, G c d → H c d) : Items H c d := by
  induction h with
  | close h => exact .close h
  | last hi h => exact .last (hGH _ _ hi) h
  | more hi hc _ ih => exact .more (hGH _ _ hi) hc ih

theorem SpansMacroHead.succ (h : SpansMacroHead n c d) : SpansMacroHead (n + 1) c d := by
  obtain ⟨e, f, g, he, hf, hg, hd⟩ := h
  exact ⟨e, f, g, he, hf, hg.mono fun _ _ h => h.succ, hd⟩

theorem SpansCallHead.succ (h : SpansCallHead n c d) : SpansCallHead (n + 1) c d := by
  obtain ⟨e, f, he, hf, hd⟩ := h
  refine ⟨e, f, he, hf.imp id ?_, hd⟩
  rintro ⟨m, g, rfl, ho, ha⟩
  exact ⟨m + 1, g, rfl, ho, ha.succ⟩

/-- A passage may be given one level more. -/
theorem Passage.Derives.succ {p : Passage} {k : Nat} (h : Derives p n k c d) :
    Derives p (n + 1) k c d := by
  induction h with
  | nothing => exact .nothing
  | text _ ih => exact .text ih
  | placeable _ ho hp ih => exact .placeable ih ho hp.succ
  | tag _ ho _ ih iht => exact .tag ih ho iht
  | body _ ho hw ih => exact .body ih ho hw
  | arm _ ih => exact .arm ih
  | elifArm _ hx _ ih ihb => exact .elifArm ih hx.succ ihb
  | ifTag hw hx _ hc ih => exact .ifTag hw hx.succ ih hc
  | ifElseTag hw hx _ he _ hc ihm iha => exact .ifElseTag hw hx.succ ihm he iha hc
  | forTag hw hx _ hc ih => exact .forTag hw hx.succ ih hc
  | forElseTag hw hx _ he _ hc ihm iha => exact .forElseTag hw hx.succ ihm he iha hc
  | setTag hw hx => exact .setTag hw hx.succ
  | macroTag hw hx _ hc ih => exact .macroTag hw hx.succ ih hc
  | callTag hw hx _ hc ih => exact .callTag hw hx.succ ih hc
  | filterTag hw hx _ hc ih => exact .filterTag hw hx.succ ih hc
  | blockTag hw hx _ hc ih => exact .blockTag hw hx ih hc
  | extendsTag hw hx => exact .extendsTag hw hx.succ

end Grammar
end TemplateSyntax
