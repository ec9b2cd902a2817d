import TemplateSyntax.Proofs.Completion
import TemplateSyntax.Proofs.TagPhrases

/-!
# Readers that run out of text

A reader that fails because the source ends has read the beginning of its phrase, and the phrase can
be completed. `RunsOut` says what holds if a reader fails this way; it is proved along the parts of
a reader from where each of them lands.
-/
namespace TemplateSyntax
open Relation (Comp)

/-- The source ends too early. -/
def Fault.IsEnd (f : Fault) : Prop := f.cause.reason = "unexpected eof"

theorem Fault.isEnd_unexpected {wanted : Wanted} {l : Lexeme}
    (h : (Fault.unexpected wanted l).IsEnd) : l.token = .endOfSource := by
  obtain ⟨token, span⟩ := l
  cases token with
  | endOfSource => rfl
  | _ => simp [Fault.IsEnd, Fault.unexpected, Cause.reason] at h

theorem Piece.error_first {quotes : Bool} {cs : List Char} {cause : Cause}
    (h : (first quotes cs).token = .error cause) :
    cause = .numberTooLarge ∨ cause = .unexpectedCharacter := by
  cases cs with
  | nil => cases h
  | cons c cs =>
    simp only [first] at h
    split at h
    · cases h
    · split at h
      · unfold number at h
        dsimp only at h
        split at h
        · cases h
        · cases h
          exact .inl rfl
      · split at h
        · cases h
        · split at h
          · cases h
          · cases h
            exact .inr rfl

/-- The lexer never finds that the source ends too early. -/
theorem Cursor.not_isEnd {c d : Cursor} {f : Fault} (h : c.next true = (.error f, d)) :
    ¬ f.IsEnd := by
  obtain ⟨hcause, -⟩ := next_eq_error h
  intro hend
  rcases Piece.error_first hcause with hc | hc
  · simp [Fault.IsEnd, hc, Cause.reason] at hend
  · simp [Fault.IsEnd, hc, Cause.reason] at hend

namespace Reader
variable {α β : Type}

/-- If the computation fails for a reader at the cursor because the source ends, then `V` holds. -/
def RunsOut (m : ReadM α) (c : Cursor) (V : Prop) : Prop :=
  Ensures (fun r => r.At c) m (fun _ _ => True) fun f _ => f.IsEnd → V

namespace RunsOut
variable {m : ReadM α} {f : α → ReadM β} {c d : Cursor} {G H : Cursor → Cursor → Prop} {V W : Prop}

theorem pure {a : α} : RunsOut (pure a) c V := Ensures.pure fun _ _ => trivial

/-- A token that stands where another one is wanted may be the end of the source. -/
theorem unexpected {l : Lexeme} {wanted : Wanted} (hl : c.Reads l.token d) (h : c.Blank → V) :
    RunsOut (throw (.unexpected wanted l) : ReadM α) d V :=
  Ensures.throw fun _ _ hend => h ((Fault.isEnd_unexpected hend) ▸ hl).blank

theorem throw {fault : Fault} (h : ¬ fault.IsEnd) : RunsOut (throw fault : ReadM α) c V :=
  Ensures.throw fun _ _ hend => absurd hend h

theorem mono (h : RunsOut m c V) (hVW : V → W) : RunsOut m c W :=
  Ensures.mono h (fun _ h => h) (fun _ _ h => h) fun _ _ h hend => hVW (h hend)

/-- A computation that succeeds does not run out. -/
theorem of_passes {P : α → Prop} (h : Passes m c d P) : RunsOut m c V := by
  intro r hr
  obtain ⟨a, t, ht, -⟩ := h r hr
  rw [ht]
  trivial

theorem bind {Q : α → Cursor → Prop} (hl : Lands m c Q) (hm : RunsOut m c V)
    (hf : ∀ a d, Q a d → RunsOut (f a) d V) : RunsOut (m >>= f) c V := by
  intro r hr
  have hland := hl r hr
  have hout := hm r hr
  rw [run_bind]
  cases hmr : m r with
  | error fault t =>
    rw [hmr] at hout
    exact hout
  | ok a t =>
    rw [hmr] at hland
    obtain ⟨d, hd, ha⟩ := hland
    exact hf a d ha t hd

/-- Behind the last token that is read nothing runs out. -/
theorem last (hm : RunsOut m c V) (hf : ∀ a r, ∃ b, f a r = .ok b r) : RunsOut (m >>= f) c V := by
  intro r hr
  have hout := hm r hr
  rw [run_bind]
  cases hmr : m r with
  | error fault t =>
    rw [hmr] at hout
    exact hout
  | ok a t =>
    obtain ⟨b, hb⟩ := hf a t
    dsimp only
    rw [hb]
    trivial

theorem discard_last {b : β} (hm : RunsOut m c V) :
    RunsOut (do Functor.discard m; Pure.pure b) c V := by
  rw [TemplateSyntax.discard_bind]
  exact hm.last fun _ _ => ⟨b, rfl⟩

theorem discard_bind {Q : α → Cursor → Prop} {n : ReadM β} (hl : Lands m c Q) (hm : RunsOut m c V)
    (hf : ∀ a d, Q a d → RunsOut n d V) : RunsOut (do Functor.discard m; n) c V := by
  rw [TemplateSyntax.discard_bind]
  exact hm.bind hl hf

/-- Two phrases in a row are completable if the first one is and the second one is writable, or if
the first one was read and the second one is completable. -/
theorem comp (hl : Lands m c fun _ d => G c d)
    (hm : RunsOut m c (Completable G c))
    (hG : ∀ d v, G c d → Apart v → G (c.extend v) (d.extend v)) (hH : Writable H)
    (hf : ∀ a d, G c d → RunsOut (f a) d (Completable H d)) :
    RunsOut (m >>= f) c (Completable (Comp G H) c) :=
  (hm.mono fun h => h.comp hH).bind hl fun a d hd =>
    (hf a d hd).mono fun h => h.imp fun v hv _ he => ⟨d.extend v, hG d v hd hv, he⟩

theorem discard_comp {n : ReadM β} (hl : Lands m c fun _ d => G c d)
    (hm : RunsOut m c (Completable G c))
    (hG : ∀ d v, G c d → Apart v → G (c.extend v) (d.extend v)) (hH : Writable H)
    (hf : ∀ d, G c d → RunsOut n d (Completable H d)) :
    RunsOut (do Functor.discard m; n) c (Completable (Comp G H) c) := by
  rw [TemplateSyntax.discard_bind]
  exact comp hl hm hG hH fun _ => hf

theorem next : RunsOut Reader.next c V := by
  intro r hr
  cases hn : Reader.next r with
  | ok l t => trivial
  | error fault t =>
    obtain ⟨-, hc, -⟩ := Reader.next_eq_error hn
    exact fun hend => absurd hend (Cursor.not_isEnd hc)

theorem peek_bind {f : Lexeme → ReadM β} (h : ∀ l d, c.Reads l.token d → RunsOut (f l) c V) :
    RunsOut (peek >>= f) c V := by
  refine Ensures.bind (Q := fun l t => t.At c ∧ ∃ d, c.Reads l.token d) ?_
    fun l r ⟨hr, d, hd⟩ => h l d hd r hr
  intro r hr
  have hnext := next (V := V) r hr
  rw [run_peek]
  cases hn : Reader.next r with
  | error fault t => rwa [hn] at hnext
  | ok l t =>
    obtain ⟨hc, -⟩ := hr.next_eq_ok hn
    exact ⟨.inr ⟨l, rfl, hc⟩, t.cursor, l.span, hc⟩

theorem skip {n : ReadM β} {t : Token} (ht : c.Reads t d) (hn : RunsOut n d V) :
    RunsOut (do Functor.discard Reader.next; n) c V := by
  refine next.discard_bind (Lands.next_of_reads ht) fun _ e he => ?_
  rwa [he]

theorem test_bind {t : Token} {f : Bool → ReadM β} (ht : ∀ d, c.Reads t d → RunsOut (f true) c V)
    (hf : (∀ d, ¬ c.Reads t d) → RunsOut (f false) c V) :
    RunsOut (peek >>= fun l => f (l.token == t)) c V := by
  refine peek_bind fun l d hl => ?_
  by_cases h : l.token = t
  · rw [beq_iff_eq.mpr h]
    exact ht d (h ▸ hl)
  · rw [beq_false_of_ne h]
    exact hf fun e he => h (hl.unique he).1

theorem atSymbol_bind {s : Symbol} {f : Bool → ReadM β}
    (ht : ∀ d, c.ReadsSymbol s d → RunsOut (f true) c V)
    (hf : (∀ d, ¬ c.ReadsSymbol s d) → RunsOut (f false) c V) :
    RunsOut (atSymbol s >>= f) c V := by
  rw [atSymbol_bind_eq]
  exact test_bind ht hf

theorem atKeyword_bind {k : Keyword} {f : Bool → ReadM β}
    (ht : ∀ d, c.ReadsWord k d → RunsOut (f true) c V) (hf : RunsOut (f false) c V) :
    RunsOut (atKeyword k >>= f) c V := by
  rw [atKeyword_bind_eq]
  exact test_bind ht fun _ => hf

theorem expectSymbol {s : Symbol} (h : c.Blank → V) : RunsOut (expectSymbol s) c V := by
  refine next.bind Lands.next fun l d hl => ?_
  split
  · exact pure
  · exact unexpected hl h

theorem expectKeyword {k : Keyword} (h : c.Blank → V) : RunsOut (expectKeyword k) c V := by
  refine next.bind Lands.next fun l d hl => ?_
  split
  · exact pure
  · exact unexpected hl h

theorem expectName (h : c.Blank → V) : RunsOut expectName c V := by
  refine next.bind Lands.next fun l d hl => ?_
  split
  · exact pure
  · exact unexpected hl h

theorem variableName (h : c.Blank → V) : RunsOut variableName c V :=
  (expectName h).last fun _ _ => ⟨_, rfl⟩

theorem loop {step : β → ReadM (ForInStep β)} (hs : Descends Reader.size step)
    {I Q : β → Cursor → Prop} (hl : ∀ b d, I b d → Lands (step b) d (OnPass Q I))
    (h : ∀ b d, I b d → RunsOut (step b) d V) {b : β} (hb : I b c) :
    RunsOut (loop Reader.size step b) c V := by
  have hloop := Ensures.loop hs (I := fun b r => ∃ d, r.At d ∧ I b d) (Q := fun _ _ => True)
    (E := fun f _ => f.IsEnd → V) ?_ b
  · exact hloop.before fun r hr => ⟨c, hr, hb⟩
  · rintro b r ⟨d, hd, hI⟩
    have hland := hl b d hI r hd
    have hout := h b d hI r hd
    cases hr : step b r with
    | error f t => rwa [hr] at hout
    | ok x t =>
      rw [hr] at hland
      cases x with
      | done b' => trivial
      | yield b' => exact hland

/-- Items that are unfinished are completed by closing them behind the last item. -/
theorem items {item : ReadM α} {G : Cursor → Cursor → Prop} (hc : Consumes Reader.size item)
    (hl : ∀ c, Lands item c fun _ d => G c d)
    (hG : ∀ c d v, G c d → Apart v → G (c.extend v) (d.extend v))
    (h : ∀ c, RunsOut item c (Completable G c)) (c : Cursor) :
    RunsOut (items item) c (Completable (Items G) c) := by
  -- Either any items may follow, or the parenthesis does.
  let Open (d : Cursor) : Prop :=
    (∀ v, Apart v → ∀ e, Items G (d.extend v) e → Items G (c.extend v) e) ∨
      ∃ e, d.ReadsSymbol .closeParen e
  have hopen : Open c := .inl fun _ _ _ h => h
  have hstep (found : List α) (d : Cursor) (hd : Open d) :
      Lands (nextItem item found) d (OnPass (fun _ => Open) fun _ => Open) := by
    refine Lands.atSymbol_bind (fun e he => Lands.pure (.inr ⟨e, he⟩)) fun hnot => ?_
    refine (hl d).bind fun x e hx => Lands.atSymbol_bind (fun f hf => Lands.pure (.inr ⟨f, hf⟩))
      fun _ => (Lands.expectSymbol .comma).discard.bind fun _ f hf => Lands.pure (.inl ?_)
    have hany := hd.resolve_right fun ⟨e, he⟩ => hnot e he
    exact fun v hv g hg => hany v hv g (.more (hG d e v hx hv) (hf.extend (by decide) hv) hg)
  have hout (found : List α) (d : Cursor) (hd : Open d) :
      RunsOut (nextItem item found) d (Completable (Items G) c) := by
    refine atSymbol_bind (fun _ _ => pure) fun hnot => ?_
    have hany := hd.resolve_right fun ⟨e, he⟩ => hnot e he
    refine ((h d).mono fun h => ?_).bind (hl d) fun x e hx =>
      atSymbol_bind (fun _ _ => pure) fun _ => ?_
    · refine (h.comp writable_closeParen).imp fun v hv f hf => hany v hv f ?_
      obtain ⟨e, he, hf⟩ := hf
      exact .last he hf
    · refine (expectSymbol fun hblank => ?_).discard_last
      exact (writable_closeParen.completable hblank).imp fun v hv f hf =>
        hany v hv f (.last (hG d e v hx hv) hf)
  refine (loop (descends_nextItem hc) hstep hout hopen).bind
    (Lands.loop (descends_nextItem hc) hstep hopen) fun found d hd => ?_
  refine last ?_ fun _ _ => ⟨_, rfl⟩
  rcases hd with hany | ⟨e, he⟩
  · exact expectSymbol fun hblank => (writable_closeParen.completable hblank).imp fun v hv f hf =>
      hany v hv f (.close hf)
  · exact of_passes (Passes.expectSymbol he)

end RunsOut
end Reader

/-! ## Expressions -/

/-- The phrase is completable, and its first token stays as it is; or nothing of it was read. -/
def Unfinished (G : Cursor → Cursor → Prop) (c : Cursor) : Prop :=
  c.Blank ∨ (∃ t d, c.Reads t d ∧ t.Firm) ∧ Completable G c

theorem Unfinished.completable {G : Cursor → Cursor → Prop} {c : Cursor} (h : Unfinished G c)
    (hG : Writable G) : Completable G c := by
  rcases h with hblank | ⟨-, h⟩
  · exact hG.completable hblank
  · exact h

theorem Unfinished.mono {G H : Cursor → Cursor → Prop} {c : Cursor} (h : Unfinished G c)
    (hGH : ∀ c d, G c d → H c d) : Unfinished H c :=
  h.imp id fun ⟨hfirm, h⟩ => ⟨hfirm, h.mono hGH⟩

namespace Expression
open Reader Phrase

/-- What the readers of one level have begun when they run out. An operation may be the right side
of pending operators: then it is the whole operation that can be completed. -/
structure Viable (n : Nat) : Prop where
  operand : ∀ c, RunsOut (operand (descend n)) c (Completable (Derives .operand n) c)
  operation : ∀ {bars : Bool} {stops : List String} (pending : List Binding) (b c : Cursor),
    StopsAt bars stops → (∀ o ∈ pending, 1 < o.rightMinimum) →
    (∀ v, Apart v → ∀ d, Derives .operand n (c.extend v) d →
      Derives (.operation bars pending) (n + pending.length) (b.extend v) d) →
    RunsOut (operation (descend n) stops (minimum pending)) c
      (Completable (fun b d => ∃ p, Derives (.operation bars p) (n + pending.length) b d) b)

theorem Viable.completable {n : Nat} (h : Viable n) {bars : Bool} {stops : List String}
    (hs : StopsAt bars stops) (c : Cursor) :
    RunsOut (Expression.operation (descend n) stops 0) c
      (Completable (fun c d => ∃ pending, Derives (.operation bars pending) n c d) c) :=
  h.operation [] c c hs (by simp) fun _ _ _ hd => .operand hd

theorem runsOut_descend {n : Nat} {span : Span} {β : Type} {f : Level → ReadM β} {c : Cursor}
    {V : Prop} (h : ∀ m, n = m + 1 → RunsOut (f ⟨operand (descend m), operation (descend m)⟩) c V) :
    RunsOut (descend n span >>= f) c V := by
  cases n with
  | zero =>
    rw [descend_zero_bind]
    exact RunsOut.throw (by simp [Fault.IsEnd, Cause.reason])
  | succ m =>
    rw [descend_succ_bind]
    exact h m rfl

theorem runsOut_stringValue {raw : String} {span : Span} {c : Cursor} {V : Prop} :
    RunsOut (stringValue raw span) c V := by
  unfold stringValue
  split
  · exact RunsOut.throw (by simp [Fault.IsEnd, Cause.reason])
  · split
    · exact RunsOut.pure
    · exact RunsOut.throw (by simp [Fault.IsEnd, Cause.reason])
    · exact RunsOut.throw (by simp [Fault.IsEnd, Cause.reason])

section Levels
variable {n : Nat} (hn : ∀ m, n = m + 1 → Viable m)
include hn

theorem runsOut_arguments {c e : Cursor} (ho : c.ReadsSymbol .openParen e) :
    RunsOut (arguments (descend n)) c (Completable (SpansArguments n) c) := by
  refine RunsOut.bind (Lands.expectSymbol _) (.of_passes (Passes.expectSymbol ho))
    fun span d hd => runsOut_descend fun m hm => ?_
  refine (RunsOut.items (consumes_operation (tokenWise_descend m) _ _)
    ((sound m).derives stopsAt_items) (fun _ _ _ h hv => Spans.extend h hv)
    ((hn m hm).completable stopsAt_items) d).mono fun h => ?_
  exact h.imp fun v hv f hf =>
    ⟨m, d.extend v, hm, hd.extend (by decide) hv, derives_arguments_of_items hf⟩

theorem runsOut_primary (c : Cursor) :
    RunsOut (primary (descend n)) c (Unfinished (Derives .primary n) c) := by
  refine RunsOut.next.bind Lands.next fun l d hl => ?_
  unfold primaryFrom
  split
  · exact .pure
  · exact runsOut_stringValue
  · exact .pure
  · next ht =>
    rw [ht] at hl
    refine runsOut_descend fun m hm => ?_
    subst hm
    refine RunsOut.bind ((sound m).derives stopsAt_parens d)
      (((hn m rfl).completable stopsAt_parens d).mono fun h => .inr ⟨⟨_, d, hl, nofun⟩, ?_⟩)
      fun _ e he => ?_
    · refine (h.comp writable_closeParen).imp fun v hv f hf => ?_
      obtain ⟨e, ⟨pending, he⟩, hf⟩ := hf
      exact .parens (hl.extend nofun hv) he hf
    · obtain ⟨pending, he⟩ := he
      refine (RunsOut.expectSymbol fun hblank => .inr ⟨⟨_, d, hl, nofun⟩, ?_⟩).discard_last
      exact (writable_closeParen.completable hblank).imp fun v hv f hf =>
        .parens (hl.extend nofun hv) (he.extend hv) hf
  · exact RunsOut.unexpected hl .inl

theorem runsOut_nextSuffix {c d : Cursor} (hd : Derives .term n c d) (e : Expression) :
    RunsOut (nextSuffix (descend n) e) d (Unfinished (Derives .term n) c) := by
  refine RunsOut.atSymbol_bind (fun f hdot => ?_) fun _ => RunsOut.atSymbol_bind (fun f ho => ?_)
    fun _ => .pure
  · refine RunsOut.skip hdot ((RunsOut.variableName fun hblank => .inr ⟨hd.firm, ?_⟩).last
      fun _ _ => ⟨_, rfl⟩)
    exact (writable_name.completable hblank).imp fun v hv g hg =>
      .member (hd.extend hv) (hdot.extend (by decide) hv) hg
  · refine ((runsOut_arguments hn ho).mono fun h => .inr ⟨hd.firm, ?_⟩).last fun _ _ => ⟨_, rfl⟩
    refine h.imp fun v hv g hg => ?_
    obtain ⟨m, f, rfl, ho, ha⟩ := hg
    exact .call (hd.extend hv) ho ha

theorem runsOut_term (c : Cursor) :
    RunsOut (term (descend n)) c (Unfinished (Derives .term n) c) := by
  refine ((runsOut_primary hn c).mono fun h => h.mono fun _ _ h => .primary h).bind
    (lands_primary (fun m _ => sound m) c) fun e d hd => ?_
  exact RunsOut.loop (descends_nextSuffix (tokenWise_descend n))
    (I := fun _ d => Derives .term n c d) (Q := fun _ d => Derives .term n c d)
    (fun e _ hd => lands_nextSuffix (fun m _ => sound m) hd e)
    (fun e _ hd => runsOut_nextSuffix hn hd e) (.primary hd)

theorem runsOut_operand (c : Cursor) :
    RunsOut (operand (descend n)) c (Completable (Derives .operand n) c) := by
  refine RunsOut.peek_bind fun l d hl => ?_
  split
  · next hs =>
    refine (runsOut_term hn c).mono fun h => ?_
    rcases h with hblank | ⟨⟨t, e, hr, ht⟩, h⟩
    · exact writable_operand.completable hblank
    · -- The term still begins with a token that is no sign.
      refine h.imp fun v hv f hf => .term (fun g hg => ?_) hf
      rw [(hl.unique hr).1, ((hr.extend ht hv).unique hg).1] at hs
      exact absurd hs (by decide)
  · next op hs =>
    have hsign : c.ReadsSymbol .minus d ∨ c.ReadsWord .notWord d := by
      rcases sign?_isSome_iff.mp (Option.isSome_of_eq_some hs) with ht | ht
      · rw [ht] at hl
        exact .inl hl
      · rw [ht] at hl
        exact .inr hl
    refine RunsOut.skip hl (runsOut_descend fun m hm => ?_)
    subst hm
    refine (((hn m rfl).operand d).mono fun h => ?_).last fun _ _ => ⟨_, rfl⟩
    exact h.imp fun v hv e he =>
      .sign (hsign.imp (·.extend (by decide) hv) (·.extend hv)) he

/-- One more operator or filter that is unfinished. What stands before it is found again. -/
theorem runsOut_nextJoint {bars : Bool} {stops : List String} {pending : List Binding}
    {c d : Cursor} (hs : StopsAt bars stops) (hp : ∀ o ∈ pending, 1 < o.rightMinimum)
    (hl : Joined bars pending (n + pending.length) c d) (left : Expression) :
    RunsOut (nextJoint (descend n) stops (minimum pending) left) d
      (Completable (fun c d => ∃ p, Derives (.operation bars p) (n + pending.length) c d) c) := by
  refine RunsOut.peek_bind fun l e he => ?_
  split
  · exact .pure
  · next b hj =>
    obtain ⟨ht, rfl, hle, -⟩ := (joint?_eq_filter_iff hs).mp hj
    obtain ⟨done, hl, -⟩ := hl
    rw [ht] at he
    have hnil : pending = [] := by
      cases pending with
      | nil => rfl
      | cons o pending =>
        have hlt := hp o (by simp)
        simp only [minimum] at hle
        omega
    subst hnil
    refine RunsOut.skip he (((runsOut_term hn e).mono fun h => ?_).last fun _ _ => ⟨_, rfl⟩)
    exact (h.completable writable_term).imp fun v hv f hf =>
      ⟨[], .filter (hl.extend hv) (Cursor.ReadsSymbol.extend he (by decide) hv) hf⟩
  · next op b hj =>
    obtain ⟨hop, hbind, hle⟩ := (joint?_eq_binary_iff hs).mp hj
    obtain ⟨done, hl, hdone⟩ := hl
    have hpush : push b (done ++ pending) = b :: pending :=
      push_append (hdone b ⟨_, e, op, he, hop, hbind⟩) hle
    refine RunsOut.skip he (runsOut_descend fun m hm => ?_)
    have hlevels : n + pending.length = m + (b :: pending).length := by
      rw [hm, List.length_cons]
      omega
    have hp' : ∀ o ∈ b :: pending, 1 < o.rightMinimum := by
      intro o ho
      rcases List.mem_cons.mp ho with rfl | ho
      · exact Operator.one_lt_rightMinimum hbind
      · exact hp o ho
    rw [hlevels] at hl ⊢
    have hoperand : ∀ v, Apart v → ∀ f, Derives .operand m (e.extend v) f →
        Derives (.operation bars (b :: pending)) (m + (b :: pending).length) (c.extend v) f := by
      intro v hv f hf
      rw [← hpush] at hl ⊢
      exact .binary (hl.extend hv) (he.extend hop.firm hv) hop hbind hf
    exact ((hn m hm).operation (b :: pending) c e hs hp' hoperand).last fun _ _ => ⟨_, rfl⟩

/-- The readers of a level can be completed if those of the next level can. -/
theorem viable_of_deeper : Viable n where
  operand := runsOut_operand hn
  operation {bars} _ pending b c hs hp hoperand := by
    refine ((runsOut_operand hn c).mono fun h => ?_).bind (lands_operand (fun m _ => sound m) c)
      fun left d hd => ?_
    · exact h.imp fun v hv d hd => ⟨pending, hoperand v hv d hd⟩
    · have hfirst : Derives (.operation bars pending) (n + pending.length) b d := by
        have h := hoperand [] .nil d (by simpa using hd)
        simpa using h
      exact RunsOut.loop (descends_nextJoint (tokenWise_descend n) _ _)
        (I := fun _ d => Joined _ pending (n + pending.length) b d)
        (Q := fun _ d => Joined _ pending (n + pending.length) b d ∧
          ∀ o, d.ReadsOperator o → o.power < minimum pending)
        (fun left d hl => lands_nextJoint (fun m _ => sound m) hs hp hl left)
        (fun left d hl => runsOut_nextJoint hn hs hp hl left) ⟨[], hfirst, by simp⟩

end Levels

theorem viable (n : Nat) : Viable n := by
  induction n using levels_induction with
  | level n hn => exact viable_of_deeper hn

/-- An expression that is unfinished can be completed. -/
theorem runsOut_read {stops : List String} (hs : StopsAt true stops) (n : Nat) (c : Cursor) :
    RunsOut (read n stops) c (Completable (Spans n) c) :=
  (viable n).completable hs c

theorem runsOut_readFilter (n : Nat) (c : Cursor) :
    RunsOut (readFilter n) c (Completable (Derives .term n) c) :=
  (runsOut_term (fun m _ => viable m) c).mono fun h => h.completable writable_term

end Expression

/-! ## Tags -/

namespace Reader
open Draft Expression

section Tags
variable {n : Nat} (c : Cursor)

theorem runsOut_symbol {s : Symbol} (hs : s ≠ .openBrace) :
    RunsOut (expectSymbol s) c (Completable (fun c d => c.ReadsSymbol s d) c) :=
  RunsOut.expectSymbol (writable_symbol hs).completable

theorem runsOut_name : RunsOut expectName c (Completable Cursor.ReadsName c) :=
  RunsOut.expectName writable_name.completable

theorem lands_name : Lands expectName c fun _ d => c.ReadsName d :=
  Lands.expectName.mono fun name _ h => ⟨name.value, h⟩

theorem runsOut_lastExpression : RunsOut (lastExpression n) c (Completable (SpansLast n) c) :=
  RunsOut.comp (lands_read stopsAt_tag n c) (runsOut_read stopsAt_tag n c)
    (fun _ _ h hv => h.extend hv) writable_endTag fun _ d _ =>
    (runsOut_symbol d (by decide)).discard_last

theorem runsOut_nextName {d : Cursor} (hd : SpansNames c d) (names : List Variable × Span) :
    RunsOut (nextName names) d (Completable SpansNames c) := by
  refine RunsOut.atSymbol_bind (fun e he => ?_) fun _ => .pure
  refine RunsOut.skip he ((RunsOut.variableName fun hblank => ?_).last fun _ _ => ⟨_, rfl⟩)
  exact (writable_name.completable hblank).imp fun v hv f hf =>
    .more (hd.extend hv) (he.extend (by decide) hv) hf

theorem runsOut_pattern : RunsOut pattern c (Completable SpansNames c) := by
  refine (RunsOut.variableName fun hblank => ?_).bind Lands.variableName fun first d hd => ?_
  · exact (writable_name.completable hblank).mono fun _ _ h => .one h
  · refine RunsOut.atSymbol_bind (fun _ _ => ?_) fun _ => .pure
    exact (RunsOut.loop descends_nextName (I := fun _ d => SpansNames c d)
      (Q := fun _ d => SpansNames c d) (fun names d hd => lands_nextName c hd names)
      (fun names d hd => runsOut_nextName c hd names) (.one hd)).last fun _ _ => ⟨_, rfl⟩

theorem writable_endPut : Writable fun c d => c.ReadsSymbol .endPut d := writable_symbol (by decide)

theorem runsOut_nextFilter {pending : List Binding} {d e : Cursor}
    (hd : Phrase.Derives (.operation false pending) n c d) (he : SpansFilters n d e)
    (filters : List Expression) :
    RunsOut (nextFilter n filters) e (Completable (SpansPlaceable n) c) := by
  refine RunsOut.atSymbol_bind (fun f hf => ?_) fun _ => .pure
  refine RunsOut.skip hf (((runsOut_readFilter n f).mono fun h => ?_).last fun _ _ => ⟨_, rfl⟩)
  refine (h.comp writable_endPut).imp fun v hv g hg => ?_
  obtain ⟨h, ht, hg⟩ := hg
  exact ⟨pending, d.extend v, h, hd.extend hv, .more (he.extend hv) (hf.extend (by decide) hv) ht,
    hg⟩

theorem runsOut_placeable (opening : Span) :
    RunsOut (placeable n opening) c (Completable (SpansPlaceable n) c) := by
  refine (((viable n).completable stopsAt_placeable c).mono fun h => ?_).bind
    ((sound n).derives stopsAt_placeable c) fun value d hd => ?_
  · refine (h.comp writable_endPut).mono fun c d h => ?_
    obtain ⟨e, ⟨pending, he⟩, hd⟩ := h
    exact ⟨pending, e, e, he, .none, hd⟩
  · obtain ⟨pending, hd⟩ := hd
    refine (RunsOut.loop descends_nextFilter (I := fun _ e => SpansFilters n d e)
      (Q := fun _ e => SpansFilters n d e) (fun filters _ he => lands_nextFilter d he filters)
      (fun filters _ he => runsOut_nextFilter c hd he filters) .none).bind (lands_filters d)
      fun filters e he => (RunsOut.expectSymbol fun hblank => ?_).last fun _ _ => ⟨_, rfl⟩
    exact (writable_endPut.completable hblank).imp fun v hv f hf =>
      ⟨pending, d.extend v, e.extend v, hd.extend hv, he.extend hv, hf⟩

/-- The condition of a loop, if it has one. -/
def SpansCondition (n : Nat) : Cursor → Cursor → Prop :=
  Optionally fun c d => ∃ e, c.ReadsWord .ifWord e ∧ Expression.Spans n e d

theorem SpansCondition.extend {d : Cursor} {v : List Char} (h : SpansCondition n c d)
    (hv : Apart v) : SpansCondition n (c.extend v) (d.extend v) :=
  Optionally.extend (fun _ _ ⟨e, he, hd⟩ => ⟨e.extend v, he.extend hv, hd.extend hv⟩) h

theorem runsOut_loopCondition :
    RunsOut (loopCondition n) c (Completable (SpansCondition n) c) := by
  refine RunsOut.atKeyword_bind (fun e he => ?_) .pure
  refine RunsOut.skip he (((runsOut_read stopsAt_tag n e).mono fun h => ?_).last
    fun _ _ => ⟨_, rfl⟩)
  exact h.imp fun v hv d hd => .inr ⟨e.extend v, he.extend hv, hd⟩

theorem runsOut_loopHead : RunsOut (loopHead n) c (Completable (SpansLoopHead n) c) := by
  have hend : Writable (Comp (SpansCondition n) fun c d => c.ReadsSymbol .endTag d) :=
    writable_endTag.mono fun c d h => ⟨c, .inl rfl, h⟩
  have hiterable := (writable_spans (n := n)).comp hend
  refine (RunsOut.comp (lands_pattern c) (runsOut_pattern c) (fun _ _ h hv => h.extend hv)
    ((writable_word .inWord).comp hiterable) fun _ d _ => ?_).mono fun h => h.mono fun c d h => ?_
  · refine RunsOut.discard_comp (Lands.expectKeyword _)
      (RunsOut.expectKeyword (writable_word _).completable) (fun _ _ h hv => h.extend hv)
      hiterable fun e _ => ?_
    refine RunsOut.comp (lands_read stopsAt_iterable n e) (runsOut_read stopsAt_iterable n e)
      (fun _ _ h hv => h.extend hv) hend fun _ f _ => ?_
    exact RunsOut.comp (lands_loopCondition f) (runsOut_loopCondition f)
      (fun _ _ h hv => SpansCondition.extend f h hv) writable_endTag fun _ g _ =>
      (runsOut_symbol g (by decide)).discard_last
  · obtain ⟨e, he, f, hf, g, hg, h, hh, hd⟩ := h
    exact ⟨e, f, g, h, he, hf, hg, hh, hd⟩

theorem runsOut_setTag (opening : Span) :
    RunsOut (setTag n opening) c (Completable (SpansAssignment n) c) := by
  have hassign : Symbol.assign ≠ .openBrace := by decide
  refine (RunsOut.comp (lands_pattern c) (runsOut_pattern c) (fun _ _ h hv => h.extend hv)
    ((writable_symbol hassign).comp (writable_last (n := n))) fun _ d _ => ?_).mono
    fun h => h.mono fun c d h => ?_
  · refine RunsOut.discard_comp (Lands.expectSymbol _) (runsOut_symbol d hassign)
      (fun _ _ h hv => h.extend hassign hv) writable_last fun e _ => ?_
    exact RunsOut.comp (lands_read stopsAt_tag n e) (runsOut_read stopsAt_tag n e)
      (fun _ _ h hv => h.extend hv) writable_endTag fun _ f _ =>
      (runsOut_symbol f (by decide)).last fun _ _ => ⟨_, rfl⟩
  · obtain ⟨e, he, f, hf, hd⟩ := h
    exact ⟨e, f, he, hf, hd⟩

theorem runsOut_callArguments :
    RunsOut (callArguments n) c (Completable (Optionally (SpansArguments n)) c) := by
  refine RunsOut.atSymbol_bind (fun e he => ?_) fun _ => .pure
  exact ((runsOut_arguments (fun m _ => viable m) he).mono fun h => h.mono fun _ _ h => .inr h).last
    fun _ _ => ⟨_, rfl⟩

theorem runsOut_callHead : RunsOut (callHead n) c (Completable (SpansCallHead n) c) := by
  have hend : Writable (Comp (Optionally (SpansArguments n)) fun c d => c.ReadsSymbol .endTag d) :=
    writable_endTag.mono fun c d h => ⟨c, .inl rfl, h⟩
  refine (RunsOut.comp (lands_name c) (runsOut_name c) (fun _ _ h hv => h.extend hv) hend
    fun _ d _ => ?_).mono fun h => h.mono fun c d h => ?_
  · exact RunsOut.comp (lands_callArguments d) (runsOut_callArguments d)
      (fun _ _ h hv => Optionally.extend (fun _ _ h => h.extend hv) h) writable_endTag fun _ e _ =>
      (runsOut_symbol e (by decide)).discard_last
  · obtain ⟨e, he, f, hf, hd⟩ := h
    exact ⟨e, f, he, hf, hd⟩

theorem runsOut_blockHead :
    RunsOut blockHead c (Completable (fun c d => ∃ name, SpansBlockHead name c d) c) := by
  refine (RunsOut.comp (lands_name c) (runsOut_name c) (fun _ _ h hv => h.extend hv)
    writable_endTag fun _ d _ => (runsOut_symbol d (by decide)).discard_last).mono
    fun h => h.mono fun c d h => ?_
  obtain ⟨e, ⟨name, he⟩, hd⟩ := h
  exact ⟨name, e, he, hd⟩

theorem runsOut_blockEnd (name : String) :
    RunsOut (blockEnd name) c (Completable (SpansBlockEnd name) c) := by
  have hname : RunsOut (closingName name) c (Completable (SpansBlockEnd name) c) := by
    refine RunsOut.peek_bind fun l d hl => ?_
    split
    · split
      · exact RunsOut.next.last fun _ _ => ⟨_, rfl⟩
      · exact RunsOut.throw (by simp [Fault.IsEnd, Cause.reason])
    · exact .pure
  refine hname.bind (lands_closingName c name) fun _ d hd => RunsOut.expectSymbol fun hblank => ?_
  exact (writable_endTag.completable hblank).imp fun v hv e he =>
    ⟨d.extend v, Optionally.extend (fun _ _ h => h.extend trivial hv) hd, he⟩

theorem runsOut_parameter : RunsOut (parameter n) c (Completable (SpansParameter n) c) := by
  refine ((runsOut_name c).mono fun h => h.mono fun c d h => ?_).bind (lands_name c)
    fun _ d hd => RunsOut.atSymbol_bind (fun e he => ?_) fun _ => .pure
  · exact ⟨d, h, .inl rfl⟩
  · refine RunsOut.skip he (((runsOut_read stopsAt_items n e).mono fun h => ?_).last
      fun _ _ => ⟨_, rfl⟩)
    exact h.imp fun v hv f hf =>
      ⟨d.extend v, hd.extend hv, .inr ⟨e.extend v, he.extend (by decide) hv, hf⟩⟩

theorem runsOut_macroHead : RunsOut (macroHead n) c (Completable (SpansMacroHead n) c) := by
  have hparen : Symbol.openParen ≠ .openBrace := by decide
  have hitems : Writable (Comp (Items (SpansParameter n)) fun c d => c.ReadsSymbol .endTag d) :=
    (writable_closeParen.mono fun _ _ h => .close h).comp writable_endTag
  refine (RunsOut.comp (lands_name c) (runsOut_name c) (fun _ _ h hv => h.extend hv)
    ((writable_symbol hparen).comp hitems) fun _ d _ => ?_).mono fun h => h.mono fun c d h => ?_
  · refine RunsOut.discard_comp (Lands.expectSymbol _) (runsOut_symbol d hparen)
      (fun _ _ h hv => h.extend hparen hv) hitems fun e _ => ?_
    exact RunsOut.comp (Lands.items consumes_parameter lands_parameter e)
      (RunsOut.items consumes_parameter lands_parameter (fun _ _ _ h hv => h.extend hv)
        runsOut_parameter e)
      (fun _ _ h hv => h.extend hv fun _ _ h => h.extend hv) writable_endTag fun _ f _ =>
      (runsOut_symbol f (by decide)).discard_last
  · obtain ⟨e, he, f, hf, g, hg, hd⟩ := h
    exact ⟨e, f, g, he, hf, hg, hd⟩

end Tags
end Reader
end TemplateSyntax
