import TemplateSyntax.Proofs.TemplateCompleteness
import TemplateSyntax.Proofs.UnfinishedReading

/-!
# What ends too early can be completed

A draft that runs out of text has read the beginning of a template. The rest of the tag that it was
reading can be written behind it, and the tags that close the bodies around it; these take one level
more than was open. The log tells how many templates were named to be extended, the last of them
perhaps in a tag that is unfinished.
-/
namespace TemplateSyntax
open Relation (Comp)

/-- A tag begins that names a template to extend. -/
def Event.isExtends : Event → Bool
  | .tag name _ => name == Keyword.extendsWord.spelling
  | _ => false

namespace Draft
open Passage Reader
variable {α β : Type}

/-- How many tags have begun that name a template to extend. -/
def extensions (s : Draft) : Nat := s.log.countP Event.isExtends

/-- If the computation fails for a draft at the cursor because the source ends, then `V` holds for a
number of new parents that there is room for. At the start the log has `j` more tags that name a
parent than there are parents, at the end no fewer. -/
def RunsOut (j : Nat) (m : DraftM α) (c : Cursor) (V : Nat → Prop) : Prop :=
  ∀ p, Ensures (fun s => s.At c ∧ s.parents = p ∧ p + j ≤ s.extensions) m
    (fun _ t => t.parents ≤ t.extensions)
    fun f t => f.IsEnd → t.extensions ≤ 1 → ∃ k, p + k ≤ 1 ∧ V k

/-- The computation always succeeds, only adds to what was read, and forgets no event. -/
def Notes (m : DraftM α) : Prop :=
  ∀ s, ∃ a t, m s = .ok a t ∧ t.reader = s.reader ∧ t.parent = s.parent ∧ s.log <+: t.log

theorem notes_push (x : Statement) : Notes (push x) :=
  fun _ => ⟨_, _, rfl, rfl, rfl, List.prefix_rfl⟩

theorem notes_position : Notes position := fun _ => ⟨_, _, rfl, rfl, rfl, List.prefix_rfl⟩

theorem notes_openBody : Notes openBody := fun _ => ⟨_, _, rfl, rfl, rfl, List.prefix_rfl⟩

theorem notes_closeBody (stop : Position) : Notes (closeBody stop) := by
  intro s
  rw [closeBody, run_modifyGet]
  cases s.enclosing with
  | nil => exact ⟨_, _, rfl, rfl, rfl, List.prefix_rfl⟩
  | cons outer others => exact ⟨_, _, rfl, rfl, rfl, List.prefix_rfl⟩

theorem notes_define (x : Definition) : Notes (define x) := by
  intro s
  cases x with
  | ofMacro m => exact ⟨_, _, rfl, rfl, rfl, List.prefix_append _ _⟩
  | ofBlock b => exact ⟨_, _, rfl, rfl, rfl, List.prefix_append _ _⟩

namespace RunsOut
variable {m : DraftM α} {f : α → DraftM β} {c : Cursor} {j : Nat} {V W : Nat → Prop}

theorem pure {a : α} : RunsOut j (pure a) c V := by
  intro p
  refine Ensures.pure fun s hs => ?_
  have := hs.2.2
  rw [hs.2.1]
  omega

theorem throw_of {fault : Fault} (h : V j) : RunsOut j (throw fault : DraftM α) c V :=
  fun _ => Ensures.throw fun _ hs _ hle => ⟨j, Nat.le_trans hs.2.2 hle, h⟩

theorem throw {fault : Fault} (h : ¬ fault.IsEnd) : RunsOut j (throw fault : DraftM α) c V :=
  fun _ => Ensures.throw fun _ _ hend => absurd hend h

theorem mono (h : RunsOut j m c V) (hVW : ∀ k, V k → W k) : RunsOut j m c W := by
  intro p
  refine (h p).mono (fun _ h => h) (fun _ _ h => h) fun _ _ h hend hlog => ?_
  obtain ⟨k, hk, hv⟩ := h hend hlog
  exact ⟨k, hk, hVW k hv⟩

/-- More may have been noted at the start. -/
theorem later (h : RunsOut 0 m c V) : RunsOut j m c V :=
  fun p => (h p).before fun _ hs => ⟨hs.1, hs.2.1, Nat.le_trans (Nat.le_add_right _ _) hs.2.2⟩

theorem bind {G : α → Nat → Cursor → Prop} (hl : Lands m c G) (hm : RunsOut j m c V)
    (hf : ∀ a i d, G a i d → RunsOut 0 (f a) d fun k => V (i + k)) : RunsOut j (m >>= f) c V := by
  intro p s hs
  have hland := hl p s ⟨hs.1, hs.2.1⟩
  have hout := hm p s hs
  rw [run_bind]
  cases hr : m s with
  | error e t =>
    rw [hr] at hout
    exact hout
  | ok a t =>
    rw [hr] at hland hout
    obtain ⟨i, d, hd, hi, ha⟩ := hland
    have hnoted : t.parents ≤ t.extensions := hout
    have hrest := hf a i d ha (p + i) t ⟨hd, hi, by omega⟩
    dsimp only
    cases hr' : f a t with
    | ok b u =>
      rw [hr'] at hrest
      exact hrest
    | error e u =>
      rw [hr'] at hrest
      intro hend hlog
      obtain ⟨k, hk, hv⟩ := hrest hend hlog
      exact ⟨i + k, by omega, hv⟩

/-- What only takes tokens leaves the parents to be named that the log has. -/
theorem lift_bind {m : ReadM α} {f : α → DraftM β} {G : α → Cursor → Prop}
    (hl : Reader.Lands m c G) (hs : Reader.Settles m) (hm : Reader.RunsOut m c (V j))
    (hf : ∀ a d, G a d → RunsOut j (f a) d V) : RunsOut j (liftM m >>= f) c V := by
  intro p s ⟨⟨hp, hc⟩, hparents, hlog⟩
  have hat : s.reader.At c := .inl ⟨hp, hc⟩
  rw [run_bind, run_lift]
  cases hr : m s.reader with
  | error e r =>
    intro hend hle
    exact ⟨j, Nat.le_trans hlog hle, Ensures.error hm hat hr hend⟩
  | ok a r =>
    obtain ⟨d, hd, ha⟩ := Ensures.ok hl hat hr
    have hnone : r.peeked = none := hs _ _ _ hr
    exact hf a d ha p _ ⟨⟨hnone, hd.cursor_eq hnone⟩, hparents, hlog⟩

theorem discard_lift_bind {m : ReadM α} {f : DraftM β} {G : α → Cursor → Prop}
    (hl : Reader.Lands m c G) (hs : Reader.Settles m) (hm : Reader.RunsOut m c (V j))
    (hf : ∀ a d, G a d → RunsOut j f d V) :
    RunsOut j (do Functor.discard (liftM m : DraftM α); f) c V := by
  rw [discard_bind]
  exact lift_bind hl hs hm hf

theorem notes_bind (hm : Notes m) (hf : ∀ a, RunsOut j (f a) c V) : RunsOut j (m >>= f) c V := by
  intro p s ⟨hs, hparents, hlog⟩
  obtain ⟨a, t, hr, hreader, hparent, hnoted⟩ := hm s
  rw [run_bind_ok hr]
  refine hf a p t ⟨?_, ?_, Nat.le_trans hlog hnoted.sublist.countP_le⟩
  · rw [At, hreader]
    exact hs
  · rw [parents, hparent]
    exact hparents

theorem notes (hm : Notes m) : RunsOut j m c V := by
  have h : RunsOut j (m >>= Pure.pure) c V := notes_bind hm fun _ => pure
  rwa [bind_pure] at h

/-- The log has one more tag that names a parent if the event is one. -/
theorem note_bind {e : Event} {f : Unit → DraftM β}
    (hf : RunsOut (j + [e].countP Event.isExtends) (f ()) c V) :
    RunsOut j (note e >>= f) c V := by
  intro p s ⟨hs, hparents, hlog⟩
  refine hf p { s with log := s.log ++ [e] } ⟨hs, hparents, ?_⟩
  rw [extensions] at hlog ⊢
  rw [List.countP_append]
  omega

theorem opening_bind {f : Option Lexeme → DraftM β}
    (hend : c.behindText.rest = [] → RunsOut j (f none) c.behindText V)
    (hopen : ∀ (l : Lexeme) (s : Symbol) d, l.token = .symbol s → c.behindText.Opens s d →
      RunsOut j (f (some l)) d V) : RunsOut j (opening >>= f) c V := by
  intro p s ⟨hs, hparents, hlog⟩
  rcases c.behindText_rest with hrest | hrest
  · rw [run_bind_ok (opening_of_end hs hrest)]
    exact hend hrest p _ ⟨hs.behindText, hparents, hlog⟩
  · obtain ⟨symbol, d, hsym, ho⟩ := Cursor.exists_opens hrest
    obtain ⟨l, r, hr, hl, hp, hd⟩ := opening_of_opens hs hsym ho
    rw [run_bind_ok hr]
    exact hopen l symbol d hl ho p _ ⟨⟨hp, hd⟩, hparents, hlog⟩

theorem loop {step : β → DraftM (ForInStep β)} (hs : Descends Draft.size step)
    {I Q : β → Nat → Cursor → Prop}
    (hl : ∀ b i d, I b i d → Lands (step b) d fun x k e =>
      OnPass (fun b => Q b (i + k)) (fun b => I b (i + k)) x e)
    (h : ∀ b i d, I b i d → RunsOut 0 (step b) d fun k => V (i + k)) {b : β} (hb : I b 0 c) :
    RunsOut 0 (loop Draft.size step b) c V := by
  intro p
  have hloop := Ensures.loop hs
    (I := fun b s => ∃ i d, s.At d ∧ s.parents = p + i ∧ s.parents ≤ s.extensions ∧ I b i d)
    (Q := fun _ t => t.parents ≤ t.extensions)
    (E := fun f t => f.IsEnd → t.extensions ≤ 1 → ∃ k, p + k ≤ 1 ∧ V k) ?_ b
  · exact hloop.before fun s hs => ⟨0, c, hs.1, hs.2.1, hs.2.1 ▸ hs.2.2, hb⟩
  · rintro b s ⟨i, d, hd, hi, hlog, hI⟩
    have hland := hl b i d hI (p + i) s ⟨hd, hi⟩
    have hout := h b i d hI (p + i) s ⟨hd, hi, by omega⟩
    cases hr : step b s with
    | error f t =>
      rw [hr] at hout
      intro hend hlog
      obtain ⟨k, hk, hv⟩ := hout hend hlog
      exact ⟨i + k, by omega, hv⟩
    | ok x t =>
      rw [hr] at hland hout
      obtain ⟨k, e, he, hk, hx⟩ := hland
      cases x with
      | done b' => exact hout
      | yield b' => exact ⟨i + k, e, he, by omega, hout, hx⟩

end RunsOut

/-! ## Tags -/

/-- A body that is unfinished can be completed and closed by any of the keywords, with one level
more. -/
def BodyReader.Viable (n : Nat) (body : BodyReader) : Prop :=
  ∀ closers closer c, closer ∈ closers →
    RunsOut 0 (body closers) c fun k => Completable (Derives (.body closer) (n + 1) k) c

section Tags
variable {n : Nat} {body : BodyReader} {opening : Span} {b c : Cursor} {V : Nat → Prop}

/-- A passage is found again when the text goes on, and may be given one level more. -/
theorem regrow {p : Passage} {k : Nat} {d : Cursor} {v : List Char} (hp : p ≠ .contents)
    (h : Derives p n k c d) (hv : Apart v) : Derives p (n + 1) k (c.extend v) (d.extend v) := by
  have hgrown := h.extend hv
  cases p with
  | contents => exact absurd rfl hp
  | tag | body _ | arms _ => exact Derives.succ hgrown

/-- The last thing that is read of a tag is its end. -/
theorem runsOut_end {a : α}
    (h : Completable (fun c d => c.ReadsSymbol .endTag d) c → V 0) :
    RunsOut 0 (do discard (liftM endTag : DraftM Span); return a) c V :=
  RunsOut.discard_lift_bind (lands_endTag c) settles_endTag ((runsOut_symbol c (by decide)).mono h)
    fun _ _ _ => .pure

theorem BodyReader.Viable.bind (hv : body.Viable n) (hb : body.Sound n) {closer : Keyword}
    {f : Body × Closing → DraftM α}
    (hout : ∀ k, Completable (Derives (.body closer) (n + 1) k) c → V k)
    (hf : ∀ x i d, Derives (.body closer) n i c d → RunsOut 0 (f x) d fun k => V (i + k)) :
    RunsOut 0 (body [closer] >>= f) c V := by
  refine ((hv [closer] closer c (by simp)).mono hout).bind (hb [closer] c) fun x i d hx => ?_
  obtain ⟨hmem, hd⟩ := hx
  rw [List.mem_singleton.mp hmem] at hd
  exact hf x i d hd

/-- A head, a body and an end, at the end of a tag. -/
theorem runsOut_head {m : ReadM α} {G : Cursor → Cursor → Prop} {closer : Keyword}
    {f : α → Body × Closing → DraftM β} {T : Nat → Cursor → Cursor → Prop} (hv : body.Viable n)
    (hb : body.Sound n) (hl : Reader.Lands m c fun _ d => G c d) (hs : Settles m)
    (hm : Reader.RunsOut m c (Completable G c))
    (hG : ∀ d v, G c d → Apart v → G (c.extend v) (d.extend v))
    (htag : ∀ v, Apart v → ∀ k d e g, G (c.extend v) d → Derives (.body closer) (n + 1) k d e →
      e.ReadsSymbol .endTag g → T k (b.extend v) g)
    (hf : ∀ a x d V, (Completable (fun c d => c.ReadsSymbol .endTag d) d → V 0) →
      RunsOut 0 (f a x) d V) :
    RunsOut 0 (liftM m >>= fun a => body [closer] >>= f a) c fun k => Completable (T k) b := by
  refine RunsOut.lift_bind hl hs (hm.mono fun h => ?_) fun a d hd =>
    hv.bind hb (fun k h => ?_) fun x i e he => hf a x e _ fun h => ?_
  · refine (h.comp (writable_closed n closer)).imp fun v hv g hg => ?_
    obtain ⟨d, hd, e, he, hg⟩ := hg
    exact htag v hv 0 d e g hd he hg
  · refine (h.comp writable_endTag).imp fun v hv g hg => ?_
    obtain ⟨e, he, hg⟩ := hg
    exact htag v hv k _ e g (hG d v hd hv) he hg
  · exact h.imp fun v hv g hg => htag v hv i _ _ g (hG d v hd hv) (regrow nofun he hv) hg

/-- The last body of a tag behind an `else`. -/
theorem runsOut_alternative {closer : Keyword} {a : Body × Closing → α}
    {T : Nat → Cursor → Cursor → Prop} (hv : body.Viable n) (hb : body.Sound n)
    (htag : ∀ v, Apart v → ∀ k d e g, (c.extend v).ReadsSymbol .endTag d →
      Derives (.body closer) (n + 1) k d e → e.ReadsSymbol .endTag g → T k (b.extend v) g) :
    RunsOut 0 (do
      discard (liftM endTag : DraftM Span)
      let x ← body [closer]
      discard (liftM endTag : DraftM Span)
      return a x) c fun k => Completable (T k) b := by
  rw [discard_bind]
  exact runsOut_head hv hb (lands_endTag c) settles_endTag (runsOut_symbol c (by decide))
    (fun _ _ h hv => h.extend (by decide) hv) htag fun _ _ _ _ h => runsOut_end h

theorem runsOut_callTag (hv : body.Viable n) (hb : body.Sound n) (hw : b.ReadsWord .callWord c) :
    RunsOut 0 (callTag n body opening) c fun k => Completable (Derives .tag (n + 1) k) b :=
  runsOut_head hv hb (lands_callHead c) settles_callHead (runsOut_callHead c)
    (fun _ _ h hv => h.extend hv)
    (fun _ hv _ _ _ _ hd he hg => .callTag (hw.extend hv) hd.succ he hg)
    fun _ _ _ _ h => runsOut_end h

theorem runsOut_filterTag (hv : body.Viable n) (hb : body.Sound n)
    (hw : b.ReadsWord .filterWord c) :
    RunsOut 0 (filterTag n body opening) c fun k => Completable (Derives .tag (n + 1) k) b :=
  runsOut_head hv hb (lands_lastExpression c) settles_lastExpression
    (runsOut_lastExpression c) (fun _ _ h hv => h.extend hv)
    (fun _ hv _ _ _ _ hd he hg => .filterTag (hw.extend hv) hd.succ he hg)
    fun _ _ _ _ h => runsOut_end h

theorem runsOut_macroTag (hv : body.Viable n) (hb : body.Sound n) (hw : b.ReadsWord .macroWord c) :
    RunsOut 0 (macroTag n body opening) c fun k => Completable (Derives .tag (n + 1) k) b :=
  runsOut_head hv hb (lands_macroHead c) settles_macroHead (runsOut_macroHead c)
    (fun _ _ h hv => h.extend hv)
    (fun _ hv _ _ _ _ hd he hg => .macroTag (hw.extend hv) hd.succ he hg)
    fun _ _ d _ h => RunsOut.discard_lift_bind (lands_endTag d) settles_endTag
      ((runsOut_symbol d (by decide)).mono h) fun _ _ _ => .notes (notes_define _)

theorem runsOut_blockTag (hv : body.Viable n) (hb : body.Sound n) (hw : b.ReadsWord .blockWord c) :
    RunsOut 0 (blockTag body opening) c fun k => Completable (Derives .tag (n + 1) k) b := by
  refine RunsOut.lift_bind (lands_blockHead c) settles_blockHead
    ((runsOut_blockHead c).mono fun h => ?_) fun name d hd => hv.bind hb (fun k h => ?_)
    fun x i e he => RunsOut.lift_bind (lands_blockEnd e name.value) (settles_blockEnd _)
    ((runsOut_blockEnd e name.value).mono fun h => ?_)
    fun _ _ _ => RunsOut.notes_bind (notes_define _) fun _ => .pure
  · refine (h.comp (writable_closed n .endBlock)).imp fun v hv g hg => ?_
    obtain ⟨d, ⟨name, hd⟩, e, he, hg⟩ := hg
    exact .blockTag (hw.extend hv) hd he ⟨e, .inl rfl, hg⟩
  · refine (h.comp writable_endTag).imp fun v hv g hg => ?_
    obtain ⟨e, he, hg⟩ := hg
    exact .blockTag (hw.extend hv) (hd.extend hv) he ⟨e, .inl rfl, hg⟩
  · exact h.imp fun v hv g hg =>
      .blockTag (hw.extend hv) (hd.extend hv) (regrow nofun he hv) hg

/-- A loop that has a body can be closed by `endfor`, and one behind its `else` as well. -/
theorem runsOut_forTag (hv : body.Viable n) (hb : body.Sound n) (hw : b.ReadsWord .forWord c) :
    RunsOut 0 (forTag n body opening) c fun k => Completable (Derives .tag (n + 1) k) b := by
  refine RunsOut.lift_bind (lands_loopHead c) settles_loopHead
    ((runsOut_loopHead c).mono fun h => ?_) fun head d hd => ?_
  · refine (h.comp (writable_closed n .endFor)).imp fun v hv g hg => ?_
    obtain ⟨d, hd, e, he, hg⟩ := hg
    exact .forTag (hw.extend hv) hd.succ he hg
  obtain ⟨target, iterable, condition⟩ := head
  refine ((hv [.elseWord, .endFor] .endFor d (by simp)).mono fun k h => ?_).bind
    (hb [.elseWord, .endFor] d) fun x i e hx => ?_
  · refine (h.comp writable_endTag).imp fun v hv g hg => ?_
    obtain ⟨e, he, hg⟩ := hg
    exact .forTag (hw.extend hv) (hd.extend hv).succ he hg
  obtain ⟨main, closing⟩ := x
  obtain ⟨hmem, he⟩ := hx
  dsimp only at hmem he ⊢
  split
  · next hk =>
    rw [hk] at he
    refine runsOut_alternative hv hb fun v hv k f g h hf hg hh => ?_
    exact .forElseTag (hw.extend hv) (hd.extend hv).succ (regrow nofun he hv) hf hg hh
  · next hk =>
    have hend : closing.keyword = .endFor := by
      simp only [List.mem_cons, List.not_mem_nil, or_false] at hmem
      exact hmem.resolve_left hk
    rw [hend] at he
    refine runsOut_end fun h => h.imp fun v hv g hg => ?_
    exact .forTag (hw.extend hv) (hd.extend hv).succ (regrow nofun he hv) hg

theorem runsOut_nextArm (hv : body.Viable n) (hb : body.Sound n) {e : Cursor} {i : Nat}
    (x : List (Arm Statement) × Closing) {j : Nat}
    (h : Derives (.arms x.2.keyword) n (i + j) e c) :
    RunsOut 0 (nextArm n body x) c fun k =>
      Completable (Derives (.arms .endIf) (n + 1) (i + (j + k))) e := by
  obtain ⟨arms, closing⟩ := x
  dsimp only at h
  unfold nextArm
  dsimp only
  split
  · next hk =>
    rw [hk] at h
    have harm {v : List Char} {d f : Cursor} {k : Nat} (hv : Apart v)
        (hd : SpansLast n (c.extend v) d) (hf : Derives (.body .endIf) (n + 1) k d f) :
        Derives (.arms .endIf) (n + 1) (i + (j + k)) (e.extend v) f := by
      have h := Derives.elifArm (regrow nofun h hv) hd.succ hf
      rwa [Nat.add_assoc] at h
    refine RunsOut.lift_bind (lands_lastExpression c) settles_lastExpression
      ((runsOut_lastExpression c).mono fun h => ?_) fun _ d hd => ?_
    · refine (h.comp (writable_body n .endIf)).imp fun v hv f hf => ?_
      obtain ⟨d, hd, hf⟩ := hf
      exact harm hv hd hf
    · refine ((hv armClosers .endIf d (by decide)).mono fun k h => ?_).bind (hb armClosers d)
        fun _ _ _ _ => .pure
      exact h.imp fun v hv f hf => harm hv (hd.extend hv) hf
  · exact .pure

theorem runsOut_arms (hp : body.PieceWise) (hv : body.Viable n) (hb : body.Sound n) {e : Cursor}
    {i : Nat} {x : List (Arm Statement) × Closing} (hx : x.2.keyword ∈ armClosers)
    (h : Derives (.body x.2.keyword) n i e c) :
    RunsOut 0 (loop Draft.size (nextArm n body) x) c fun k =>
      Completable (Derives (.arms .endIf) (n + 1) (i + k)) e :=
  RunsOut.loop (descends_nextArm hp)
    (I := fun y j d => y.2.keyword ∈ armClosers ∧ Derives (.arms y.2.keyword) n (i + j) e d)
    (Q := fun y j d => y.2.keyword ∈ armClosers ∧ y.2.keyword ≠ .elifWord ∧
      Derives (.arms y.2.keyword) n (i + j) e d)
    (fun y _ _ hy => lands_nextArm hb y hy.1 hy.2) (fun y _ _ hy => runsOut_nextArm hv hb y hy.2)
    ⟨hx, .arm h⟩

/-- An `if` can be closed by `endif` behind any of its arms. -/
theorem runsOut_ifTag (hp : body.PieceWise) (hv : body.Viable n) (hb : body.Sound n)
    (hw : b.ReadsWord .ifWord c) :
    RunsOut 0 (ifTag n body opening) c fun k => Completable (Derives .tag (n + 1) k) b := by
  refine RunsOut.lift_bind (lands_lastExpression c) settles_lastExpression
    ((runsOut_lastExpression c).mono fun h => ?_) fun condition e he => ?_
  · refine (h.comp (writable_closed n .endIf)).imp fun v hv g hg => ?_
    obtain ⟨d, hd, e, he, hg⟩ := hg
    exact .ifTag (hw.extend hv) hd.succ (.arm he) hg
  have hif (k : Nat) (h : Completable (Derives (.arms .endIf) (n + 1) k) e) :
      Completable (Derives .tag (n + 1) k) b := by
    refine (h.comp writable_endTag).imp fun v hv g hg => ?_
    obtain ⟨f, hf, hg⟩ := hg
    exact .ifTag (hw.extend hv) (he.extend hv).succ hf hg
  refine ((hv armClosers .endIf e (by decide)).mono fun k h => ?_).bind (hb armClosers e)
    fun x i f hx => ?_
  · exact hif k (h.mono fun _ _ h => .arm h)
  obtain ⟨first, closing⟩ := x
  refine ((runsOut_arms hp hv hb hx.1 hx.2).mono fun k h => hif _ h).bind
    (lands_arms hp hb hx.1 hx.2) fun y j g hy => ?_
  obtain ⟨arms, closing⟩ := y
  obtain ⟨hmem, helif, hg⟩ := hy
  dsimp only at hmem helif hg ⊢
  split
  · next hk =>
    rw [hk] at hg
    refine runsOut_alternative hv hb fun v hv k d f h hd hf hh => ?_
    have htag := Derives.ifElseTag (hw.extend hv) (he.extend hv).succ (regrow nofun hg hv) hd hf hh
    rwa [Nat.add_assoc] at htag
  · next hk =>
    rw [eq_endIf_of_mem hmem helif hk] at hg
    refine runsOut_end fun h => h.imp fun v hv d hd => ?_
    exact .ifTag (hw.extend hv) (he.extend hv).succ (regrow nofun hg hv) hd

/-- A tag that names a parent was noted, so there is room for the parent unless two were noted. -/
theorem runsOut_extendsTag (hw : b.ReadsWord .extendsWord c) :
    RunsOut 1 (extendsTag n) c fun k => Completable (Derives .tag (n + 1) k) b := by
  refine RunsOut.lift_bind (lands_lastExpression c) settles_lastExpression
    ((runsOut_lastExpression c).mono fun h => ?_) fun target d _ => ?_
  · exact h.imp fun v hv e he => .extendsTag (hw.extend hv) he.succ
  intro p s ⟨_, hparents, hlog⟩
  rw [run_bind, run_setParent]
  by_cases hparent : s.parent.isSome
  · rw [if_pos hparent]
    intro hend
    simp [Fault.IsEnd, Cause.reason] at hend
  · rw [if_neg hparent]
    have hone : 1 ≤ s.extensions := Nat.le_trans (Nat.le_add_left 1 p) hlog
    exact hone

theorem runsOut_tag (hp : body.PieceWise) (hv : body.Viable n) (hb : body.Sound n)
    {name : Identifier} (hw : b.Reads (.identifier name.value) c) {j : Nat}
    (hj : name.value = Keyword.extendsWord.spelling → j = 1) :
    RunsOut j (tag n body opening name) c fun k => Completable (Derives .tag (n + 1) k) b := by
  have word {k : Keyword} (hk : Keyword.ofSpelling? name.value = some k) : b.ReadsWord k c := by
    rw [Keyword.ofSpelling?_eq_some_iff.mp hk] at hw
    exact hw
  have pushed {m : DraftM Statement} {V : Nat → Prop}
      (hl : Lands m c fun _ k d => Derives .tag n k b d) (hm : RunsOut 0 m c V) :
      RunsOut j (do push (← m)) c V :=
    (hm.bind hl fun _ _ _ _ => .notes (notes_push _)).later
  unfold tag
  split
  · next hk => exact pushed (lands_ifTag hp hb (word hk)) (runsOut_ifTag hp hv hb (word hk))
  · next hk => exact pushed (lands_forTag hb (word hk)) (runsOut_forTag hv hb (word hk))
  · next hk =>
    refine (RunsOut.lift_bind (lands_setTag c opening) settles_setTag
      ((runsOut_setTag c opening).mono fun h => ?_) fun _ _ _ => .notes (notes_push _)).later
    exact h.imp fun v hv d hd => .setTag ((word hk).extend hv) hd.succ
  · next hk => exact pushed (lands_callTag hb (word hk)) (runsOut_callTag hv hb (word hk))
  · next hk => exact pushed (lands_filterTag hb (word hk)) (runsOut_filterTag hv hb (word hk))
  · next hk => exact pushed (lands_blockTag hb (word hk)) (runsOut_blockTag hv hb (word hk))
  · next hk => exact (runsOut_macroTag hv hb (word hk)).later
  · next hk =>
    rw [hj (Keyword.ofSpelling?_eq_some_iff.mp hk)]
    exact runsOut_extendsTag (word hk)
  · exact RunsOut.throw (by simp [Fault.IsEnd, Cause.reason])

end Tags

/-! ## Bodies -/

section Bodies
variable {n : Nat} {body : BodyReader} {closers : List Keyword} {c : Cursor}

/-- Contents before an opening are found again, and may be given one level more. -/
theorem regrow_contents {i : Nat} {d e : Cursor} {s : Symbol} {v : List Char}
    (hd : Derives .contents n i c d) (hs : s.Opens) (ho : d.behindText.Opens s e) (hv : Apart v) :
    Derives .contents (n + 1) i (c.extend v) (d.behindText.extend v) ∧
      (d.behindText.extend v).Opens s (e.extend v) := by
  obtain ⟨hc, ho⟩ := ((Derives.text hd).extend hv).opens ho hs hv
  exact ⟨hc.succ, ho⟩

/-- Contents go on with a tag that can be completed. -/
theorem completable_tag {i k : Nat} {d e : Cursor} (hd : Derives .contents n i c d)
    (ho : d.behindText.Opens .beginTag e) (h : Completable (Derives .tag (n + 1) k) e) :
    Completable (Derives .contents (n + 1) (i + k)) c := by
  refine h.imp fun v hv f hf => ?_
  obtain ⟨hc, ho⟩ := regrow_contents hd (.inr rfl) ho hv
  exact .tag hc ho hf

/-- A piece that is unfinished, behind the contents before it. -/
theorem runsOut_piece (hp : body.PieceWise) (hv : body.Viable n) (hb : body.Sound n) {i : Nat}
    {d : Cursor} (hd : Derives .contents n i c d) :
    RunsOut 0 (piece n body closers) d fun k =>
      Completable (Derives .contents (n + 1) (i + k)) c := by
  refine RunsOut.opening_bind (fun _ => .pure) fun l s e hl ho => ?_
  dsimp only
  split
  · next hs =>
    rw [hl] at hs
    cases hs
    refine RunsOut.lift_bind (lands_placeable e l.span) settles_placeable
      ((runsOut_placeable e l.span).mono fun h => ?_)
      fun x _ _ => RunsOut.notes_bind (notes_push x) fun _ => .pure
    refine h.imp fun v hv f hf => ?_
    obtain ⟨hc, ho⟩ := regrow_contents hd (.inl rfl) ho hv
    exact .placeable hc ho hf.succ
  · next hs =>
    rw [hl] at hs
    cases hs
    refine RunsOut.lift_bind Reader.Lands.expectName Reader.Settles.expectName
      (Reader.RunsOut.expectName fun hblank => ?_) fun name f hf => RunsOut.note_bind ?_
    · -- Nothing is known of the tag yet, so any tag that needs no body will do.
      exact completable_tag hd ho (writable_tag.completable hblank)
    split
    · exact .pure
    · refine ((runsOut_tag hp hv hb hf fun hname => ?_).mono fun k h =>
        completable_tag hd ho h).bind (lands_tag hp hb hf) fun _ _ _ _ => .pure
      simp [Event.isExtends, hname]
  · refine RunsOut.throw fun hend => ?_
    have hlast := Fault.isEnd_unexpected hend
    rw [hl] at hlast
    cases hlast

/-- Contents that are unfinished can be completed, with one level more. -/
theorem runsOut_content (hp : body.PieceWise) (hv : body.Viable n) (hb : body.Sound n)
    (closers : List Keyword) (c : Cursor) :
    RunsOut 0 (content n body closers) c fun k => Completable (Derives .contents (n + 1) k) c :=
  RunsOut.loop (descends_piece hp closers) (I := fun _ k d => Derives .contents n k c d)
    (Q := Contained n closers c)
    (fun _ _ _ hd => (lands_piece hp hb).mono fun _ _ _ h => h.onPass hd)
    (fun _ _ _ hd => runsOut_piece hp hv hb hd) .nothing

/-- Bodies that are unfinished can be completed at every level. -/
theorem viable_body (n : Nat) : (Draft.body n).Viable n := by
  induction n with
  | zero =>
    exact fun _ _ _ _ => RunsOut.notes_bind notes_position fun _ =>
      RunsOut.throw (by simp [Fault.IsEnd, Cause.reason])
  | succ n ih =>
    intro closers closer c _
    have hp := pieceWise_body n
    refine RunsOut.notes_bind notes_openBody fun _ =>
      ((runsOut_content hp ih (sound_body n) closers c).mono fun k h => ?_).bind
        (lands_content hp (sound_body n) closers c) fun found k d hd => ?_
    · refine (h.comp (writable_closing closer)).mono fun c e h => ?_
      obtain ⟨d, hd, f, ho, hw⟩ := h
      exact .body (.text hd) ho hw
    · cases found with
      | some closing => exact RunsOut.notes_bind (notes_closeBody _) fun _ => .pure
      | none =>
        -- All that is missing is the tag that closes the body.
        obtain ⟨hd, hrest⟩ := hd
        refine RunsOut.notes_bind notes_position fun _ => .throw_of ?_
        exact (hd.completable_body hrest closer).mono fun _ _ h => h.succ

end Bodies

/-- A text that ends too early begins a template, if one level less than there may be is enough for
it and at most one tag names a template to extend. -/
theorem exists_isTemplate_append {levels : Nat} {text : String} {f : Fault} {d : Draft}
    (hlimit : levels + 1 = depthLimit) (hw : StaysWithin levels text)
    (hr : readAll (.ofText text) = .error f d) (hend : f.IsEnd) (hlog : d.extensions ≤ 1) :
    ∃ suffix, IsTemplate (text ++ suffix) := by
  have hread : RunsOut 0 (readWithin levels) (.ofText text) fun k =>
      Completable (Derives .contents depthLimit k) (.ofText text) := by
    have hp := pieceWise_body levels
    rw [readWithin, Functor.discard, ← hlimit]
    exact (runsOut_content hp (viable_body _) (sound_body _) [] _).bind
      (lands_content hp (sound_body _) [] _) fun _ _ _ _ => .pure
  -- The limit is not reached, so one level is left for what has to be written.
  rw [readAll_eq_readWithin, ← hlimit, hw.readWithin_succ] at hr
  obtain ⟨k, hk, suffix, -, hcomplete⟩ :=
    (hread 0).error ⟨⟨rfl, rfl⟩, rfl, Nat.zero_le _⟩ hr hend hlog
  obtain ⟨e, he, hrest⟩ := hcomplete [] .nil
  refine ⟨String.ofList suffix, k, e, ?_, by omega, hrest⟩
  rw [List.append_nil] at he
  simpa only [Cursor.ofText, Cursor.extend, Cursor.before, String.toList_append,
    String.toList_ofList] using he

end Draft

/-- A source that ends too early can be completed, if it never has as many levels open as there may
be and at most one tag in it names a template to extend. -/
theorem exists_compile_append_eq_ok {text : String} {name : Option String} {e : Diagnostic}
    (he : compile text name = .error e) (hreason : e.reason = "unexpected eof")
    (hlevels : Draft.StaysWithin (depthLimit - 1) text)
    (hextends : (Session.start text name).generate.2.draft.extensions ≤ 1) :
    ∃ suffix t, compile (text ++ suffix) name = .ok t := by
  obtain ⟨f, d, hr, rfl⟩ := exists_readAll_eq_error he
  have hlog : d.extensions ≤ 1 := by
    have hp := Session.process_of_error (s := Session.start text name) hr
    rw [Session.generate, hp] at hextends
    exact hextends
  obtain ⟨suffix, ht⟩ := Draft.exists_isTemplate_append rfl hlevels hr hreason hlog
  obtain ⟨t, ht, henclosing⟩ := Draft.readAll_of_isTemplate ht
  exact ⟨suffix, t.template, compile_eq_ok_iff.mpr ⟨t, ht, henclosing, rfl⟩⟩

/-- The source ends behind a comma, in the arguments of a call in the first tag of a loop. -/
theorem exists_compile_append_eq_ok_loop :
    ∃ e, compile "\x7b% extends a %\x7d\x7b% for b in c(d," = .error e ∧
      e.reason = "unexpected eof" ∧
      ∃ suffix t, compile ("\x7b% extends a %\x7d\x7b% for b in c(d," ++ suffix) = .ok t := by
  have hreason : (match compile "\x7b% extends a %\x7d\x7b% for b in c(d," with
      | .ok _ => none
      | .error e => some e.reason) = some "unexpected eof" := by
    decide +kernel
  cases he : compile "\x7b% extends a %\x7d\x7b% for b in c(d," with
  | ok t =>
    rw [he] at hreason
    cases hreason
  | error e =>
    rw [he] at hreason
    have hreason := Option.some.inj hreason
    exact ⟨e, rfl, hreason, exists_compile_append_eq_ok he hreason (by decide +kernel)
      (by decide +kernel)⟩

end TemplateSyntax
