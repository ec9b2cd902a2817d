import TemplateSyntax.Proofs.DraftLanding
import TemplateSyntax.Proofs.Locality
import TemplateSyntax.Proofs.OrderedReading

/-!
# Spans nest and are in order

A statement covers the text from where its tag opens, and a body grows by statements that are read
behind all that it holds. A tag leaves the bodies that are open as it finds them, so the statement
that it makes goes behind those before the tag. Hence all nodes of a template are orderly.
-/
namespace TemplateSyntax

/-- The span covers some text, all of it before the cursor. -/
def Cursor.Follows (c : Cursor) (s : Span) : Prop :=
  s.start.offset < s.stop.offset ∧ s.stop.offset ≤ c.position.offset

/-! ## Parts of tags -/

namespace Reader
open Draft
variable {n : Nat} {c : Cursor} {opening : Span}

theorem row_lastExpression : Lands (lastExpression n) c fun e d => c.Row [.expression e] d :=
  (Expression.row_read n _ c).bind fun _ _ he => (Lands.expectSymbol _).discard.bind fun _ _ hd =>
    Lands.pure (he.skip hd)

/-- Names that were read, and the span from the first of them through the last. -/
def Unpacks (c : Cursor) (names : List Variable × Span) (d : Cursor) : Prop :=
  ∃ first others, names.1 = first :: others ∧ names.2.start = first.span.start ∧
    Node.Row c.position.offset (names.1.map .name) names.2.stop.offset ∧
    names.2.stop.offset ≤ d.position.offset

theorem row_nextName {names : List Variable × Span} {d : Cursor} (h : Unpacks c names d) :
    Lands (nextName names) d (OnPass (Unpacks c) (Unpacks c)) := by
  refine Lands.atSymbol_bind (fun e he => Lands.skip he ?_) fun _ => Lands.pure h
  refine row_variableName.bind fun v f hv => Lands.pure ?_
  obtain ⟨names, span⟩ := names
  obtain ⟨first, others, rfl, hstart, hrow, hle⟩ := h
  obtain ⟨htidy, hfirm, hlo, hhi⟩ := hv
  have hlt : v.span.start.offset < v.span.stop.offset := hfirm.lt (by simp)
  have hbehind : span.stop.offset ≤ v.span.start.offset :=
    Nat.le_trans hle (Nat.le_trans he.offset_le hlo)
  have hfirst : span.start.offset ≤ span.stop.offset := by
    have hspan := hrow.2.1.1
    have hrest := hrow.2.2.2.le
    rw [hstart]
    exact Nat.le_trans hspan hrest
  have hcombine : span.combine v.span = ⟨span.start, v.span.stop⟩ :=
    Span.combine_eq (by omega) (by omega)
  refine ⟨first, others ++ [v], rfl, ?_, ?_, ?_⟩
  · rw [hcombine]
    exact hstart
  · rw [hcombine, List.map_append]
    exact hrow.append (Node.row_name v hbehind hlt (Nat.le_refl _))
  · rw [hcombine]
    exact hhi

theorem row_pattern : Lands pattern c fun p d => c.Row [.pattern p] d := by
  refine row_variableName.bind fun first d hd => ?_
  obtain ⟨htidy, hfirm, hlo, hhi⟩ := hd
  refine Lands.atSymbol_bind (fun _ _ => ?_) fun _ => Lands.pure ?_
  · refine (Lands.loop descends_nextName (I := Unpacks c) (H := Unpacks c)
      (fun _ _ h => row_nextName h) ?_).bind fun names e he => Lands.pure ?_
    · exact ⟨first, [], rfl, rfl, ⟨htidy, hfirm, hlo, Nat.le_refl _⟩, hhi⟩
    · obtain ⟨names, span⟩ := names
      obtain ⟨v, vs, rfl, hstart, hrow, hle⟩ := he
      dsimp only at hstart
      have hspan : (Node.pattern (.unpack (v :: vs) span)).span = ⟨v.span.start, span.stop⟩ := by
        simp [Node.span, Pattern.span, ← hstart]
      exact Node.row_joined rfl hspan hrow hle (by simp) (by simp)
  · exact Cursor.Frames.row (n := .pattern (.single first)) ⟨hlo, hfirm.lt (by simp), hhi⟩ rfl rfl

/-- A node from the opening of its tag to some place behind all of its children. -/
theorem row_opened {x : Node} {stop : Position} {hi : Nat} (ho : c.Follows opening)
    (hspan : x.span = ⟨opening.start, stop⟩)
    (hrow : Node.Row c.position.offset x.children stop.offset) (hhi : stop.offset ≤ hi)
    (hx : ∀ arms span, x ≠ .statement (.cases arms span)) (hb : x.beginsWithChild = false) :
    Node.Row opening.start.offset [x] hi := by
  obtain ⟨hopen, hbefore⟩ := ho
  have hle := hrow.le
  refine Node.row_around ?_ ?_ hx hb ?_ ?_
  · rw [hspan]
    exact hrow.widen (by dsimp only; omega) (Nat.le_refl _)
  · rw [hspan]
    dsimp only
    omega
  · rw [hspan]
  · rwa [hspan]

/-- The same for a tag that is read to its end. -/
theorem row_oneTag {x : Node} {close : Span} {d e : Cursor} (ho : c.Follows opening)
    (hspan : x.span = opening.combine close) (hrow : c.Row x.children d)
    (hclose : d.Frames e close) (hx : ∀ arms span, x ≠ .statement (.cases arms span))
    (hb : x.beginsWithChild = false) :
    Node.Row opening.start.offset [x] e.position.offset := by
  obtain ⟨hlo, hlt, hhi⟩ := hclose
  have hle := hrow.le
  have hbefore := ho.2
  rw [Span.combine_eq (by have := ho.1; omega) (by omega)] at hspan
  exact row_opened ho hspan (hrow.widen (Nat.le_refl _) (by omega)) hhi hx hb

theorem row_placeable (ho : c.Follows opening) : Lands (placeable n opening) c fun s d =>
    Node.Row opening.start.offset [.statement s] d.position.offset := by
  refine (Expression.row_read n _ c).bind fun value d hd => ?_
  have hfilters : Lands (loop Reader.size (nextFilter n) []) d
      fun filters e => d.Row (filters.map .expression) e := by
    refine Lands.loop descends_nextFilter (I := fun filters e => d.Row (filters.map .expression) e)
      (fun filters e he => ?_) (Nat.le_refl _)
    refine Lands.atSymbol_bind (fun f hf => Lands.skip hf ?_) fun _ => Lands.pure he
    refine (Expression.row_readFilter n f).bind fun filter g hg => Lands.pure ?_
    change d.Row ((filters ++ [filter]).map .expression) g
    rw [List.map_append]
    exact (he.skip hf).append hg
  refine hfilters.bind fun filters e he => (frames_expectSymbol .endPut).bind fun close f hf => ?_
  exact Lands.pure (row_oneTag ho rfl (hd.append he) hf (by simp) rfl)

theorem row_setTag (ho : c.Follows opening) : Lands (setTag n opening) c fun s d =>
    Node.Row opening.start.offset [.statement s] d.position.offset := by
  refine row_pattern.bind fun target d hd => (Lands.expectSymbol .assign).discard.bind
    fun _ e he => (Expression.row_read n _ e).bind fun value f hf =>
      (frames_expectSymbol .endTag).bind fun close g hg => ?_
  exact Lands.pure (row_oneTag ho rfl ((hd.skip he).append hf) hg (by simp) rfl)

theorem row_loopHead : Lands (loopHead n) c fun x d =>
    c.Row (.pattern x.1 :: .expression x.2.1 :: x.2.2.toList.map .expression) d := by
  refine row_pattern.bind fun target d hd => (Lands.expectKeyword .inWord).discard.bind
    fun _ e he => (Expression.row_read n _ e).bind fun iterable f hf => ?_
  have hcondition : Lands (loopCondition n) f
      fun condition g => f.Row (condition.toList.map .expression) g := by
    refine Lands.atKeyword_bind (fun g hg => Lands.skip hg ?_) (Lands.pure (Nat.le_refl _))
    exact (Expression.row_read n _ g).bind fun condition h hh => Lands.pure (.of_skip hg hh)
  refine hcondition.bind fun condition g hg => (Lands.expectSymbol _).discard.bind fun _ h hh => ?_
  exact Lands.pure ((((hd.skip he).append hf).append hg).skip hh)

theorem row_callHead : Lands (callHead n) c fun x d =>
    c.Row (.identifier x.1 :: x.2.map .expression) d := by
  refine row_expectName.bind fun name d hd => ?_
  have hargs : Lands (callArguments n) d fun args e => d.Row (args.map .expression) e := by
    refine Lands.atSymbol_bind (fun _ _ => ?_) fun _ => Lands.pure (Nat.le_refl _)
    refine (Expression.row_arguments (fun m _ => Expression.inOrder m) d).bind fun x f hx => ?_
    obtain ⟨e, he, hlo, hlt, hhi⟩ := hx
    exact Lands.pure (he.widen (Nat.le_refl _) (by omega))
  exact hargs.bind fun args e he => (Lands.expectSymbol _).discard.bind fun _ f hf =>
    Lands.pure ((hd.append he).skip hf)

theorem row_blockHead : Lands blockHead c fun name d => c.Row [.identifier name] d :=
  row_expectName.bind fun _ _ hd => (Lands.expectSymbol _).discard.bind fun _ _ he =>
    Lands.pure (hd.skip he)

theorem frames_blockEnd (name : String) : Lands (blockEnd name) c fun close d =>
    c.Frames d close := by
  have hname : Lands (closingName name) c fun _ d => c.position.offset ≤ d.position.offset := by
    refine Lands.peek_bind fun l d hl => ?_
    split
    · split
      · refine (Lands.next_of_reads hl).discard.mono fun _ e he => ?_
        rw [he]
        exact hl.offset_le
      · exact Lands.throw _
    · exact Lands.pure (Nat.le_refl _)
  refine hname.bind fun _ d hd => (frames_expectSymbol _).mono fun close e he => ?_
  exact ⟨Nat.le_trans hd he.1, he.2⟩

theorem row_parameter : Lands (parameter n) c fun p d => c.Row [.parameter p] d := by
  refine row_expectName.bind fun name d hd => Lands.atSymbol_bind (fun e he => ?_) fun _ => ?_
  · refine Lands.skip he ((Expression.row_read n _ e).bind fun fallback f hf => Lands.pure ?_)
    exact Node.row_parameter_fallback ((hd.skip he).append hf)
  · exact Lands.pure (Node.row_parameter hd)

theorem row_macroHead : Lands (macroHead n) c fun x d =>
    c.Row (.identifier x.1 :: x.2.map .parameter) d := by
  refine row_expectName.bind fun name d hd => (Lands.expectSymbol .openParen).discard.bind
    fun _ e he => (row_items consumes_parameter (fun _ => row_parameter) e).bind fun x g hx => ?_
  obtain ⟨f, hf, hlo, hlt, hhi⟩ := hx
  have hrow : e.Row (x.1.map .parameter) g := hf.widen (Nat.le_refl _) (by omega)
  exact (Lands.expectSymbol _).discard.bind fun _ h hh =>
    Lands.pure (((hd.skip he).append hrow).skip hh)

end Reader

/-! ## Drafts -/

/-- A definition as a node. -/
def Node.ofDefinition : Definition → Node
  | .ofMacro m => .ofMacro m
  | .ofBlock b => .ofBlock b

namespace Draft
variable {α β : Type}

/-- The definitions that a draft keeps, and the template that it extends. -/
def definitions (d : Draft) : List Node :=
  d.parent.toList.map .expression ++ d.blocks.entries.map (fun e => .ofBlock e.2) ++
    d.macros.entries.map fun e => .ofMacro e.2

theorem mem_definitions_keep {d : Draft} {x : Definition} {n : Node}
    (h : n ∈ (d.keep x).definitions) : n = .ofDefinition x ∨ n ∈ d.definitions := by
  cases x with
  | ofMacro m =>
    simp only [definitions, keep, List.mem_append, List.mem_map] at h ⊢
    rcases h with h | ⟨e, he, rfl⟩
    · exact .inr (.inl h)
    · rcases Table.mem_bind he with rfl | he
      · exact .inl rfl
      · exact .inr (.inr ⟨e, he, rfl⟩)
  | ofBlock b =>
    simp only [definitions, keep, List.mem_append, List.mem_map] at h ⊢
    rcases h with (h | ⟨e, he, rfl⟩) | h
    · exact .inr (.inl (.inl h))
    · rcases Table.mem_bind he with rfl | he
      · exact .inl rfl
      · exact .inr (.inl (.inr ⟨e, he, rfl⟩))
    · exact .inr (.inr h)

/-- The draft is at the cursor, with the given bodies open, and all definitions are of text before
the cursor. -/
structure Fills (b : Body) (bs : List Body) (c : Cursor) (d : Draft) : Prop where
  place : d.At c
  current : d.current = b
  enclosing : d.enclosing = bs
  definitions : ∀ x ∈ d.definitions, Node.Row 0 [x] c.position.offset

/-- The computation leaves the open bodies as they are and, if it succeeds, comes to a place as
stated. -/
def Orders (m : DraftM α) (c : Cursor) (H : α → Cursor → Prop) : Prop :=
  ∀ b bs, Ensures (Fills b bs c) m (fun a d => ∃ e, d.Fills b bs e ∧ H a e) fun _ _ => True

namespace Orders
variable {m : DraftM α} {f : α → DraftM β} {c : Cursor} {G : α → Cursor → Prop}
  {H : β → Cursor → Prop}

theorem pure {b : β} (h : H b c) : Orders (pure b) c H :=
  fun _ _ => Ensures.pure fun _ hd => ⟨c, hd, h⟩

theorem bind (hm : Orders m c G) (hf : ∀ a d, G a d → Orders (f a) d H) : Orders (m >>= f) c H :=
  fun b bs => (hm b bs).bind fun a d hd => by
    obtain ⟨e, he, ha⟩ := hd
    exact hf a e ha b bs d he

/-- What only takes tokens goes forward, and all else of the draft stays. -/
theorem lift {m : ReadM α} (hm : Reader.Lands m c G) (ht : TokenWise m) (hs : Reader.Settles m) :
    Orders (liftM m : DraftM α) c G := by
  intro b bs d hd
  obtain ⟨hp, hc⟩ := hd.place
  rw [run_lift]
  cases hr : m d.reader with
  | error e r => trivial
  | ok a r =>
    obtain ⟨e, he, ha⟩ := Ensures.ok hm (Or.inl ⟨hp, hc⟩) hr
    have hnone : r.peeked = none := hs _ _ _ hr
    have hreaches : c.Reaches r.cursor := Ensures.ok
      (ht.keeps (Reader.stable_of_reaches (P := c.Reaches) fun _ _ h hc => hc.trans h))
      (hc ▸ .refl c) hr
    rw [he.cursor_eq hnone] at hreaches
    refine ⟨e, ⟨⟨hnone, he.cursor_eq hnone⟩, hd.current, hd.enclosing, fun x hx => ?_⟩, ha⟩
    exact (hd.definitions x hx).widen (Nat.le_refl _) hreaches.offset_le

/-- The last thing that is read of a tag is its end. -/
theorem end_bind {f : DraftM β} (hf : ∀ d, c.position.offset ≤ d.position.offset → Orders f d H) :
    Orders (do Functor.discard (liftM endTag : DraftM Span); f) c H := by
  rw [discard_bind]
  have hend : Reader.Lands endTag c fun _ d => c.position.offset ≤ d.position.offset :=
    (Reader.Lands.expectSymbol _).mono fun _ _ h => Cursor.Reads.offset_le h
  exact (lift hend tokenWise_endTag settles_endTag).bind fun _ d h => hf d h

theorem loop {step : β → DraftM (ForInStep β)} (hs : Descends Draft.size step)
    {I : β → Cursor → Prop} (h : ∀ b d, I b d → Orders (step b) d (OnPass H I)) {b : β}
    (hb : I b c) : Orders (loop Draft.size step b) c H := by
  intro body bs
  have hloop := Ensures.loop hs (I := fun b d => ∃ e, d.Fills body bs e ∧ I b e)
    (Q := fun b d => ∃ e, d.Fills body bs e ∧ H b e) (E := fun _ _ => True) ?_ b
  · exact hloop.before fun d hd => ⟨c, hd, hb⟩
  · rintro b d ⟨e, he, hI⟩
    have hstep := h b e hI body bs d he
    cases hr : step b d with
    | error f t => trivial
    | ok x t =>
      rw [hr] at hstep
      cases x with
      | done b' => exact hstep
      | yield b' => exact hstep

theorem define {x : Definition} (hx : Node.Row 0 [.ofDefinition x] c.position.offset)
    {H : Unit → Cursor → Prop} (h : H () c) : Orders (define x) c H := by
  rintro b bs d ⟨hplace, hcurrent, henclosing, hall⟩
  cases x with
  | ofMacro m =>
    refine ⟨c, ⟨hplace, hcurrent, henclosing, fun n hn => ?_⟩, h⟩
    rcases mem_definitions_keep hn with rfl | hn
    · exact hx
    · exact hall n hn
  | ofBlock b =>
    refine ⟨c, ⟨hplace, hcurrent, henclosing, fun n hn => ?_⟩, h⟩
    rcases mem_definitions_keep hn with rfl | hn
    · exact hx
    · exact hall n hn

end Orders

/-- A body between two cursors, and the tag that closes it, as far as its keyword. -/
structure Enclosed (c : Cursor) (x : Body × Closing) (d : Cursor) : Prop where
  span : x.1.span = ⟨c.position, x.2.opening.start⟩
  declared : x.1.declared = []
  row : Node.Row c.position.offset (x.1.body.map .statement) x.2.opening.start.offset
  opening_lt : x.2.opening.start.offset < x.2.span.stop.offset
  stop_le : x.2.span.stop.offset ≤ d.position.offset

theorem Enclosed.row_scope {c d : Cursor} {x : Body × Closing} (h : Enclosed c x d) :
    Node.Row c.position.offset [.scope x.1] x.2.opening.start.offset :=
  Node.row_scope h.span h.declared h.row

/-- The reader gives bodies from the text that it passes. -/
def BodyReader.Orders (body : BodyReader) : Prop :=
  ∀ closers c, Draft.Orders (body closers) c (Enclosed c)

/-- An arm with a condition. -/
theorem Enclosed.tidy_arm {c d e : Cursor} {condition : Expression} {x : Body × Closing}
    {start : Position} (hc : c.Row [.expression condition] d) (hx : Enclosed d x e)
    (hstart : start.offset ≤ c.position.offset) :
    Node.Tidy (.arm ⟨condition, x.1.body, ⟨start, x.2.span.stop⟩⟩) := by
  refine Node.tidy_of_row ?_ (by simp) (by simp [Node.beginsWithChild])
  exact (Node.Row.append hc hx.row).widen hstart (Nat.le_of_lt hx.opening_lt)

section Tags
variable {n : Nat} {body : BodyReader} {opening : Span} {c : Cursor}

theorem orders_lastExpression :
    Orders (liftM (lastExpression n) : DraftM Expression) c fun e d => c.Row [.expression e] d :=
  Orders.lift Reader.row_lastExpression tokenWise_lastExpression settles_lastExpression

/-- Arms up to a tag that goes on with them or ends them. -/
def Armed (opening : Span) (x : List (Arm Statement) × Closing) (c : Cursor) : Prop :=
  Node.Arms opening.start.offset x.1 x.2.opening.start.offset x.2.span.stop.offset ∧
    x.2.span.stop.offset ≤ c.position.offset

theorem orders_nextArm (hb : body.Orders) {x : List (Arm Statement) × Closing}
    (hx : Armed opening x c) :
    Orders (nextArm n body x) c (OnPass (Armed opening) (Armed opening)) := by
  obtain ⟨arms, closing⟩ := x
  unfold nextArm
  dsimp only
  split
  · refine orders_lastExpression.bind
      fun condition d hd => (hb _ d).bind fun y e hy => Orders.pure ?_
    obtain ⟨harms, hle⟩ := hx
    have hlt := harms.next_lt
    have hd' := hd.le
    have hy' := hy.row.le
    dsimp only at hle hlt
    refine ⟨harms.snoc (hy.tidy_arm hd (by omega)) rfl ?_ hy.opening_lt, hy.stop_le⟩
    dsimp only
    omega
  · exact Orders.pure hx

theorem orders_ifTag (hp : body.PieceWise) (hb : body.Orders) (ho : c.Follows opening) :
    Orders (ifTag n body opening) c fun s d =>
      Node.Row opening.start.offset [.statement s] d.position.offset := by
  refine orders_lastExpression.bind
    fun condition d hd => (hb _ d).bind fun x e hx => ?_
  obtain ⟨first, closing⟩ := x
  obtain ⟨hopen, hbefore⟩ := ho
  have hd' := hd.le
  have hx' := hx.row.le
  have htidy : Node.Tidy (.arm ⟨condition, first.body, ⟨opening.start, closing.span.stop⟩⟩) :=
    hx.tidy_arm hd (by omega)
  have harm : Armed opening
      ([⟨condition, first.body, ⟨opening.start, closing.span.stop⟩⟩], closing) e :=
    ⟨.single htidy (by dsimp only at hx' ⊢; omega) hx.opening_lt, hx.stop_le⟩
  refine (Orders.loop (descends_nextArm hp) (fun _ _ h => orders_nextArm hb h) harm).bind
    fun y f hy => ?_
  obtain ⟨arms, closing⟩ := y
  obtain ⟨harms, hle⟩ := hy
  dsimp only
  split
  · refine Orders.end_bind fun g hg => (hb _ g).bind fun z h hz => ?_
    refine Orders.end_bind fun i hi => Orders.pure ?_
    have hz' := hz.row.le
    have hlt := harms.next_lt
    have hlast := hz.opening_lt
    have hstop := hz.stop_le
    dsimp only at hle hlt
    have helse : Node.Tidy (.arm ⟨.boolean true (.empty closing.opening.start), z.1.body,
        ⟨closing.opening.start, z.2.span.stop⟩⟩) :=
      Node.tidy_elseArm (hz.row.widen (by omega) (by omega))
    have hbetween : closing.span.stop.offset ≤ z.2.opening.start.offset := by omega
    have hall := harms.snoc helse rfl hbetween hlast
    exact (hall.row_cases (s := ⟨opening.start, z.2.span.stop⟩) rfl rfl).widen (Nat.le_refl _)
      (by dsimp only; omega)
  · refine Orders.end_bind fun g hg => Orders.pure ?_
    dsimp only at hle
    exact (harms.row_cases (s := ⟨opening.start, closing.span.stop⟩) rfl rfl).widen (Nat.le_refl _)
      (by dsimp only; omega)

theorem orders_forTag (hb : body.Orders) (ho : c.Follows opening) :
    Orders (forTag n body opening) c fun s d =>
      Node.Row opening.start.offset [.statement s] d.position.offset := by
  refine (Orders.lift Reader.row_loopHead tokenWise_loopHead settles_loopHead).bind
    fun head d hd => (hb _ d).bind fun x e hx => ?_
  obtain ⟨target, iterable, condition⟩ := head
  have hmain := Node.Row.append hd hx.row_scope
  have hlt := hx.opening_lt
  have hle := hx.stop_le
  dsimp only
  split
  · refine Orders.end_bind fun f hf => (hb _ f).bind fun y g hy => ?_
    refine Orders.end_bind fun h hh => Orders.pure ?_
    have hrow := hmain.append (hy.row.widen (by omega) (Nat.le_refl _))
    refine Reader.row_opened ho rfl ?_ (Nat.le_trans hy.stop_le hh) (by simp) rfl
    refine Node.Row.widen ?_ (Nat.le_refl _) (Nat.le_of_lt hy.opening_lt)
    simpa [Node.children] using hrow
  · refine Orders.end_bind fun f hf => Orders.pure ?_
    refine Reader.row_opened ho rfl ?_ (Nat.le_trans hle hf) (by simp) rfl
    refine Node.Row.widen ?_ (Nat.le_refl _) (Nat.le_of_lt hlt)
    simpa [Node.children] using hmain

theorem orders_callTag (hb : body.Orders) (ho : c.Follows opening) :
    Orders (callTag n body opening) c fun s d =>
      Node.Row opening.start.offset [.statement s] d.position.offset := by
  refine (Orders.lift Reader.row_callHead tokenWise_callHead settles_callHead).bind
    fun head d hd => (hb _ d).bind fun x e hx => Orders.end_bind fun f hf => Orders.pure ?_
  exact Reader.row_opened ho rfl
    ((Node.Row.append hd hx.row_scope).widen (Nat.le_refl _) (Nat.le_of_lt hx.opening_lt))
    (Nat.le_trans hx.stop_le hf) (by simp) rfl

theorem orders_filterTag (hb : body.Orders) (ho : c.Follows opening) :
    Orders (filterTag n body opening) c fun s d =>
      Node.Row opening.start.offset [.statement s] d.position.offset := by
  refine orders_lastExpression.bind
    fun filter d hd => (hb _ d).bind fun x e hx => Orders.end_bind fun f hf => Orders.pure ?_
  exact Reader.row_opened ho rfl
    ((Node.Row.append hd hx.row_scope).widen (Nat.le_refl _) (Nat.le_of_lt hx.opening_lt))
    (Nat.le_trans hx.stop_le hf) (by simp) rfl

theorem orders_blockTag (hb : body.Orders) (ho : c.Follows opening) :
    Orders (blockTag body opening) c fun s d =>
      Node.Row opening.start.offset [.statement s] d.position.offset := by
  refine (Orders.lift Reader.row_blockHead tokenWise_blockHead settles_blockHead).bind
    fun name d hd => (hb _ d).bind fun x e hx => ?_
  have hlt := hx.opening_lt
  have hle := hx.stop_le
  refine (Orders.lift (Reader.frames_blockEnd name.value) (tokenWise_blockEnd _)
    (settles_blockEnd _)).bind fun close f hf => ?_
  have hname : c.Row [.identifier name] e := hd.widen (Nat.le_refl _) (by
    have := hx.row.le
    omega)
  have hbody : c.Row [.identifier name, .scope x.1] e :=
    (Node.Row.append hd hx.row_scope).widen (Nat.le_refl _) (by omega)
  have hblock := Reader.row_oneTag (x := .ofBlock ⟨name, x.1, opening.combine close⟩) ho rfl hbody
    hf (by simp) rfl
  refine Orders.bind (α := Unit) (G := fun _ g => g = f)
    (Orders.define (x := .ofBlock ⟨name, x.1, opening.combine close⟩)
      (hblock.widen (Nat.zero_le _) (Nat.le_refl _)) rfl) fun _ g hg => ?_
  subst hg
  exact Orders.pure (Reader.row_oneTag ho rfl hname hf (by simp) rfl)

theorem orders_macroTag (hb : body.Orders) (ho : c.Follows opening) :
    Orders (macroTag n body opening) c fun _ d => c.position.offset ≤ d.position.offset := by
  refine (Orders.lift Reader.row_macroHead tokenWise_macroHead settles_macroHead).bind
    fun head d hd => (hb _ d).bind fun x e hx => Orders.end_bind fun f hf => ?_
  have hrow := (Node.Row.append hd hx.row_scope).widen (Nat.le_refl _) (Nat.le_of_lt hx.opening_lt)
  have hopened := Reader.row_opened (x := .ofMacro ⟨head.1, head.2, x.1,
    ⟨opening.start, x.2.span.stop⟩⟩) ho rfl hrow (Nat.le_trans hx.stop_le hf) (by simp) rfl
  refine Orders.define (x := .ofMacro ⟨head.1, head.2, x.1, ⟨opening.start, x.2.span.stop⟩⟩)
    (hopened.widen (Nat.zero_le _) (Nat.le_refl _)) ?_
  have := hrow.le
  have := hx.stop_le
  omega

theorem orders_extendsTag :
    Orders (extendsTag n) c fun _ d => c.position.offset ≤ d.position.offset := by
  refine orders_lastExpression.bind
    fun target d hd => ?_
  rintro b bs s ⟨hplace, hcurrent, henclosing, hall⟩
  rw [run_bind, run_setParent]
  by_cases hparent : s.parent.isSome
  · rw [if_pos hparent]
    trivial
  · rw [if_neg hparent]
    have hnone : s.parent = none := by simpa using hparent
    refine ⟨d, ⟨hplace, hcurrent, henclosing, fun x hx => ?_⟩, hd.le⟩
    have hx : x = .expression target ∨ x ∈ s.definitions := by
      simpa [definitions, hnone] using hx
    rcases hx with rfl | hx
    · exact hd.widen (Nat.zero_le _) (Nat.le_refl _)
    · exact hall x hx

end Tags

/-! ## Bodies -/

/-- The innermost open body began at a position, and its statements follow each other up to an
offset that is not behind the cursor. -/
structure Grows (p : Position) (bs : List Body) (hi : Nat) (c : Cursor) (d : Draft) : Prop where
  fills : d.Fills d.current bs c
  start : d.current.span.start = p
  declared : d.current.declared = []
  row : Node.Row p.offset (d.current.body.map .statement) hi
  le : hi ≤ c.position.offset

namespace Grows
variable {p : Position} {bs : List Body} {hi : Nat} {c : Cursor} {d : Draft}

theorem widen (h : d.Grows p bs hi c) : d.Grows p bs c.position.offset c :=
  { h with row := h.row.widen (Nat.le_refl _) h.le, le := Nat.le_refl _ }

/-- The body grows on behind whatever left it as it was. -/
theorem of_fills {t : Draft} {e : Cursor} (h : d.Grows p bs hi c) (ht : t.Fills d.current bs e)
    (hle : hi ≤ e.position.offset) : t.Grows p bs hi e where
  fills := { ht with current := rfl }
  start := by
    rw [ht.current]
    exact h.start
  declared := by
    rw [ht.current]
    exact h.declared
  row := by
    rw [ht.current]
    exact h.row
  le := hle

/-- One more statement, behind all others. -/
theorem push {s : Statement} (h : d.Grows p bs hi c)
    (hs : Node.Row hi [.statement s] c.position.offset) :
    Grows p bs c.position.offset c { d with current := d.current.push s } where
  fills := { h.fills with current := rfl }
  start := h.start
  declared := h.declared
  row := by
    change Node.Row _ ((d.current.body ++ [s]).map .statement) _
    rw [List.map_append]
    exact h.row.append hs
  le := Nat.le_refl _

/-- Text that is kept is not empty, and begins behind all that was read. -/
theorem behindText (h : d.Grows p bs c.position.offset c) :
    d.behindText.Grows p bs c.behindText.position.offset c.behindText := by
  obtain ⟨hp, rfl⟩ := h.fills.place
  have hle := d.reader.cursor.reaches_behindText.offset_le
  have hmoved : Grows p bs d.reader.cursor.position.offset d.reader.cursor.behindText
      { d with reader := { d.reader with cursor := d.reader.cursor.behindText } } :=
    { fills := ⟨⟨hp, rfl⟩, rfl, h.fills.enclosing,
        fun x hx => (h.fills.definitions x hx).widen (Nat.le_refl _) hle⟩
      start := h.start
      declared := h.declared
      row := h.row
      le := hle }
  by_cases hrun : textRun d.reader.cursor.rest = []
  · have hempty : (String.ofList (textRun d.reader.cursor.rest)).isEmpty = true := by simp [hrun]
    unfold Draft.behindText
    dsimp only
    rw [hempty, if_pos rfl]
    exact hmoved.widen
  · have hempty : (String.ofList (textRun d.reader.cursor.rest)).isEmpty = false := by
      simpa using hrun
    unfold Draft.behindText
    dsimp only
    rw [hempty, if_neg Bool.false_ne_true]
    have hbytes : String.utf8Len (textRun d.reader.cursor.rest) ≠ 0 := fun h =>
      hrun (String.utf8Len_eq_zero.mp h)
    have hstop : d.reader.cursor.behindText.position.offset =
        d.reader.cursor.position.offset + String.utf8Len (textRun d.reader.cursor.rest) :=
      Position.offset_advanceBy _ _
    refine hmoved.push (Node.row_single (Node.tidy_of_no_children rfl rfl) (Node.firm_of_lt ?_)
      (Nat.le_refl _) (Nat.le_refl _))
    change d.reader.cursor.position.offset < d.reader.cursor.behindText.position.offset
    omega

end Grows

/-- Contents that were read into a body: to the end of the text, or to the tag that closes it. -/
def Filled (p : Position) (bs : List Body) (closers : List Keyword) : Option Closing → Draft → Prop
  | none, d => ∃ c, d.Grows p bs c.position.offset c ∧ c.rest = []
  | some closing, d => closing.keyword ∈ closers ∧
    ∃ c, d.Grows p bs closing.opening.start.offset c ∧
      closing.opening.start.offset < closing.span.stop.offset ∧
      closing.span.stop.offset ≤ c.position.offset

section Bodies
variable {n : Nat} {body : BodyReader} {p : Position} {bs : List Body} {opening : Span}
  {c : Cursor}

/-- A tag adds its statement behind the text before the tag. -/
theorem grows_tag (hp : body.PieceWise) (hb : body.Orders) (name : Identifier)
    (ho : c.Follows opening) :
    Ensures (fun d => d.Grows p bs opening.start.offset c) (tag n body opening name)
      (fun _ d => ∃ e, d.Grows p bs e.position.offset e) fun _ _ => True := by
  -- The innermost body is the same when the statement is complete.
  have hpush {m : DraftM Statement} (hm : Orders m c fun s d =>
      Node.Row opening.start.offset [.statement s] d.position.offset) :
      Ensures (fun d => d.Grows p bs opening.start.offset c) (m >>= push)
        (fun _ d => ∃ e, d.Grows p bs e.position.offset e) fun _ _ => True := by
    intro d hd
    refine Ensures.bind (hm d.current bs) (fun s t ht => ?_) d hd.fills
    obtain ⟨e, he, hs⟩ := ht
    exact ⟨e, (hd.of_fills he hs.le).push hs⟩
  have hkeep {m : DraftM Unit}
      (hm : Orders m c fun _ d => c.position.offset ≤ d.position.offset) :
      Ensures (fun d => d.Grows p bs opening.start.offset c) m
        (fun _ d => ∃ e, d.Grows p bs e.position.offset e) fun _ _ => True := by
    intro d hd
    refine Ensures.after (hm d.current bs) (fun _ t ht => ?_) d hd.fills
    obtain ⟨e, he, hle⟩ := ht
    exact ⟨e, (hd.of_fills he (Nat.le_trans hd.le hle)).widen⟩
  unfold tag
  split
  · exact hpush (orders_ifTag hp hb ho)
  · exact hpush (orders_forTag hb ho)
  · exact hpush (Orders.lift (Reader.row_setTag ho) tokenWise_setTag settles_setTag)
  · exact hpush (orders_callTag hb ho)
  · exact hpush (orders_filterTag hb ho)
  · exact hpush (orders_blockTag hb ho)
  · exact hkeep (orders_macroTag hb ho)
  · exact hkeep orders_extendsTag
  · exact Ensures.throw fun _ _ => trivial

/-- Text is read into the body, and what opens behind it stands there without blanks. -/
theorem grows_opening :
    Ensures (fun d => ∃ c, d.Grows p bs c.position.offset c) Draft.opening
      (fun found d => match found with
        | none => ∃ c, d.Grows p bs c.position.offset c ∧ c.rest = []
        | some l => ∃ c, d.Grows p bs l.span.start.offset c ∧ c.Follows l.span)
      fun _ _ => True := by
  rintro d ⟨c, hd⟩
  have htext := hd.behindText
  obtain ⟨hpeeked, rfl⟩ := hd.fills.place
  rcases opening_of_settled hpeeked with ⟨hend, hrun⟩ | ⟨s, -, hopens, hrun⟩
  · rw [hrun]
    exact ⟨d.reader.cursor.behindText, htext, hend⟩
  · rw [hrun]
    obtain ⟨hskip, s', -, hpiece⟩ := Cursor.nextPiece_of_opensTag true hopens
    have hnext : d.reader.cursor.behindText.next true =
        (.ok ⟨.symbol s', d.reader.cursor.behindText.nextSpan true⟩,
          d.reader.cursor.behindText.behindNext true) := by
      rw [Cursor.next_eq, hpiece]
    obtain ⟨hlo, hlt, hhi⟩ := Cursor.frames_of_next hnext (by simp)
    have hstart : (d.reader.cursor.behindText.nextSpan true).start =
        d.reader.cursor.behindText.position := congrArg Cursor.position hskip
    refine ⟨d.reader.cursor.behindText.behindNext true, ?_, hlt, hhi⟩
    dsimp only
    rw [hstart] at hlt ⊢
    refine htext.of_fills (t := { d.behindText with reader := d.behindText.reader.fetched })
      ⟨⟨hpeeked, rfl⟩, rfl, htext.fills.enclosing, fun x hx => ?_⟩ (by omega)
    exact (htext.fills.definitions x hx).widen (Nat.le_refl _) (by omega)

/-- One piece adds text and a placeable or a tag, or comes to the end of the body. -/
theorem grows_piece (hp : body.PieceWise) (hb : body.Orders) (closers : List Keyword) :
    Ensures (fun d => ∃ c, d.Grows p bs c.position.offset c) (piece n body closers)
      (OnPass (Filled p bs closers) fun _ d => ∃ c, d.Grows p bs c.position.offset c)
      fun _ _ => True := by
  refine grows_opening.bind fun found => ?_
  cases found with
  | none => exact Ensures.pure fun d hd => hd
  | some l =>
    dsimp only
    split
    · rintro d ⟨c, hd, ho⟩
      refine Ensures.bind (Orders.lift (Reader.row_placeable ho) tokenWise_placeable
        settles_placeable d.current bs) (fun s t ht => ?_) d hd.fills
      obtain ⟨e, he, hs⟩ := ht
      exact ⟨e, (hd.of_fills he hs.le).push hs⟩
    · rintro d ⟨c, hd, ho⟩
      refine Ensures.bind (Orders.lift Reader.row_expectName .expectName .expectName d.current bs)
        (fun name t ht => ?_) d hd.fills
      obtain ⟨e, he, hname⟩ := ht
      have hle := hname.le
      have ho' : e.Follows l.span := ⟨ho.1, Nat.le_trans ho.2 hle⟩
      have hnoted : Grows p bs l.span.start.offset e
          { t with log := t.log ++ [.tag name.value name.span] } :=
        hd.of_fills ⟨he.place, he.current, he.enclosing, he.definitions⟩ (by
          have := ho'.1
          have := ho'.2
          omega)
      have hnote : note (.tag name.value name.span) t =
          .ok () { t with log := t.log ++ [.tag name.value name.span] } := rfl
      rw [run_bind_ok hnote]
      cases hk : closers.find? (·.spelling = name.value) with
      | some keyword =>
        obtain ⟨hopen, hbefore⟩ := ho
        have hstart : c.position.offset ≤ name.span.start.offset := hname.2.2.1
        have hlt : name.span.start.offset < name.span.stop.offset := hname.2.1.lt (by simp)
        have hstop : name.span.stop.offset ≤ e.position.offset := hname.2.2.2
        exact ⟨List.mem_of_find?_eq_some hk, e, hnoted, by dsimp only; omega, hstop⟩
      | none =>
        exact (grows_tag hp hb name ho').bind (fun _ => Ensures.pure fun _ hu => hu) _ hnoted
    · exact Ensures.throw fun _ _ => trivial

theorem grows_content (hp : body.PieceWise) (hb : body.Orders) (closers : List Keyword) :
    Ensures (fun d => ∃ c, d.Grows p bs c.position.offset c) (content n body closers)
      (Filled p bs closers) fun _ _ => True :=
  Ensures.loop (descends_piece hp closers)
    (I := fun _ d => ∃ c, d.Grows p bs c.position.offset c)
    (fun _ => grows_piece hp hb closers) none

/-- The readers of bodies give bodies from the text that they pass, at every level. -/
theorem orders_body (n : Nat) : (Draft.body n).Orders := by
  induction n with
  | zero =>
    intro closers c b bs d hd
    trivial
  | succ n ih =>
    intro closers c b bs d hd
    obtain ⟨hpeeked, rfl⟩ := hd.place
    have hopen : openBody d = .ok () { d with
        current := .opened d.reader.cursor.position, enclosing := d.current :: d.enclosing } := rfl
    have hstart : Grows d.reader.cursor.position (b :: bs) d.reader.cursor.position.offset
        d.reader.cursor { d with
          current := .opened d.reader.cursor.position, enclosing := d.current :: d.enclosing } :=
      { fills := ⟨⟨hpeeked, rfl⟩, rfl, by rw [hd.current, hd.enclosing], hd.definitions⟩
        start := rfl
        declared := rfl
        row := Nat.le_refl _
        le := Nat.le_refl _ }
    rw [Draft.body, run_bind_ok hopen]
    refine Ensures.bind (grows_content (pieceWise_body n) ih closers) (fun found t ht => ?_) _
      ⟨_, hstart⟩
    cases found with
    | none => trivial
    | some closing =>
      obtain ⟨-, e, he, hlt, hle⟩ := ht
      have hclose : closeBody closing.opening.start t =
          .ok (t.current.closed closing.opening.start)
            { t with current := b, enclosing := bs } := by
        rw [closeBody, run_modifyGet, he.fills.enclosing]
      change Ends _ _ ((closeBody closing.opening.start >>= fun scope => pure (scope, closing)) t)
      rw [run_bind_ok hclose]
      refine ⟨e, ⟨he.fills.place, rfl, rfl, he.fills.definitions⟩, ?_, he.declared, he.row, hlt,
        hle⟩
      change Span.mk t.current.span.start closing.opening.start = _
      rw [he.start]

end Bodies
end Draft

/-! ## Templates -/

namespace Draft
variable {text : String} {d : Draft}

/-- What is read of a whole text has grown from its beginning to its end. -/
theorem grows_of_readAll (h : readAll (.ofText text) = .ok () d) :
    ∃ c, d.Grows .start [] c.position.offset c ∧ c.rest = [] := by
  have hstart : Grows .start [] 0 (.ofText text) (.ofText text) :=
    { fills := ⟨⟨rfl, rfl⟩, rfl, rfl, by simp [definitions, ofText, Table.empty]⟩
      start := rfl
      declared := rfl
      row := Nat.le_refl _
      le := Nat.le_refl _ }
  have hread : Ensures (fun d => ∃ c, d.Grows .start [] c.position.offset c) readAll
      (fun _ d => ∃ c, d.Grows .start [] c.position.offset c ∧ c.rest = []) fun _ _ => True := by
    refine (grows_content (pieceWise_body _) (orders_body _) []).bind
      fun found => Ensures.pure fun t ht => ?_
    cases found with
    | none => exact ht
    | some closing => exact absurd ht.1 (by simp)
  exact hread.ok ⟨.ofText text, hstart⟩ h

theorem Grows.span_template {p : Position} {bs : List Body} {hi : Nat} {c : Cursor}
    (h : d.Grows p bs hi c) : d.template.span = ⟨p, d.reader.cursor.position⟩ := by
  change Span.mk d.current.span.start d.reader.cursor.position = _
  rw [h.start]

/-- The template of a whole text is tidy. -/
theorem tidy_template (h : readAll (.ofText text) = .ok () d) :
    (Node.template d.template).Tidy := by
  obtain ⟨c, hd, -⟩ := grows_of_readAll h
  obtain ⟨-, rfl⟩ := hd.fills.place
  have hspan := hd.span_template
  refine Node.tidy_template fun x hx => ?_
  rw [hspan]
  rcases List.mem_cons.mp hx with rfl | hx
  · exact Node.row_scope hspan hd.declared hd.row
  · exact hd.fills.definitions x hx

end Draft

/-- The spans of a template nest and are in order. The whole template and its body cover the whole
text. Of all nodes in it, children lie inside their parents and follow each other without overlap,
the arms of a conditional apart, of which neighbours may overlap; what joins two or more nodes
begins where the first of them does; and no node is empty but bodies, the condition of an `else`,
and the template itself if the text is. -/
theorem compile_orderly {text : String} {name : Option String} {t : Template}
    (h : compile text name = .ok t) :
    t.span = ⟨.start, Position.start.advanceBy text.toList⟩ ∧ t.body.span = t.span ∧
      t.span.length = text.utf8ByteSize ∧
      ∀ n, Relation.ReflTransGen Node.HasChild (.template t) n → n.Orderly := by
  obtain ⟨d, hrun, henclosing, rfl⟩ := compile_eq_ok_iff.mp h
  obtain ⟨c, hd, hrest⟩ := Draft.grows_of_readAll hrun
  obtain ⟨-, rfl⟩ := hd.fills.place
  obtain ⟨taken, htaken, hposition⟩ :=
    Ensures.ok (Draft.pieceWise_readAll.reaches (.ofText text)) (.refl _) hrun
  have htext : text.toList = taken := by
    rw [hrest, List.append_nil] at htaken
    exact htaken
  have hwhole : d.template.span = ⟨.start, Position.start.advanceBy text.toList⟩ := by
    rw [hd.span_template, hposition, htext]
    rfl
  refine ⟨hwhole, rfl, ?_, fun n hn => ?_⟩
  · rw [hwhole, Span.length]
    dsimp only
    rw [Position.offset_advanceBy, String.utf8Len_toList]
    simp [Position.start]
  · exact (Draft.tidy_template hrun).orderly_of_within hn

/-- A conditional whose arms overlap, as the first one reaches over the word that begins the
second. -/
theorem compile_orderly_else :
    ∃ t, compile "\x7b% if a %\x7d b \x7b% else %\x7d\x7b\x7b -c(d) \x7d\x7d\x7b% endif %\x7d" =
        .ok t ∧
      t.span.length = 45 ∧
      ∀ n, Relation.ReflTransGen Node.HasChild (.template t) n → n.Orderly := by
  have hok : (compile "\x7b% if a %\x7d b \x7b% else %\x7d\x7b\x7b -c(d) \x7d\x7d\x7b% endif %\x7d"
      ).isOk = true := by decide +kernel
  obtain ⟨t, h⟩ := exists_ok_of_isOk hok
  obtain ⟨-, -, hlength, hall⟩ := compile_orderly h
  exact ⟨t, h, hlength.trans (by decide +kernel), hall⟩

end TemplateSyntax
