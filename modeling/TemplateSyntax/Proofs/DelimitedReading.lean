import TemplateSyntax.Proofs.Delimiters
import TemplateSyntax.Proofs.Locality

/-!
# Readers delimit what they read

A tag is read from the place where it opens to the place behind it, and its body from right behind
the tag to where the next tag opens that closes it. The readers are gone through one by one: each
statement that is made, and each definition that is kept, begins and ends as its kind does.
-/
namespace TemplateSyntax

/-- A tag was read from inside it through its end. -/
def Cursor.EndsTag (c d : Cursor) : Prop := ∃ e, c.Reaches e ∧ e.ReadsSymbol .endTag d

theorem Cursor.EndsTag.of_reaches {c d e : Cursor} (h : c.Reaches d) (hd : d.EndsTag e) :
    c.EndsTag e := by
  obtain ⟨f, hf, he⟩ := hd
  exact ⟨f, h.trans hf, he⟩

theorem Cursor.EndsTag.reaches {c d : Cursor} (h : c.EndsTag d) : c.Reaches d := by
  obtain ⟨e, he, span, hd⟩ := h
  exact he.trans (reaches_of_next hd)

/-! ## Parts of tags -/

namespace Reader
open Draft
variable {α : Type} {n : Nat} {c : Cursor}

/-- What takes tokens comes to a place behind the one where it started. -/
theorem lands_reaches {m : ReadM α} (hm : TokenWise m) : Lands m c fun _ d => c.Reaches d := by
  have hnext : Keeps (fun r : Reader => ∃ d, r.At d ∧ c.Reaches d) next := by
    rintro r ⟨d, hr, hd⟩
    cases hn : next r with
    | ok l t =>
      obtain ⟨hl, ht⟩ := hr.next_eq_ok hn
      exact ⟨t.cursor, .inl ⟨ht, rfl⟩, hd.trans (Cursor.reaches_of_next hl)⟩
    | error f t =>
      obtain ⟨hp, -, rfl⟩ := next_eq_error hn
      rw [← hr.cursor_eq hp] at hd
      exact ⟨r.fetched.cursor, .inl ⟨hp, rfl⟩, hd.trans (r.cursor.reaches_behindNext true)⟩
  have hpeek : Keeps (fun r : Reader => ∃ d, r.At d ∧ c.Reaches d) peek := by
    rintro r ⟨d, hr, hd⟩
    have hkept := hnext r ⟨d, hr, hd⟩
    rw [run_peek]
    cases hn : next r with
    | ok l t => exact ⟨d, .inr ⟨l, rfl, (hr.next_eq_ok hn).1⟩, hd⟩
    | error f t => rwa [hn] at hkept
  exact (hm.keeps ⟨hnext, hpeek⟩).mono (fun r hr => ⟨c, hr, .refl c⟩) (fun _ _ h => h)
    fun _ _ _ => trivial

theorem lands_discard_endTag : Lands (discard endTag) c fun _ d => c.EndsTag d :=
  (Lands.expectSymbol .endTag).discard.mono fun _ _ h => ⟨c, .refl c, h⟩

theorem lands_identifier :
    Lands expectName c fun i d => c.next true = (.ok ⟨.identifier i.value, i.span⟩, d) := by
  refine Lands.lexeme.bind fun l d hl => ?_
  split
  · next name ht => exact Lands.pure (ht ▸ hl)
  · exact Lands.throw _

theorem endsTag_lastExpression : Lands (lastExpression n) c fun _ d => c.EndsTag d :=
  (lands_reaches (Expression.tokenWise_read _ _)).bind fun _ _ hd =>
    lands_discard_endTag.bind fun _ _ he => Lands.pure (.of_reaches hd he)

theorem endsTag_loopHead : Lands (loopHead n) c fun _ d => c.EndsTag d := by
  refine (lands_reaches tokenWise_pattern).bind fun _ d hd =>
    (lands_reaches (TokenWise.expectKeyword _).discard).bind fun _ e he =>
      (lands_reaches (Expression.tokenWise_read _ _)).bind fun _ f hf =>
        (lands_reaches tokenWise_loopCondition).bind fun _ g hg =>
          lands_discard_endTag.bind fun _ h hh => Lands.pure ?_
  exact .of_reaches (((hd.trans he).trans hf).trans hg) hh

theorem endsTag_callHead : Lands (callHead n) c fun _ d => c.EndsTag d :=
  (lands_reaches TokenWise.expectName).bind fun _ _ hd =>
    (lands_reaches tokenWise_callArguments).bind fun _ _ he =>
      lands_discard_endTag.bind fun _ _ hf => Lands.pure (.of_reaches (hd.trans he) hf)

theorem endsTag_blockHead : Lands blockHead c fun _ d => c.EndsTag d :=
  (lands_reaches TokenWise.expectName).bind fun _ _ hd => lands_discard_endTag.bind fun _ _ he =>
    Lands.pure (.of_reaches hd he)

theorem endsTag_macroHead : Lands (macroHead n) c fun _ d => c.EndsTag d := by
  refine (lands_reaches TokenWise.expectName).bind fun _ d hd =>
    (lands_reaches (TokenWise.expectSymbol _).discard).bind fun _ e he =>
      (lands_reaches (TokenWise.items tokenWise_parameter)).bind fun _ f hf =>
        lands_discard_endTag.bind fun _ g hg => Lands.pure ?_
  exact .of_reaches ((hd.trans he).trans hf) hg

/-- A placeable spans from its opening through the braces that close it. -/
theorem lands_placeable_close {opening : Span} : Lands (placeable n opening) c fun s d =>
    ∃ value filters close e, s = .put value filters (opening.combine close) ∧ c.Reaches e ∧
      e.next true = (.ok ⟨.symbol .endPut, close⟩, d) := by
  refine (lands_reaches (Expression.tokenWise_read _ _)).bind fun value d hd =>
    (lands_filters d).bind fun filters e he => (Lands.expectLexeme .endPut).bind
      fun close f hf => Lands.pure ?_
  exact ⟨value, filters, close, e, rfl, hd.trans (Cursor.Skips.of_filters he).reaches, hf⟩

/-- An assignment spans its tag. -/
theorem lands_setTag_close {opening : Span} : Lands (setTag n opening) c fun s d =>
    ∃ target value close e, s = .assign target value (opening.combine close) ∧ c.Reaches e ∧
      e.next true = (.ok ⟨.symbol .endTag, close⟩, d) := by
  refine (lands_reaches tokenWise_pattern).bind fun target d hd =>
    (lands_reaches (TokenWise.expectSymbol .assign).discard).bind fun _ e he =>
      (lands_reaches (Expression.tokenWise_read _ _)).bind fun value f hf =>
        (Lands.expectLexeme .endTag).bind fun close g hg => Lands.pure ?_
  exact ⟨target, value, close, f, rfl, (hd.trans he).trans hf, hg⟩

theorem lands_blockEnd_close (name : String) : Lands (blockEnd name) c fun close d =>
    ∃ e, c.Reaches e ∧ e.next true = (.ok ⟨.symbol .endTag, close⟩, d) :=
  (lands_reaches (tokenWise_closingName name)).bind fun _ d hd =>
    (Lands.expectLexeme .endTag).mono fun _ _ he => ⟨d, hd, he⟩

end Reader

/-! ## Statements -/

namespace Statement
variable {text : String} {ss ts : List Statement} {s : Statement} {lo hi : Nat}

theorem nestedInAll_append (ss ts : List Statement) :
    nestedInAll (ss ++ ts) = nestedInAll ss ++ nestedInAll ts := by
  induction ss with
  | nil => rfl
  | cons s ss ih => simp [nestedInAll, ih]

theorem nestedInArms_append (arms others : List (Arm Statement)) :
    nestedInArms (arms ++ others) = nestedInArms arms ++ nestedInArms others := by
  induction arms with
  | nil => rfl
  | cons a arms ih => simp [nestedInArms, ih]

/-- These statements are delimited, and end no later than the offset. -/
def DelimitedUpTo (text : String) (hi : Nat) (ss : List Statement) : Prop :=
  ∀ s ∈ ss, s.Delimited text ∧ s.span.stop.offset ≤ hi

namespace DelimitedUpTo

theorem nil : DelimitedUpTo text hi [] := by simp [DelimitedUpTo]

theorem widen (h : DelimitedUpTo text lo ss) (hle : lo ≤ hi) : DelimitedUpTo text hi ss :=
  fun s hs => ⟨(h s hs).1, Nat.le_trans (h s hs).2 hle⟩

theorem append (hs : DelimitedUpTo text hi ss) (ht : DelimitedUpTo text hi ts) :
    DelimitedUpTo text hi (ss ++ ts) := fun s h =>
  (List.mem_append.mp h).elim (hs s) (ht s)

theorem cons (hs : s.Delimited text) (hle : s.span.stop.offset ≤ hi)
    (h : DelimitedUpTo text hi ss) : DelimitedUpTo text hi (s :: ss) := fun t ht => by
  rcases List.mem_cons.mp ht with rfl | ht
  · exact ⟨hs, hle⟩
  · exact h t ht

end DelimitedUpTo
end Statement

/-! ## Drafts -/

namespace Draft
variable {text : String} {α β : Type}

/-- A definition and all statements in its body are delimited. -/
def DelimitedDefinition (text : String) : Definition → Prop
  | .ofMacro m => m.Delimited text ∧ ∀ s ∈ Statement.nestedInScope m.body, s.Delimited text
  | .ofBlock b => b.Delimited text ∧ ∀ s ∈ Statement.nestedInScope b.body, s.Delimited text

/-- The draft is at a cursor in the text, with the given bodies open, and all definitions in it are
delimited. -/
structure Upholds (text : String) (b : Body) (bs : List Body) (c : Cursor) (d : Draft) : Prop where
  place : d.At c
  reaches : (Cursor.ofText text).Reaches c
  current : d.current = b
  enclosing : d.enclosing = bs
  macros : ∀ e ∈ d.macros.entries, DelimitedDefinition text (.ofMacro e.2)
  blocks : ∀ e ∈ d.blocks.entries, DelimitedDefinition text (.ofBlock e.2)

/-- The computation leaves the open bodies as they are and, if it succeeds, comes to a place behind
as stated. -/
def Delivers (text : String) (m : DraftM α) (c : Cursor) (H : α → Cursor → Prop) : Prop :=
  ∀ b bs, Ensures (Upholds text b bs c) m
    (fun a d => ∃ e, c.Reaches e ∧ d.Upholds text b bs e ∧ H a e) fun _ _ => True

namespace Delivers
variable {m : DraftM α} {f : α → DraftM β} {c : Cursor} {G : α → Cursor → Prop}
  {H : β → Cursor → Prop}

theorem pure {b : β} (h : H b c) : Delivers text (pure b) c H :=
  fun _ _ => Ensures.pure fun _ hd => ⟨c, .refl c, hd, h⟩

theorem bind (hm : Delivers text m c G)
    (hf : ∀ a d, c.Reaches d → G a d → Delivers text (f a) d H) : Delivers text (m >>= f) c H :=
  fun b bs => (hm b bs).bind fun a => by
    rintro d ⟨e, hreaches, he, ha⟩
    refine (hf a e hreaches ha b bs).after (fun y t ht => ?_) d he
    obtain ⟨g, hg, ht, hy⟩ := ht
    exact ⟨g, hreaches.trans hg, ht, hy⟩

/-- What only takes tokens goes forward, and all else of the draft stays. -/
theorem lift {m : ReadM α} (hm : Reader.Lands m c G) (ht : TokenWise m) (hs : Reader.Settles m) :
    Delivers text (liftM m : DraftM α) c G := by
  intro b bs d hd
  obtain ⟨hp, hc⟩ := hd.place
  rw [run_lift]
  cases hr : m d.reader with
  | error e r => trivial
  | ok a r =>
    obtain ⟨e, he, ha⟩ := Ensures.ok hm (Or.inl ⟨hp, hc⟩) hr
    have hnone : r.peeked = none := hs _ _ _ hr
    obtain ⟨e', he', hreaches⟩ := Ensures.ok (Reader.lands_reaches ht) (Or.inl ⟨hp, hc⟩) hr
    rw [← he'.cursor_eq hnone, he.cursor_eq hnone] at hreaches
    exact ⟨e, hreaches, { hd with
      place := ⟨hnone, he.cursor_eq hnone⟩, reaches := hd.reaches.trans hreaches }, ha⟩

/-- The last thing that is read of a tag is its end. -/
theorem end_bind {f : DraftM β} (hf : ∀ d, c.Reaches d → c.EndsTag d → Delivers text f d H) :
    Delivers text (do Functor.discard (liftM endTag : DraftM Span); f) c H := by
  rw [discard_bind]
  have hend : Reader.Lands endTag c fun _ d => c.EndsTag d :=
    (Reader.Lands.expectSymbol _).mono fun _ _ h => ⟨c, .refl c, h⟩
  exact (lift hend tokenWise_endTag settles_endTag).bind fun _ d hd h => hf d hd h

theorem loop {step : β → DraftM (ForInStep β)} (hs : Descends Draft.size step)
    {I : β → Cursor → Prop} (h : ∀ b d, I b d → Delivers text (step b) d (OnPass H I)) {b : β}
    (hb : I b c) : Delivers text (loop Draft.size step b) c H := by
  intro body bs
  have hloop := Ensures.loop hs
    (I := fun b d => ∃ e, c.Reaches e ∧ d.Upholds text body bs e ∧ I b e)
    (Q := fun b d => ∃ e, c.Reaches e ∧ d.Upholds text body bs e ∧ H b e)
    (E := fun _ _ => True) ?_ b
  · exact hloop.before fun d hd => ⟨c, .refl c, hd, hb⟩
  · rintro b d ⟨e, hce, he, hI⟩
    refine (h b e hI body bs).after (fun x t ht => ?_) d he
    obtain ⟨g, hg, ht, hx⟩ := ht
    cases x with
    | done b' => exact ⟨g, hce.trans hg, ht, hx⟩
    | yield b' => exact ⟨g, hce.trans hg, ht, hx⟩

theorem define {x : Definition} (hx : DelimitedDefinition text x) {H : Unit → Cursor → Prop}
    (h : H () c) : Delivers text (define x) c H := by
  intro b bs d hd
  cases x with
  | ofMacro m =>
    refine ⟨c, .refl c, { hd with macros := fun e he => ?_ }, h⟩
    rcases Table.mem_bind he with rfl | he
    · exact hx
    · exact hd.macros e he
  | ofBlock b' =>
    refine ⟨c, .refl c, { hd with blocks := fun e he => ?_ }, h⟩
    rcases Table.mem_bind he with rfl | he
    · exact hx
    · exact hd.blocks e he

end Delivers

/-! ## Tags -/

/-- A body from the cursor to the tag that closes it, which was read as far as its keyword. -/
structure Confines (text : String) (closers : List Keyword) (c : Cursor) (x : Body × Closing)
    (d : Cursor) : Prop where
  span : x.1.span = ⟨c.position, x.2.opening.start⟩
  statements : Statement.DelimitedUpTo text x.2.opening.start.offset
    (Statement.nestedInAll x.1.body)
  closes : c.Closes x.2 d
  keyword : x.2.keyword ∈ closers

/-- The reader gives bodies that end where one of the keywords closes them. -/
def BodyReader.Delivers (text : String) (body : BodyReader) : Prop :=
  ∀ closers c, Draft.Delivers text (body closers) c (Confines text closers c)

namespace Confines
variable {closers : List Keyword} {c d e : Cursor} {x : Body × Closing}

theorem stop_le (h : Confines text closers c x d) (hd : d.Reaches e) :
    x.2.span.stop.offset ≤ e.position.offset := by
  rw [h.closes.stop_eq]
  exact hd.offset_le

theorem opening_le (h : Confines text closers c x d) (hd : d.Reaches e) :
    x.2.opening.start.offset ≤ e.position.offset :=
  Nat.le_trans h.closes.opening_le hd.offset_le

theorem inScope (h : Confines text closers c x d) :
    Statement.DelimitedUpTo text x.2.opening.start.offset (Statement.nestedInScope x.1) := by
  rw [Statement.nestedInScope_eq]
  exact h.statements

/-- Where a body begins, a tag was read to its end. -/
theorem betweenTags {b : Cursor} (hb : (Cursor.ofText text).Reaches b) (hc : b.EndsTag c)
    (h : Confines text closers c x d) : x.1.BetweenTags text x.2.keyword x.2.span.stop where
  behind := by
    obtain ⟨f, hf, hc⟩ := hc
    rw [h.span]
    exact Cursor.exists_slice_of_endTag (.refl _) (hb.trans hf) hc
  closing := by
    rw [h.span]
    exact h.closes.beginsTag (hb.trans hc.reaches)

/-- What opens with a tag, has a body behind that tag and is closed with the keyword. -/
theorem encloses {b o : Cursor} {opening : Span} {k : Keyword} (h : Confines text closers c x d)
    (hk : x.2.keyword = k) (ho : (Cursor.ofText text).Opened .beginTag opening o)
    (hb : o.Reaches b) (hc : b.EndsTag c) :
    (⟨opening.start, x.2.span.stop⟩ : Span).Encloses text Symbol.beginTag.spelling k.spelling ∧
      x.1.BetweenTags text k x.2.span.stop :=
  hk ▸ ⟨ho.encloses_closing (hb.trans hc.reaches) h.closes, h.betweenTags (ho.reaches.trans hb) hc⟩

end Confines

section Tags
variable {n : Nat} {body : BodyReader} {opening : Span} {o c : Cursor}

theorem delivers_lastExpression :
    Delivers text (liftM (lastExpression n) : DraftM Expression) c fun _ d => c.EndsTag d :=
  Delivers.lift Reader.endsTag_lastExpression tokenWise_lastExpression settles_lastExpression

/-- The arms that were read, of which the last one ends with the keyword of a tag. -/
structure ArmsUpTo (text : String) (start : Position) (arms : List (Arm Statement))
    (closing : Closing) : Prop where
  first : ∃ a as, arms = a :: as ∧ a.span.start = start
  last : ∃ as a, arms = as ++ [a] ∧ a.span.stop = closing.span.stop
  overlap : arms.IsChain (Arm.Overlaps text)
  statements : Statement.DelimitedUpTo text closing.opening.start.offset
    (Statement.nestedInArms arms)

/-- The arm behind a tag that goes on with the arms begins where that tag opens. -/
theorem ArmsUpTo.snoc {start : Position} {arms : List (Arm Statement)} {closing : Closing}
    {closers : List Keyword} {d e : Cursor} {x : Body × Closing}
    (h : ArmsUpTo text start arms closing) (condition : Expression)
    (hk : closing.keyword ∈ [Keyword.elifWord, .elseWord])
    (htag : closing.keyword.BeginsTag text closing.opening.start closing.span.stop)
    (hx : Confines text closers d x e)
    (hle : closing.opening.start.offset ≤ x.2.opening.start.offset) :
    ArmsUpTo text start
      (arms ++ [⟨condition, x.1.body, ⟨closing.opening.start, x.2.span.stop⟩⟩]) x.2 where
  first := by
    obtain ⟨a, as, rfl, hstart⟩ := h.first
    exact ⟨a, _, rfl, hstart⟩
  last := ⟨arms, _, rfl, rfl⟩
  overlap := by
    obtain ⟨as, a, rfl, hstop⟩ := h.last
    refine h.overlap.append (List.isChain_singleton _) fun b hb y hy => ?_
    obtain rfl : a = b := by simpa using hb
    obtain rfl : _ = y := by simpa using hy
    refine ⟨⟨_, hk, hstop ▸ htag⟩, fun s hs => (h.statements s ?_).2⟩
    simp [Statement.nestedInArms_append, Statement.nestedInArms, Statement.nestedInArm_eq, hs]
  statements := by
    rw [Statement.nestedInArms_append]
    refine (h.statements.widen hle).append ?_
    simpa [Statement.nestedInArms, Statement.nestedInArm_eq] using hx.statements

/-- Arms up to a tag that goes on with them or ends them. -/
def ArmsRead (text : String) (start : Position) (o : Cursor)
    (x : List (Arm Statement) × Closing) (c : Cursor) : Prop :=
  ArmsUpTo text start x.1 x.2 ∧ x.2.keyword ∈ armClosers ∧ ∃ a, o.Reaches a ∧ a.Closes x.2 c

theorem delivers_nextArm {start : Position} (ho : (Cursor.ofText text).Reaches o)
    (hb : body.Delivers text) {x : List (Arm Statement) × Closing}
    (hx : ArmsRead text start o x c) :
    Delivers text (nextArm n body x) c (OnPass
      (fun x d => ArmsRead text start o x d ∧ x.2.keyword ≠ .elifWord)
      (ArmsRead text start o)) := by
  obtain ⟨arms, closing⟩ := x
  unfold nextArm
  dsimp only
  split
  · next hword =>
    refine delivers_lastExpression.bind fun condition d hd _ => (hb _ d).bind
      fun y e he hy => Delivers.pure ?_
    obtain ⟨harms, -, a, ha, hcloses⟩ := hx
    have hreaches : o.Reaches d := (ha.trans hcloses.reaches).trans hd
    refine ⟨harms.snoc condition (by simp [hword]) (hcloses.beginsTag (ho.trans ha)) hy ?_,
      hy.keyword, d, hreaches, hy.closes⟩
    exact Nat.le_trans hcloses.opening_le (Nat.le_trans hd.offset_le hy.closes.le_opening)
  · next hword => exact Delivers.pure ⟨hx, hword⟩

/-- The arms of an `if` that is read to its end. -/
theorem ArmsUpTo.cases {arms : List (Arm Statement)} {closing : Closing} {a d e : Cursor}
    (h : ArmsUpTo text opening.start arms closing) (hk : closing.keyword = .endIf)
    (ho : (Cursor.ofText text).Opened .beginTag opening o) (ha : o.Reaches a)
    (hc : a.Closes closing d) (hd : d.Reaches e) :
    Statement.DelimitedUpTo text e.position.offset
      (Statement.nested (.cases arms ⟨opening.start, closing.span.stop⟩)) := by
  have hencloses := hk ▸ ho.encloses_closing ha hc
  have hstop : closing.span.stop.offset ≤ e.position.offset := by
    rw [hc.stop_eq]
    exact hd.offset_le
  refine .cons ⟨hencloses, h.first, h.last, h.overlap⟩ hstop (h.statements.widen ?_)
  exact Nat.le_trans hc.opening_le hd.offset_le

theorem delivers_ifTag (hp : body.PieceWise) (hb : body.Delivers text)
    (ho : (Cursor.ofText text).Opened .beginTag opening o) (hc : o.Reaches c) :
    Delivers text (ifTag n body opening) c
      fun s d => Statement.DelimitedUpTo text d.position.offset s.nested := by
  refine delivers_lastExpression.bind fun condition d hd _ => (hb _ d).bind fun x e he hx => ?_
  obtain ⟨first, closing⟩ := x
  have hfirst : ArmsRead text opening.start o
      ([⟨condition, first.body, ⟨opening.start, closing.span.stop⟩⟩], closing) e := by
    refine ⟨⟨⟨_, [], rfl, rfl⟩, ⟨[], _, rfl, rfl⟩, List.isChain_singleton _, ?_⟩, hx.keyword, d,
      hc.trans hd, hx.closes⟩
    simpa [Statement.nestedInArms, Statement.nestedInArm_eq] using hx.statements
  refine (Delivers.loop (descends_nextArm hp) (fun _ _ h => delivers_nextArm ho.reaches hb h)
    hfirst).bind fun y f hf hy => ?_
  obtain ⟨arms, closing⟩ := y
  obtain ⟨⟨harms, hcloser, a, ha, hcloses⟩, hword⟩ := hy
  dsimp only at hword hcloser ⊢
  split
  · next helse =>
    refine Delivers.end_bind fun g hg _ => (hb _ g).bind fun z h hh hz =>
      Delivers.end_bind fun i hi _ => Delivers.pure ?_
    have hreaches : o.Reaches g := (ha.trans hcloses.reaches).trans hg
    have hall := harms.snoc (.boolean true (.empty closing.opening.start)) (by simp [helse])
      (hcloses.beginsTag (ho.reaches.trans ha)) hz
      (Nat.le_trans hcloses.opening_le (Nat.le_trans hg.offset_le hz.closes.le_opening))
    exact hall.cases (List.mem_singleton.mp hz.keyword) ho hreaches hz.closes hi
  · next helse =>
    refine Delivers.end_bind fun g hg _ => Delivers.pure ?_
    have hend : closing.keyword = .endIf := by simpa [armClosers, hword, helse] using hcloser
    exact harms.cases hend ho ha hcloses hg

theorem delivers_setTag (ho : (Cursor.ofText text).Opened .beginTag opening o) (hc : o.Reaches c) :
    Delivers text (liftM (setTag n opening) : DraftM Statement) c
      fun s d => Statement.DelimitedUpTo text d.position.offset s.nested := by
  refine Delivers.lift (Reader.lands_setTag_close.mono fun s d hs => ?_) tokenWise_setTag
    settles_setTag
  obtain ⟨target, value, close, e, rfl, he, hd⟩ := hs
  obtain ⟨hencloses, hstop⟩ := ho.encloses_close (.inr rfl) (hc.trans he) hd
  exact .cons hencloses (Nat.le_of_eq (congrArg Position.offset hstop)) .nil

theorem delivers_placeable (ho : (Cursor.ofText text).Opened .beginPut opening o)
    (hc : o.Reaches c) : Delivers text (liftM (placeable n opening) : DraftM Statement) c
      fun s d => Statement.DelimitedUpTo text d.position.offset s.nested := by
  refine Delivers.lift (Reader.lands_placeable_close.mono fun s d hs => ?_) tokenWise_placeable
    settles_placeable
  obtain ⟨value, filters, close, e, rfl, he, hd⟩ := hs
  obtain ⟨hencloses, hstop⟩ := ho.encloses_close (.inl rfl) (hc.trans he) hd
  exact .cons hencloses (Nat.le_of_eq (congrArg Position.offset hstop)) .nil

theorem delivers_forTag (hb : body.Delivers text)
    (ho : (Cursor.ofText text).Opened .beginTag opening o) (hc : o.Reaches c) :
    Delivers text (forTag n body opening) c
      fun s d => Statement.DelimitedUpTo text d.position.offset s.nested := by
  refine (Delivers.lift Reader.endsTag_loopHead tokenWise_loopHead settles_loopHead).bind
    fun head d hd htag => (hb _ d).bind fun x e he hx => ?_
  obtain ⟨target, iterable, condition⟩ := head
  dsimp only
  split
  · next helse =>
    refine Delivers.end_bind fun f hf htail => (hb _ f).bind fun y g hg hy =>
      Delivers.end_bind fun h hh _ => Delivers.pure ?_
    have hreaches : o.Reaches e := (hc.trans hd).trans he
    obtain ⟨-, hbody⟩ := hx.encloses helse ho hc htag
    obtain ⟨hencloses, -⟩ := hy.encloses (List.mem_singleton.mp hy.keyword) ho hreaches htail
    have hfirst := hx.inScope.widen (hx.opening_le ((hf.trans hg).trans hh))
    have hsecond := hy.statements.widen (hy.opening_le hh)
    exact .cons ⟨hencloses, _, hbody⟩ (hy.stop_le hh) (hfirst.append hsecond)
  · next helse =>
    refine Delivers.end_bind fun f hf _ => Delivers.pure ?_
    have hword : x.2.keyword = .endFor := by simpa [helse] using hx.keyword
    exact .cons (hx.encloses hword ho hc htag) (hx.stop_le hf)
      ((hx.inScope.widen (hx.opening_le hf)).append .nil)

theorem delivers_callTag (hb : body.Delivers text)
    (ho : (Cursor.ofText text).Opened .beginTag opening o) (hc : o.Reaches c) :
    Delivers text (callTag n body opening) c
      fun s d => Statement.DelimitedUpTo text d.position.offset s.nested := by
  refine (Delivers.lift Reader.endsTag_callHead tokenWise_callHead settles_callHead).bind
    fun head d _ htag => (hb _ d).bind fun x _ _ hx => Delivers.end_bind fun _ hf _ =>
      Delivers.pure ?_
  exact .cons (hx.encloses (List.mem_singleton.mp hx.keyword) ho hc htag) (hx.stop_le hf)
    (hx.inScope.widen (hx.opening_le hf))

theorem delivers_filterTag (hb : body.Delivers text)
    (ho : (Cursor.ofText text).Opened .beginTag opening o) (hc : o.Reaches c) :
    Delivers text (filterTag n body opening) c
      fun s d => Statement.DelimitedUpTo text d.position.offset s.nested := by
  refine delivers_lastExpression.bind fun filter d _ htag => (hb _ d).bind
    fun x _ _ hx => Delivers.end_bind fun _ hf _ => Delivers.pure ?_
  exact .cons (hx.encloses (List.mem_singleton.mp hx.keyword) ho hc htag) (hx.stop_le hf)
    (hx.inScope.widen (hx.opening_le hf))

theorem delivers_blockTag (hb : body.Delivers text)
    (ho : (Cursor.ofText text).Opened .beginTag opening o) (hc : o.Reaches c) :
    Delivers text (blockTag body opening) c
      fun s d => Statement.DelimitedUpTo text d.position.offset s.nested := by
  refine (Delivers.lift Reader.endsTag_blockHead tokenWise_blockHead settles_blockHead).bind
    fun name d hd htag => (hb _ d).bind fun x e he hx => ?_
  refine (Delivers.lift (Reader.lands_blockEnd_close name.value) (tokenWise_blockEnd _)
    (settles_blockEnd _)).bind fun close f hf hclose => ?_
  obtain ⟨g, hg, hnext⟩ := hclose
  have hreaches : o.Reaches e := (hc.trans hd).trans he
  obtain ⟨hencloses, hstop⟩ := ho.encloses_close (.inr rfl) (hreaches.trans hg) hnext
  obtain ⟨-, hbody⟩ := hx.encloses (List.mem_singleton.mp hx.keyword) ho hc htag
  obtain ⟨last, hlast⟩ :=
    Cursor.exists_slice_of_endTag (ho.reaches.trans hreaches) hg ⟨close, hnext⟩
  rw [← hx.closes.stop_eq, ← hstop] at hlast
  have hdefinition : DelimitedDefinition text (.ofBlock ⟨name, x.1, opening.combine close⟩) :=
    ⟨⟨hencloses, _, hbody, last, hlast⟩, fun s hs => (hx.inScope s hs).1⟩
  refine (Delivers.define (H := fun _ h => h = f) hdefinition rfl).bind fun _ h _ hh =>
    Delivers.pure ?_
  rw [hh]
  exact .cons hencloses (Nat.le_of_eq (congrArg Position.offset hstop)) .nil

theorem delivers_macroTag (hb : body.Delivers text)
    (ho : (Cursor.ofText text).Opened .beginTag opening o) (hc : o.Reaches c) :
    Delivers text (macroTag n body opening) c fun _ _ => True := by
  refine (Delivers.lift Reader.endsTag_macroHead tokenWise_macroHead settles_macroHead).bind
    fun head d _ htag => (hb _ d).bind fun x _ _ hx => Delivers.end_bind fun _ _ _ => ?_
  obtain ⟨hencloses, hbody⟩ := hx.encloses (List.mem_singleton.mp hx.keyword) ho hc htag
  have hdefinition : DelimitedDefinition text
      (.ofMacro ⟨head.1, head.2, x.1, ⟨opening.start, x.2.span.stop⟩⟩) :=
    ⟨⟨hencloses, hbody⟩, fun s hs => (hx.inScope s hs).1⟩
  exact Delivers.define hdefinition trivial

theorem delivers_extendsTag : Delivers text (extendsTag n) c fun _ _ => True := by
  refine delivers_lastExpression.bind fun target d _ _ b bs s hs => ?_
  rw [run_bind, run_setParent]
  by_cases hparent : s.parent.isSome
  · rw [if_pos hparent]
    trivial
  · rw [if_neg hparent]
    exact ⟨d, .refl d, { hs with }, trivial⟩

end Tags

/-! ## Bodies -/

/-- The innermost open body began at the first cursor, and its statements are delimited and end no
later than the offset, which is not behind the second cursor. -/
structure Composes (text : String) (a : Cursor) (bs : List Body) (hi : Nat) (c : Cursor)
    (d : Draft) : Prop where
  upholds : d.Upholds text d.current bs c
  reaches : a.Reaches c
  start : d.current.span.start = a.position
  statements : Statement.DelimitedUpTo text hi (Statement.nestedInAll d.current.body)
  le : hi ≤ c.position.offset

namespace Composes
variable {a c e : Cursor} {bs : List Body} {hi : Nat} {d t : Draft}

theorem widen (h : d.Composes text a bs hi c) : d.Composes text a bs c.position.offset c :=
  { h with statements := h.statements.widen h.le, le := Nat.le_refl _ }

/-- The body goes on behind whatever left it as it was. -/
theorem of_upholds (h : d.Composes text a bs hi c) (ht : t.Upholds text d.current bs e)
    (hr : c.Reaches e) : t.Composes text a bs hi e where
  upholds := { ht with current := rfl }
  reaches := h.reaches.trans hr
  start := by
    rw [ht.current]
    exact h.start
  statements := by
    rw [ht.current]
    exact h.statements
  le := Nat.le_trans h.le hr.offset_le

/-- One more statement, and those in its bodies. -/
theorem push {s : Statement} (h : d.Composes text a bs hi c)
    (hs : Statement.DelimitedUpTo text c.position.offset s.nested) :
    Composes text a bs c.position.offset c { d with current := d.current.push s } where
  upholds := { h.upholds with current := rfl }
  reaches := h.reaches
  start := h.start
  statements := by
    change Statement.DelimitedUpTo text _ (Statement.nestedInAll (d.current.body ++ [s]))
    rw [Statement.nestedInAll_append]
    exact (h.statements.widen h.le).append (hs.append .nil)
  le := Nat.le_refl _

/-- Text before the next tag is kept unless there is none. -/
theorem behindText (h : d.Composes text a bs hi c) :
    d.behindText.Composes text a bs c.behindText.position.offset c.behindText := by
  obtain ⟨hp, rfl⟩ := h.upholds.place
  have hreaches := d.reader.cursor.reaches_behindText
  have hmoved := h.of_upholds
    (t := { d with reader := { d.reader with cursor := d.reader.cursor.behindText } })
    { h.upholds with place := ⟨hp, rfl⟩, reaches := h.upholds.reaches.trans hreaches } hreaches
  unfold Draft.behindText
  dsimp only
  by_cases hempty : (String.ofList (textRun d.reader.cursor.rest)).isEmpty = true
  · rw [if_pos hempty]
    exact hmoved.widen
  · rw [if_neg hempty]
    exact hmoved.push (.cons trivial (Nat.le_refl _) .nil)

end Composes

/-- Contents that were read into a body: to the end of the text, or to the tag that closes it. -/
def Composed (text : String) (a : Cursor) (bs : List Body) (closers : List Keyword) :
    Option Closing → Draft → Prop
  | none, d => ∃ c, d.Composes text a bs c.position.offset c
  | some closing, d => closing.keyword ∈ closers ∧ a.Closes closing d.reader.cursor ∧
    d.Composes text a bs closing.opening.start.offset d.reader.cursor

section Bodies
variable {n : Nat} {body : BodyReader} {a o c : Cursor} {bs : List Body} {hi : Nat}
  {opening : Span}

/-- A tag adds a statement behind the text before the tag, or a definition. -/
theorem composes_tag (hp : body.PieceWise) (hb : body.Delivers text) (name : Identifier)
    (ho : (Cursor.ofText text).Opened .beginTag opening o) (hc : o.Reaches c) :
    Ensures (fun d => d.Composes text a bs hi c) (tag n body opening name)
      (fun _ d => ∃ e, d.Composes text a bs e.position.offset e) fun _ _ => True := by
  -- The innermost body is the same when the statement is complete.
  have hpush {m : DraftM Statement} (hm : Delivers text m c fun s d =>
      Statement.DelimitedUpTo text d.position.offset s.nested) :
      Ensures (fun d => d.Composes text a bs hi c) (m >>= push)
        (fun _ d => ∃ e, d.Composes text a bs e.position.offset e) fun _ _ => True := by
    intro d hd
    refine Ensures.bind (hm d.current bs) (fun s t ht => ?_) d hd.upholds
    obtain ⟨e, hr, he, hs⟩ := ht
    exact ⟨e, (hd.of_upholds he hr).push hs⟩
  have hkeep {m : DraftM Unit} (hm : Delivers text m c fun _ _ => True) :
      Ensures (fun d => d.Composes text a bs hi c) m
        (fun _ d => ∃ e, d.Composes text a bs e.position.offset e) fun _ _ => True := by
    intro d hd
    refine Ensures.after (hm d.current bs) (fun _ t ht => ?_) d hd.upholds
    obtain ⟨e, hr, he, -⟩ := ht
    exact ⟨e, (hd.of_upholds he hr).widen⟩
  unfold tag
  split
  · exact hpush (delivers_ifTag hp hb ho hc)
  · exact hpush (delivers_forTag hb ho hc)
  · exact hpush (delivers_setTag ho hc)
  · exact hpush (delivers_callTag hb ho hc)
  · exact hpush (delivers_filterTag hb ho hc)
  · exact hpush (delivers_blockTag hb ho hc)
  · exact hkeep (delivers_macroTag hb ho hc)
  · exact hkeep delivers_extendsTag
  · exact Ensures.throw fun _ _ => trivial

/-- Text is read into the body, and then the symbol that opens what stands behind it. -/
theorem composes_opening :
    Ensures (fun d => ∃ c, d.Composes text a bs c.position.offset c) Draft.opening
      (fun found d => match found with
        | none => ∃ c, d.Composes text a bs c.position.offset c
        | some l => ∃ s o, l.token = .symbol s ∧ a.Opened s l.span o ∧
          d.Composes text a bs l.span.start.offset o)
      fun _ _ => True := by
  rintro d ⟨c, hd⟩
  have htext := hd.behindText
  obtain ⟨hpeeked, rfl⟩ := hd.upholds.place
  rcases opening_cases hpeeked with
    ⟨-, hrun⟩ | ⟨s, l, r, -, ⟨hspelled, span, hnext⟩, hrun, hl, hstart, hr⟩
  · rw [hrun]
    exact ⟨_, htext⟩
  · have hspan : l.span = span := by
      have hnextSpan : span = _ := (Cursor.next_eq_ok hnext).2.1
      rw [hnextSpan]
      rcases opening_of_settled hpeeked with ⟨-, hrun'⟩ | ⟨s', -, -, hrun'⟩
      · rw [hrun] at hrun'
        cases hrun'
      · rw [hrun] at hrun'
        cases hrun'
        rfl
    have hreaches := Cursor.reaches_of_next hnext
    have hopened : a.Opened s l.span r.cursor :=
      ⟨_, htext.reaches, hstart.symm, hspelled, hspan ▸ hnext⟩
    have hread := htext.of_upholds (t := { d.behindText with reader := r }) { htext.upholds with
      place := ⟨hr, rfl⟩, reaches := htext.upholds.reaches.trans hreaches } hreaches
    rw [hrun]
    refine ⟨s, r.cursor, hl, hopened, ?_⟩
    rwa [hstart]

/-- One piece adds text and a placeable or a tag, or comes to the end of the body. -/
theorem composes_piece (hp : body.PieceWise) (hb : body.Delivers text)
    (ha : (Cursor.ofText text).Reaches a) (closers : List Keyword) :
    Ensures (fun d => ∃ c, d.Composes text a bs c.position.offset c) (piece n body closers)
      (OnPass (Composed text a bs closers)
        fun _ d => ∃ c, d.Composes text a bs c.position.offset c) fun _ _ => True := by
  refine composes_opening.bind fun found => ?_
  cases found with
  | none => exact Ensures.pure fun d hd => hd
  | some l =>
    dsimp only
    split
    · next hput =>
      rintro d ⟨s, o, hl, ho, hd⟩
      obtain rfl : s = .beginPut := by simpa [hput] using hl.symm
      refine Ensures.bind (delivers_placeable (ho.of_reaches ha) (.refl o) d.current bs)
        (fun s t ht => ?_) d hd.upholds
      obtain ⟨e, hr, he, hs⟩ := ht
      exact ⟨e, (hd.of_upholds he hr).push hs⟩
    · next htag =>
      rintro d ⟨s, o, hl, ho, hd⟩
      obtain rfl : s = .beginTag := by simpa [htag] using hl.symm
      refine Ensures.bind (Delivers.lift Reader.lands_identifier .expectName .expectName
        d.current bs) (fun name t ht => ?_) d hd.upholds
      obtain ⟨e, hr, he, hname⟩ := ht
      have hnoted : Composes text a bs l.span.start.offset e
          { t with log := t.log ++ [.tag name.value name.span] } :=
        hd.of_upholds { he with } hr
      have hnote : note (.tag name.value name.span) t =
          .ok () { t with log := t.log ++ [.tag name.value name.span] } := rfl
      rw [run_bind_ok hnote]
      cases hk : closers.find? (·.spelling = name.value) with
      | some keyword =>
        have hword : keyword.spelling = name.value := by simpa using List.find?_some hk
        have hcursor : t.reader.cursor = e := he.place.2
        refine ⟨List.mem_of_find?_eq_some hk, ⟨o, ho, ?_⟩, ?_⟩
        · dsimp only
          rw [hword, hcursor]
          exact hname
        · dsimp only
          rw [hcursor]
          exact hnoted
      | none =>
        exact (composes_tag hp hb name (ho.of_reaches ha) hr).bind
          (fun _ => Ensures.pure fun _ hu => hu) _ hnoted
    · exact Ensures.throw fun _ _ => trivial

theorem composes_content (hp : body.PieceWise) (hb : body.Delivers text)
    (ha : (Cursor.ofText text).Reaches a) (closers : List Keyword) :
    Ensures (fun d => ∃ c, d.Composes text a bs c.position.offset c) (content n body closers)
      (Composed text a bs closers) fun _ _ => True :=
  Ensures.loop (descends_piece hp closers)
    (I := fun _ d => ∃ c, d.Composes text a bs c.position.offset c)
    (fun _ => composes_piece hp hb ha closers) none

/-- The readers of bodies give bodies between tags, at every level. -/
theorem delivers_body (n : Nat) : (Draft.body n).Delivers text := by
  induction n with
  | zero =>
    intro closers c b bs d hd
    trivial
  | succ n ih =>
    intro closers c b bs d hd
    obtain ⟨hpeeked, rfl⟩ := hd.place
    have hopen : openBody d = .ok () { d with
        current := .opened d.reader.cursor.position, enclosing := d.current :: d.enclosing } := rfl
    have hstart : Composes text d.reader.cursor (b :: bs) d.reader.cursor.position.offset
        d.reader.cursor { d with
          current := .opened d.reader.cursor.position, enclosing := d.current :: d.enclosing } :=
      { upholds := { hd with
          place := ⟨hpeeked, rfl⟩, current := rfl, enclosing := by rw [hd.current, hd.enclosing] }
        reaches := .refl _
        start := rfl
        statements := .nil
        le := Nat.le_refl _ }
    rw [Draft.body, run_bind_ok hopen]
    refine Ensures.bind (composes_content (pieceWise_body n) ih hd.reaches closers)
      (fun found t ht => ?_) _ ⟨_, hstart⟩
    cases found with
    | none => trivial
    | some closing =>
      obtain ⟨hk, hcloses, ht⟩ := ht
      have hclose : closeBody closing.opening.start t =
          .ok (t.current.closed closing.opening.start)
            { t with current := b, enclosing := bs } := by
        rw [closeBody, run_modifyGet, ht.upholds.enclosing]
      change Ends _ _ ((closeBody closing.opening.start >>= fun scope => pure (scope, closing)) t)
      rw [run_bind_ok hclose]
      refine ⟨t.reader.cursor, ht.reaches,
        { ht.upholds with current := rfl, enclosing := rfl }, ?_, ht.statements, hcloses, hk⟩
      change Span.mk t.current.span.start closing.opening.start = _
      rw [ht.start]

end Bodies

/-- What is read of a whole text is delimited. -/
theorem composes_of_readAll {d : Draft} (h : readAll (.ofText text) = .ok () d) :
    ∃ c, d.Composes text (.ofText text) [] c.position.offset c := by
  have hstart : Composes text (.ofText text) [] 0 (.ofText text) (.ofText text) :=
    { upholds := ⟨⟨rfl, rfl⟩, .refl _, rfl, rfl, by simp [ofText, Table.empty],
        by simp [ofText, Table.empty]⟩
      reaches := .refl _
      start := rfl
      statements := .nil
      le := Nat.zero_le _ }
  have hread : Ensures (fun d => ∃ c, d.Composes text (.ofText text) [] c.position.offset c)
      readAll (fun _ d => ∃ c, d.Composes text (.ofText text) [] c.position.offset c)
      fun _ _ => True := by
    refine (composes_content (pieceWise_body _) (delivers_body _) (.refl _) []).bind
      fun found => Ensures.pure fun t ht => ?_
    cases found with
    | none => exact ht
    | some closing => exact absurd ht.1 (by simp)
  exact hread.ok ⟨.ofText text, hstart⟩ h

end Draft

/-- Every statement of a template begins and ends as its kind does: a placeable and a tag without a
body with the symbols around it, and what has a body with the symbol that opens its first tag and
the keyword that closes it. Bodies lie between the tags around them. The arms of an `if` go from its
start to its end, and where one follows another, the two have just the opening and the keyword of
the tag between them in common. The same goes for the macros and blocks. -/
theorem compile_delimited {text : String} {name : Option String} {t : Template}
    (h : compile text name = .ok t) :
    (∀ s ∈ t.statements, s.Delimited text) ∧ (∀ e ∈ t.macros.entries, e.2.Delimited text) ∧
      ∀ e ∈ t.blocks.entries, e.2.Delimited text := by
  obtain ⟨d, hrun, -, rfl⟩ := compile_eq_ok_iff.mp h
  obtain ⟨c, hd⟩ := Draft.composes_of_readAll hrun
  have hmacros := hd.upholds.macros
  have hblocks := hd.upholds.blocks
  refine ⟨fun s hs => ?_, fun e he => (hmacros e he).1, fun e he => (hblocks e he).1⟩
  simp only [Template.statements, List.mem_append, List.mem_flatMap] at hs
  rcases hs with (hs | ⟨e, he, hs⟩) | ⟨e, he, hs⟩
  · rw [Statement.nestedInScope_eq] at hs
    exact (hd.statements s hs).1
  · exact (hmacros e he).2 s hs
  · exact (hblocks e he).2 s hs

/-- An `if` with two arms, of which the second one holds a placeable, in the body of a macro. -/
theorem compile_delimited_elif :
    let text := "\x7b% macro m() %\x7d\x7b% if a %\x7db" ++
      "\x7b% elif c %\x7d\x7b\x7b d \x7d\x7d\x7b% endif %\x7d\x7b% endmacro %\x7d"
    ∃ t, compile text = .ok t ∧ t.statements.length = 3 ∧ t.macros.entries.length = 1 ∧
      (∀ s ∈ t.statements, s.Delimited text) ∧ (∀ e ∈ t.macros.entries, e.2.Delimited text) ∧
      ∀ e ∈ t.blocks.entries, e.2.Delimited text := by
  intro text
  have hsizes : (compile text).toOption.map
      (fun t => (t.statements.length, t.macros.entries.length)) = some (3, 1) := by
    decide +kernel
  cases h : compile text with
  | error e =>
    rw [h] at hsizes
    cases hsizes
  | ok t =>
    rw [h] at hsizes
    obtain ⟨hstatements, hmacros⟩ := Prod.mk.inj (Option.some.inj hsizes)
    exact ⟨t, rfl, hstatements, hmacros, compile_delimited h⟩

end TemplateSyntax
