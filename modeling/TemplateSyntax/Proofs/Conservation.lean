import TemplateSyntax.Proofs.Marks
import TemplateSyntax.Proofs.OpenBodies
import TemplateSyntax.Proofs.TemplateCompleteness

/-!
# Nothing of a source is lost

The marks in a draft and those still to come from the rest of the source are always the same
together, as every part leaves its mark when it is read, and none leaves two. Bodies move on their
way: from the stack of open bodies into statements, and from there into other bodies or into a
table; no mark is lost as long as no definition takes the place of another.
-/
namespace TemplateSyntax

/-! ## Balance -/

/-- A name that is not bound yet takes no binding away. -/
theorem Table.perm_insert {α : Type} {t : Table α} {name : String} (h : t.find? name = none)
    (value : α) : (t.insert name value).entries.Perm ((name, value) :: t.entries) := by
  have hnew : ∀ e ∈ t.entries, e.1 ≠ name := by simpa [find?] using h
  change (bind name value t.entries).Perm _
  generalize t.entries = es at hnew
  induction es with
  | nil => exact .refl _
  | cons e es ih =>
    obtain ⟨he, hes⟩ := List.forall_mem_cons.mp hnew
    unfold bind
    split
    · exact .refl _
    · rw [if_neg (Ne.symm he)]
      exact ((ih hes).cons e).trans (.swap _ _ _)

namespace Draft
variable {α β : Type} {total : List Mark} {due : Cursor → List Mark}

/-- No token is looked at, and the marks in the draft together with those that are due are all. -/
def Balanced (total : List Mark) (due : Cursor → List Mark) (d : Draft) : Prop :=
  d.reader.peeked = none ∧ ∀ x, d.marks.count x + (due d.reader.cursor).count x = total.count x

/-- The computation keeps the balance. What is due behind it may depend on its value. -/
def Balances (total : List Mark) (due : Cursor → List Mark) (m : DraftM α)
    (due' : α → Cursor → List Mark) : Prop :=
  Ensures (Balanced total due) m (fun a => Balanced total (due' a)) fun _ _ => True

/-- Taking tokens changes what is due, and no mark in the draft. -/
theorem Balanced.lift {due' : α → Cursor → List Mark} {d : Draft} (hd : Balanced total due d)
    {m : ReadM α} {H : α → Cursor → Prop} (hm : Reader.Lands m d.reader.cursor H)
    (hs : Reader.Settles m) (h : ∀ a e, H a e → due' a e = due d.reader.cursor) :
    Ends (fun a => Balanced total (due' a)) (fun _ _ => True) ((liftM m : DraftM α) d) := by
  obtain ⟨hp, hd⟩ := hd
  have hlands := hm d.reader (.inl ⟨hp, rfl⟩)
  rw [run_lift]
  cases hr : m d.reader with
  | error f r => trivial
  | ok a r =>
    rw [hr] at hlands
    obtain ⟨e, hat, he⟩ := hlands
    have hnone := hs _ _ _ hr
    refine ⟨hnone, ?_⟩
    dsimp only
    rw [hat.cursor_eq hnone, h _ _ he]
    exact hd

namespace Balances
variable {due' : α → Cursor → List Mark} {due'' : β → Cursor → List Mark}

theorem pure {a : α} (h : ∀ c, due' a c = due c) :
    Balances total due (pure a : DraftM α) due' := by
  refine Ensures.pure fun d hd => ⟨hd.1, ?_⟩
  rw [h]
  exact hd.2

theorem throw (f : Fault) : Balances total due (throw f : DraftM α) due' :=
  Ensures.throw fun _ _ => trivial

theorem bind {m : DraftM α} {f : α → DraftM β} (hm : Balances total due m due')
    (hf : ∀ a, Balances total (due' a) (f a) due'') : Balances total due (m >>= f) due'' :=
  Ensures.bind hm hf

theorem discard {due' : Cursor → List Mark} {m : DraftM α}
    (hm : Balances total due m fun _ => due') :
    Balances total due (discard m : DraftM PUnit) fun _ => due' :=
  hm.bind fun _ => pure fun _ => rfl

theorem congr {due₁ : Cursor → List Mark} {m : DraftM α} (hm : Balances total due m due')
    (h : ∀ c, due₁ c = due c) : Balances total due₁ m due' := by
  rwa [show due₁ = due from funext h]

theorem lift {m : ReadM α} {H : Cursor → α → Cursor → Prop} (hm : ∀ c, Reader.Lands m c (H c))
    (hs : Reader.Settles m) (h : ∀ c a d, H c a d → due' a d = due c) :
    Balances total due (liftM m : DraftM α) due' :=
  fun _ hd => hd.lift (hm _) hs (h _)

/-- The rest of a tag is read. -/
theorem head {m : ReadM α} (hm : ∀ c, Reader.Lands m c fun _ d => c.skipThrough .endTag = d)
    (hs : Reader.Settles m) (kept : List Mark) :
    Balances total (fun c => kept ++ c.marksBehindTag) (liftM m : DraftM α)
      fun _ c => kept ++ c.marks :=
  lift hm hs fun _ _ _ h => by rw [Cursor.marksBehindTag, h]

end Balances

/-- A change to a draft that touches neither its reader nor its marks. -/
theorem balances_modifyGet {g : Draft → α × Draft}
    (h : ∀ d, (g d).2.reader = d.reader ∧ (g d).2.marks = d.marks) :
    Balances total due (modifyGet g : DraftM α) fun _ => due := by
  intro d hd
  obtain ⟨hreader, hmarks⟩ := h d
  rw [run_modifyGet]
  change Balanced total due (g d).2
  rwa [Balanced, hreader, hmarks]

theorem balances_note (e : Event) : Balances total due (note e) fun _ => due :=
  balances_modifyGet fun _ => ⟨rfl, rfl⟩

theorem balances_setParent (target : Expression) :
    Balances total due (setParent target) fun _ => due := by
  refine balances_modifyGet fun d => ?_
  split <;> exact ⟨rfl, rfl⟩

variable {kept : List Mark}

/-- A statement that is pushed has its marks in the draft from then on. -/
theorem balances_push (s : Statement) :
    Balances total (fun c => kept ++ marksIn [s] ++ c.marks) (push s) fun _ c =>
      kept ++ c.marks := by
  rintro d ⟨hp, hd⟩
  refine ⟨hp, fun x => ?_⟩
  have hx := hd x
  simp only [marks, Scope.push, marksIn_append, List.count_append] at hx ⊢
  omega

/-- A definition whose name is held already has left its mark in the draft before. -/
theorem mem_marks_of_holds {x : Definition} {d : Draft} (h : d.holds x = true) :
    .defined (x.kind, x.name) ∈ d.marks := by
  cases x with
  | ofMacro m =>
    obtain ⟨e, he, hname⟩ : ∃ e ∈ d.macros.entries, e.1 = m.name.value := by
      simpa [holds, Table.find?] using h
    simp only [marks, List.mem_append, marksOfMacros, List.mem_flatMap]
    exact .inl (.inr ⟨e, he, by simp [Definition.kind, Definition.name, hname]⟩)
  | ofBlock b =>
    obtain ⟨e, he, hname⟩ : ∃ e ∈ d.blocks.entries, e.1 = b.name.value := by
      simpa [holds, Table.find?] using h
    simp only [marks, List.mem_append, marksOfBlocks, List.mem_flatMap]
    exact .inr ⟨e, he, by simp [Definition.kind, Definition.name, hname]⟩

/-- Otherwise its marks come to those of the draft. -/
theorem count_marks_keep {x : Definition} {d : Draft} (h : d.holds x = false) (y : Mark) :
    (d.keep x).marks.count y =
      d.marks.count y + [Mark.defined (x.kind, x.name)].count y +
        (marksIn x.body.body).count y := by
  cases x with
  | ofMacro m =>
    have hnew : d.macros.find? m.name.value = none := by simpa [holds] using h
    have hperm := ((Table.perm_insert hnew m).flatMap_right
      fun e => Mark.defined (.macroWord, e.1) :: marksIn e.2.body.body).count_eq y
    simp only [List.flatMap_cons, List.count_append, List.count_cons] at hperm
    simp only [marks, keep, marksOfMacros, List.count_append, List.count_cons, List.count_nil,
      Definition.kind, Definition.name, Definition.body, hperm]
    omega
  | ofBlock b =>
    have hnew : d.blocks.find? b.name.value = none := by simpa [holds] using h
    have hperm := ((Table.perm_insert hnew b).flatMap_right
      fun e => Mark.defined (.blockWord, e.1) :: marksIn e.2.body.body).count_eq y
    simp only [List.flatMap_cons, List.count_append, List.count_cons] at hperm
    simp only [marks, keep, marksOfBlocks, List.count_append, List.count_cons, List.count_nil,
      Definition.kind, Definition.name, Definition.body, hperm]
    omega

/-- If no mark of a definition is there twice, a definition takes no other one's place, and its
marks are in the draft from then on. -/
theorem balances_define (hn : ∀ what, total.count (.defined what) ≤ 1) (x : Definition) :
    Balances total
      (fun c => kept ++ [.defined (x.kind, x.name)] ++ marksIn x.body.body ++ c.marks)
      (define x) fun _ c => kept ++ c.marks := by
  rintro d ⟨hp, hd⟩
  have hfresh : d.holds x = false := by
    by_contra hheld
    have hpos := List.count_pos_iff.mpr (mem_marks_of_holds (by simpa using hheld))
    have htotal := hd (.defined (x.kind, x.name))
    have hle := hn (x.kind, x.name)
    simp only [List.count_append, List.count_singleton_self] at htotal
    omega
  obtain ⟨e, hrun, hreader, hmarks⟩ : ∃ e, define x d = .ok () e ∧ e.reader = d.reader ∧
      e.marks = (d.keep x).marks := by
    cases x <;> exact ⟨_, rfl, rfl, rfl⟩
  rw [hrun]
  refine ⟨hreader ▸ hp, fun y => ?_⟩
  have hy := hd y
  rw [hmarks, hreader, count_marks_keep hfresh y]
  simp only [List.count_append] at hy ⊢
  omega

/-- Text that is read has its mark in the draft from then on. -/
theorem count_marks_behindText (d : Draft) (y : Mark) :
    d.behindText.marks.count y =
      d.marks.count y + (d.reader.cursor.textPart.mark?.toList).count y := by
  unfold behindText Cursor.textPart Part.mark?
  dsimp only
  split
  · simp [marks]
  · simp only [marks, Scope.push, marksIn_append, marksIn_text, List.count_append,
      Option.toList_some]
    omega

/-- What is due when a tag is open: the mark of what it defines, and all marks behind it. -/
def dueInTag (kept : List Mark) (what : Option (Keyword × String)) (c : Cursor) : List Mark :=
  kept ++ what.toList.map .defined ++ c.marksBehindTag

/-- Text is read up to the end, or up to what opens behind it. -/
theorem balances_opening : Ensures (Balanced total fun c => kept ++ c.marks) Draft.opening
    (fun found d => match found with
      | none => Balanced total (fun _ => kept) d
      | some l => l.token = .symbol .beginPut ∧
          l.span.start.offset ≤ d.reader.cursor.position.offset ∧
          Balanced total (fun c => kept ++ [.put l.span.start] ++ (c.skipThrough .endPut).marks) d ∨
        l.token = .symbol .beginTag ∧ Balanced total (fun c => dueInTag kept c.defined? c) d)
    fun _ _ => True := by
  rintro d ⟨hp, hd⟩
  have htotal (y : Mark) : d.behindText.marks.count y + kept.count y +
      d.reader.cursor.marks.count y =
        total.count y + (d.reader.cursor.textPart.mark?.toList).count y := by
    have hy : d.marks.count y + (kept ++ d.reader.cursor.marks).count y = total.count y := hd y
    rw [List.count_append] at hy
    rw [count_marks_behindText]
    omega
  rcases opening_cases hp with ⟨hend, hr⟩ | ⟨s, l, r, hs, ho, hr, hl, hstart, hp'⟩
  · rw [hr]
    refine ⟨hp, fun y => ?_⟩
    have hy := htotal y
    rw [Cursor.marks_of_end hend] at hy
    dsimp only
    omega
  · rw [hr]
    rcases hs with rfl | rfl
    · refine .inl ⟨hl, ?_, hp', fun y => ?_⟩
      · obtain ⟨span, hnext⟩ := ho.2
        rw [hstart]
        exact (Cursor.reaches_of_next hnext).offset_le
      · have hy := htotal y
        rw [Cursor.marks_of_opens_put ho] at hy
        change d.behindText.marks.count y +
          (kept ++ [Mark.put l.span.start] ++ (r.cursor.skipThrough .endPut).marks).count y = _
        simp only [List.count_append, hstart] at hy ⊢
        omega
    · refine .inr ⟨hl, hp', fun y => ?_⟩
      have hy := htotal y
      rw [Cursor.marks_of_opens_tag ho] at hy
      change d.behindText.marks.count y +
        (dueInTag kept r.cursor.defined? r.cursor).count y = _
      simp only [dueInTag, List.count_append] at hy ⊢
      omega

/-! ## Tags and bodies -/

section Tags
variable {n : Nat} {body : BodyReader} {opening : Span}

/-- A reader of bodies takes the marks of a body out of the draft and into the body. -/
def BodyReader.Balances (total : List Mark) (body : BodyReader) : Prop :=
  ∀ kept closers, (∀ w ∈ closers, w ∉ tagWords) →
    Draft.Balances total (fun c => kept ++ c.marks) (body closers)
      fun x c => kept ++ marksIn x.1.body ++ c.marksBehindTag

theorem balances_endTag (kept : List Mark) :
    Balances total (fun c => kept ++ c.marksBehindTag)
      (discard (liftM endTag : DraftM Span) : DraftM PUnit) fun _ c => kept ++ c.marks :=
  (Balances.head (fun c => (Reader.lands_endTag c).mono fun _ _ h =>
    Cursor.skipThrough_of_readsSymbol h) settles_endTag kept).discard

theorem balances_lastExpression (kept : List Mark) :
    Balances total (fun c => kept ++ c.marksBehindTag)
      (liftM (lastExpression n) : DraftM Expression) fun _ c => kept ++ c.marks :=
  .head (fun c => (Reader.lands_lastExpression c).mono fun _ _ h => h.skipThrough_eq)
    settles_lastExpression kept

theorem balances_nextArm (hb : body.Balances total) (x : List (Arm Statement) × Closing) :
    Balances total (fun c => kept ++ marksInArms x.1 ++ c.marksBehindTag) (nextArm n body x)
      fun r c => kept ++ marksInArms r.value.1 ++ c.marksBehindTag := by
  obtain ⟨arms, closing⟩ := x
  unfold nextArm
  dsimp only
  split
  · refine (balances_lastExpression _).bind fun condition => ?_
    refine (hb _ _ (by decide)).bind fun (scope, next) => .pure fun c => ?_
    simp [marksInArms]
  · exact .pure fun _ => rfl

theorem balances_ifTag (hp : body.PieceWise) (hb : body.Balances total) :
    Balances total (fun c => kept ++ c.marksBehindTag) (ifTag n body opening) fun s c =>
      kept ++ marksIn [s] ++ c.marks := by
  refine (balances_lastExpression _).bind fun condition => ?_
  refine (hb _ _ (by decide)).bind fun (first, closing) => ?_
  have hloop (x : List (Arm Statement) × Closing) :
      Balances total (fun c => kept ++ marksInArms x.1 ++ c.marksBehindTag)
        (TemplateSyntax.loop Draft.size (nextArm n body) x)
        fun x c => kept ++ marksInArms x.1 ++ c.marksBehindTag := by
    refine Ensures.loop (descends_nextArm hp)
      (I := fun x => Balanced total fun c => kept ++ marksInArms x.1 ++ c.marksBehindTag)
      (fun x => (balances_nextArm hb x).after fun r d hd => ?_) x
    cases r <;> exact hd
  refine ((hloop _).congr fun c => ?_).bind fun (arms, closing) => ?_
  · simp [marksInArms]
  · dsimp only
    split
    · refine (balances_endTag _).bind fun _ => (hb _ _ (by decide)).bind fun (scope, last) => ?_
      exact (balances_endTag _).bind fun _ => .pure fun c => by simp [marksInArms]
    · exact (balances_endTag _).bind fun _ => .pure fun c => by simp

theorem balances_forTag (hb : body.Balances total) :
    Balances total (fun c => kept ++ c.marksBehindTag) (forTag n body opening) fun s c =>
      kept ++ marksIn [s] ++ c.marks := by
  refine Balances.bind (.head (fun c => (Reader.lands_loopHead c).mono fun _ _ h =>
    h.skipThrough_eq) settles_loopHead _) fun (target, iterable, condition) => ?_
  refine (hb _ _ (by decide)).bind fun (main, closing) => ?_
  dsimp only
  split
  · refine (balances_endTag _).bind fun _ => (hb _ _ (by decide)).bind fun (alternative, last) => ?_
    exact (balances_endTag _).bind fun _ => .pure fun c => by simp
  · exact (balances_endTag _).bind fun _ => .pure fun c => by simp

theorem balances_setTag : Balances total (fun c => kept ++ c.marksBehindTag)
    (liftM (setTag n opening) : DraftM Statement) fun s c => kept ++ marksIn [s] ++ c.marks := by
  refine .lift Reader.lands_setTag_marks settles_setTag fun c s d hd => ?_
  rw [hd.2, List.append_nil, Cursor.marksBehindTag, hd.1]

theorem balances_callTag (hb : body.Balances total) :
    Balances total (fun c => kept ++ c.marksBehindTag) (callTag n body opening) fun s c =>
      kept ++ marksIn [s] ++ c.marks := by
  refine Balances.bind (.head (fun c => (Reader.lands_callHead c).mono fun _ _ h =>
    h.skipThrough_eq) settles_callHead _) fun (name, args) => ?_
  refine (hb _ _ (by decide)).bind fun (scope, closing) => (balances_endTag _).bind fun _ => ?_
  exact .pure fun c => by simp

theorem balances_filterTag (hb : body.Balances total) :
    Balances total (fun c => kept ++ c.marksBehindTag) (filterTag n body opening) fun s c =>
      kept ++ marksIn [s] ++ c.marks := by
  refine (balances_lastExpression _).bind fun filter => ?_
  refine (hb _ _ (by decide)).bind fun (scope, closing) => (balances_endTag _).bind fun _ => ?_
  exact .pure fun c => by simp

theorem balances_blockTag (hn : ∀ what, total.count (.defined what) ≤ 1)
    (hb : body.Balances total) : Balances total
      (fun c => dueInTag kept (c.definedBy? Keyword.blockWord.spelling) c) (blockTag body opening)
      fun s c => kept ++ marksIn [s] ++ c.marks := by
  have hhead : Balances total
      (fun c => dueInTag kept (c.definedBy? Keyword.blockWord.spelling) c)
      (liftM blockHead : DraftM Identifier)
      fun name c => kept ++ [.defined (.blockWord, name.value)] ++ c.marks := by
    refine .lift (fun c => Reader.lands_blockHead c) settles_blockHead fun c name d hd => ?_
    obtain ⟨e, he, -⟩ := id hd
    rw [dueInTag, Cursor.definedBy?_of_reads he _ (.inr rfl), Cursor.marksBehindTag,
      hd.skipThrough_eq]
    rfl
  refine hhead.bind fun name => (hb _ _ (by decide)).bind fun (scope, _) => ?_
  refine Balances.bind (.head (fun c => (Reader.lands_blockEnd c _).mono fun _ _ h =>
    h.skipThrough_eq) (settles_blockEnd _) _) fun close => ?_
  refine (balances_define hn (.ofBlock ⟨name, scope, opening.combine close⟩)).bind fun _ => ?_
  exact .pure fun c => by simp

theorem balances_macroTag (hn : ∀ what, total.count (.defined what) ≤ 1)
    (hb : body.Balances total) : Balances total
      (fun c => dueInTag kept (c.definedBy? Keyword.macroWord.spelling) c) (macroTag n body opening)
      fun _ c => kept ++ c.marks := by
  have hhead : Balances total
      (fun c => dueInTag kept (c.definedBy? Keyword.macroWord.spelling) c)
      (liftM (macroHead n) : DraftM (Identifier × List Parameter))
      fun x c => kept ++ [.defined (.macroWord, x.1.value)] ++ c.marks := by
    refine .lift Reader.lands_macroHead_name settles_macroHead fun c x d hd => ?_
    obtain ⟨hskip, e, he⟩ := hd
    rw [dueInTag, Cursor.definedBy?_of_reads he _ (.inl rfl), Cursor.marksBehindTag, hskip]
    rfl
  refine hhead.bind fun (name, parameters) => (hb _ _ (by decide)).bind fun (scope, closing) => ?_
  refine (balances_endTag _).bind fun _ => ?_
  exact balances_define hn
    (.ofMacro ⟨name, parameters, scope, ⟨opening.start, closing.span.stop⟩⟩)

theorem balances_extendsTag : Balances total (fun c => kept ++ c.marksBehindTag) (extendsTag n)
    fun _ c => kept ++ c.marks := by
  refine (balances_lastExpression _).bind fun target => ?_
  refine (balances_setParent target).bind fun isFirst => ?_
  split
  · exact .pure fun _ => rfl
  · exact .throw _

/-- A tag leaves the marks of all its texts, placeables and definitions in the draft. -/
theorem balances_tag (hn : ∀ what, total.count (.defined what) ≤ 1) (hp : body.PieceWise)
    (hb : body.Balances total) (name : Identifier) :
    Balances total (fun c => dueInTag kept (c.definedBy? name.value) c)
      (tag n body opening name) fun _ c => kept ++ c.marks := by
  have hplain {k : Keyword} (h : Keyword.ofSpelling? name.value = some k)
      (hk : k ≠ .macroWord ∧ k ≠ .blockWord) (c : Cursor) :
      dueInTag kept (c.definedBy? name.value) c = kept ++ c.marksBehindTag := by
    rw [dueInTag, Cursor.definedBy?_eq_none (Keyword.ofSpelling?_eq_some_iff.mp h) hk]
    simp
  unfold tag
  split
  · next h =>
    exact ((balances_ifTag hp hb).congr (hplain h (by decide))).bind fun _ => balances_push _
  · next h =>
    exact ((balances_forTag hb).congr (hplain h (by decide))).bind fun _ => balances_push _
  · next h => exact (balances_setTag.congr (hplain h (by decide))).bind fun _ => balances_push _
  · next h =>
    exact ((balances_callTag hb).congr (hplain h (by decide))).bind fun _ => balances_push _
  · next h =>
    exact ((balances_filterTag hb).congr (hplain h (by decide))).bind fun _ => balances_push _
  · next h =>
    rw [Keyword.ofSpelling?_eq_some_iff.mp h]
    exact (balances_blockTag hn hb).bind fun _ => balances_push _
  · next h =>
    rw [Keyword.ofSpelling?_eq_some_iff.mp h]
    exact balances_macroTag hn hb
  · next h => exact balances_extendsTag.congr (hplain h (by decide))
  · exact .throw _

/-- What is due behind a body: nothing more if the source has ended, and what stands behind the
tag that closes it otherwise. -/
def dueBehind (kept : List Mark) : Option Closing → Cursor → List Mark
  | none, _ => kept
  | some _, c => kept ++ c.marksBehindTag

theorem balances_piece (hn : ∀ what, total.count (.defined what) ≤ 1) (hp : body.PieceWise)
    (hb : body.Balances total) {closers : List Keyword} (hc : ∀ w ∈ closers, w ∉ tagWords) :
    Ensures (Balanced total fun c => kept ++ c.marks) (piece n body closers)
      (OnPass (fun found => Balanced total (dueBehind kept found)) fun _ =>
        Balanced total fun c => kept ++ c.marks) fun _ _ => True := by
  refine balances_opening.bind fun found => ?_
  cases found with
  | none => exact Ensures.pure fun _ hd => hd
  | some l =>
    rintro d (⟨htoken, hle, hd⟩ | ⟨htoken, hd⟩)
    · have hput : Ensures (· = d) (liftM (placeable n l.span) : DraftM Statement)
          (fun s => Balanced total fun c => kept ++ marksIn [s] ++ c.marks) fun _ _ => True := by
        rintro t rfl
        refine hd.lift (Reader.lands_placeable_marks hle) settles_placeable fun s e he => ?_
        rw [he.2, he.1]
      simp only [htoken]
      refine hput.bind (fun s => ?_) d rfl
      exact Ensures.bind (balances_push s) fun _ => Ensures.pure fun _ hd => hd
    · have hname : Ensures (· = d) (liftM Reader.expectName : DraftM Identifier)
          (fun name => Balanced total fun c => dueInTag kept (c.definedBy? name.value) c)
          fun _ _ => True := by
        rintro t rfl
        refine hd.lift Reader.Lands.expectName .expectName fun name e he => ?_
        have hbehind : e.marksBehindTag = t.reader.cursor.marksBehindTag := by
          rw [Cursor.marksBehindTag, Cursor.marksBehindTag,
            Cursor.skipThrough_of_reads he (by simp) (by simp)]
        rw [dueInTag, dueInTag, hbehind, Cursor.defined?_of_reads he]
      simp only [htoken]
      refine hname.bind (fun name => Ensures.bind (balances_note _) fun _ => ?_) d rfl
      split
      · next keyword hk =>
        have hword : keyword.spelling = name.value := by simpa using List.find?_some hk
        have hplain : keyword ≠ .macroWord ∧ keyword ≠ .blockWord := by
          have htag := hc keyword (List.mem_of_find?_eq_some hk)
          constructor <;> (rintro rfl; exact htag (by decide))
        refine Ensures.pure fun t ht => ?_
        have hdue : dueInTag kept (t.reader.cursor.definedBy? name.value) t.reader.cursor =
            kept ++ t.reader.cursor.marksBehindTag := by
          rw [dueInTag, Cursor.definedBy?_eq_none hword.symm hplain]
          simp
        refine ⟨ht.1, fun x => (ht.2 x).symm ▸ ?_⟩
        exact congrArg (fun due => t.marks.count x + due.count x) hdue.symm
      · exact Ensures.bind (balances_tag hn hp hb name) fun _ => Ensures.pure fun _ hd => hd

theorem balances_content (hn : ∀ what, total.count (.defined what) ≤ 1) (hp : body.PieceWise)
    (hb : body.Balances total) {closers : List Keyword} (hc : ∀ w ∈ closers, w ∉ tagWords) :
    Balances total (fun c => kept ++ c.marks) (content n body closers) (dueBehind kept) :=
  Ensures.loop (descends_piece hp closers) (I := fun _ => Balanced total fun c => kept ++ c.marks)
    (fun _ => balances_piece hn hp hb hc) none

/-- The marks of a body that is closed go from the draft into the body. -/
theorem balances_body (hn : ∀ what, total.count (.defined what) ≤ 1) (n : Nat) :
    (Draft.body n).Balances total := by
  induction n with
  | zero => exact fun _ _ _ _ _ => trivial
  | succ n ih =>
    intro kept closers hc d hd
    have hopen : openBody d = .ok () d.opened := rfl
    have hopened : Balanced total (fun c => kept ++ c.marks) d.opened := by
      refine ⟨hd.1, fun x => ?_⟩
      rw [← hd.2 x]
      simp [marks, opened, Scope.opened]
    have hcontent := balances_content (n := n) hn (pieceWise_body n) ih hc _ hopened
    have hnests := nests_content (n := n) (nests_body n) closers _ _ _ (grownFrom_self d.opened)
    rw [Draft.body, run_bind_ok hopen, run_bind]
    cases hr : content n (Draft.body n) closers d.opened with
    | error f t => trivial
    | ok found t =>
      rw [hr] at hcontent hnests
      cases found with
      | none => trivial
      | some closing =>
        have henclosing : t.enclosing = d.current :: d.enclosing := hnests.1
        change Ends _ _ ((closeBody closing.opening.start >>= fun s => pure (s, closing)) t)
        rw [closeBody, run_bind_ok (run_modifyGet _ _), henclosing]
        refine ⟨hcontent.1, fun x => ?_⟩
        have hx := hcontent.2 x
        change _ + (kept ++ marksIn t.current.body ++ t.reader.cursor.marksBehindTag).count x = _
        simp only [marks, henclosing, dueBehind, List.flatMap_cons, List.count_append] at hx ⊢
        omega

/-- Reading all comes to the end of the source, not to a tag that closes a body. -/
theorem content_of_readAll {s d : Draft} (hp : s.reader.peeked = none)
    (h : readAll s = .ok () d) :
    content depthLimit (Draft.body depthLimit) [] s = .ok none d := by
  obtain ⟨found, t, ht, hd⟩ := bind_eq_ok h
  cases hd
  cases found with
  | none => exact ht
  | some closing =>
    obtain ⟨k, e, -, -, hc⟩ :=
      (lands_content (pieceWise_body _) (sound_body _) [] _ s.parents).ok ⟨⟨hp, rfl⟩, rfl⟩ ht
    exact absurd hc.1 List.not_mem_nil

/-- When all is read, the marks of all parts are in the draft. -/
theorem perm_marks_of_readAll {text : String} {d : Draft}
    (hn : ((Cursor.ofText text).parts.filterMap Part.defined?).Nodup)
    (h : readAll (.ofText text) = .ok () d) : d.marks.Perm (Cursor.ofText text).marks := by
  have hn' (what : Keyword × String) : (Cursor.ofText text).marks.count (.defined what) ≤ 1 := by
    rw [Cursor.count_marks_defined]
    exact List.nodup_iff_count_le_one.mp hn what
  have hstart : Balanced (Cursor.ofText text).marks (fun c => [] ++ c.marks) (.ofText text) :=
    ⟨rfl, fun _ => Nat.zero_add _⟩
  have hnone : ∀ w ∈ ([] : List Keyword), w ∉ tagWords := by simp
  have hend := balances_content (n := depthLimit) hn' (pieceWise_body depthLimit)
    (balances_body hn' depthLimit) hnone _ hstart
  rw [content_of_readAll rfl h] at hend
  exact List.perm_iff_count.mpr hend.2

end Tags
end Draft

/-! ## Templates -/

/-- Sorting puts things in the one order in which their keys ascend. -/
theorem mergeSort_eq_of_perm {α : Type} (key : α → Nat) {l l' : List α} (h : l.Perm l')
    (hl : l'.Pairwise fun a b => key a < key b) :
    l.mergeSort (fun a b => decide (key a ≤ key b)) = l' := by
  have htrans (a b c : α) (hab : decide (key a ≤ key b) = true)
      (hbc : decide (key b ≤ key c) = true) : decide (key a ≤ key c) = true := by
    simp only [decide_eq_true_eq] at hab hbc ⊢
    omega
  have htotal (a b : α) : (decide (key a ≤ key b) || decide (key b ≤ key a)) = true := by
    simp only [Bool.or_eq_true, decide_eq_true_eq]
    omega
  have hsorted : (l.mergeSort fun a b => decide (key a ≤ key b)).Pairwise
      fun a b => key a ≤ key b := by
    simpa using List.pairwise_mergeSort htrans htotal l
  have hperm := (List.mergeSort_perm l fun a b => decide (key a ≤ key b)).trans h
  refine hperm.eq_of_pairwise (fun a b ha hb hab hba => ?_) hsorted (hl.imp Nat.le_of_lt)
  have hkeys : (l'.map key).Nodup := List.pairwise_map.mpr (hl.imp Nat.ne_of_lt)
  exact List.inj_on_of_nodup_map hkeys (hperm.mem_iff.mp ha) hb (Nat.le_antisymm hab hba)

section Parts
variable {c : Cursor}

theorem texts_ordered (c : Cursor) : (c.parts.filterMap Part.text?).Pairwise fun a b =>
    a.2.start.offset < b.2.start.offset := by
  have htext (p : Part) (x : String × Span) (h : p.text? = some x) :
      p.isEmpty = false ∧ p.start = x.2.start := by
    cases p with
    | text run span =>
      obtain ⟨hrun, rfl⟩ : run.isEmpty = false ∧ (run, span) = x := by
        simpa [Part.text?] using h
      exact ⟨hrun, rfl⟩
    | put _ | tag _ _ => cases h
  refine List.pairwise_filterMap.mpr (c.parts_ordered.2.imp fun hlt a ha b hb => ?_)
  obtain ⟨hempty, hp⟩ := htext _ a ha
  obtain ⟨-, hq⟩ := htext _ b hb
  rw [← hp, ← hq]
  exact hlt hempty

theorem puts_ordered (c : Cursor) : (c.parts.filterMap Part.put?).Pairwise fun a b =>
    a.offset < b.offset := by
  have hput (p : Part) (x : Position) (h : p.put? = some x) : p.isEmpty = false ∧ p.start = x := by
    cases p with
    | put _ => exact ⟨rfl, Option.some.inj h⟩
    | text _ _ | tag _ _ => cases h
  refine List.pairwise_filterMap.mpr (c.parts_ordered.2.imp fun hlt a ha b hb => ?_)
  obtain ⟨hempty, hp⟩ := hput _ a ha
  obtain ⟨-, hq⟩ := hput _ b hb
  rw [← hp, ← hq]
  exact hlt hempty

end Parts

/-- If no macro and no block of a source is defined twice, then the texts in its template, sorted by
where they start, are those that the source is split into, and so are the places of placeables. -/
theorem compile_conserves {text : String} {name : Option String} {t : Template}
    (h : compile text name = .ok t)
    (hn : ((Cursor.ofText text).parts.filterMap Part.defined?).Nodup) :
    (t.statements.filterMap Statement.text?).mergeSort
        (fun a b => decide (a.2.start.offset ≤ b.2.start.offset)) =
      (Cursor.ofText text).parts.filterMap Part.text? ∧
    (t.statements.filterMap Statement.put?).mergeSort
        (fun a b => decide (a.offset ≤ b.offset)) =
      (Cursor.ofText text).parts.filterMap Part.put? := by
  obtain ⟨d, hr, henclosing, rfl⟩ := compile_eq_ok_iff.mp h
  have hperm := Draft.perm_marks_of_readAll hn hr
  have htexts := hperm.filterMap Mark.text?
  have hputs := hperm.filterMap Mark.put?
  rw [Draft.filterMap_marks (fun _ => rfl) henclosing, Cursor.marks, List.filterMap_filterMap]
    at htexts hputs
  simp only [Statement.bind_text?, Part.bind_text?] at htexts
  simp only [Statement.bind_put?, Part.bind_put?] at hputs
  exact ⟨mergeSort_eq_of_perm (fun x => x.2.start.offset) htexts (texts_ordered _),
    mergeSort_eq_of_perm (fun x => x.offset) hputs (puts_ordered _)⟩

/-- Texts around and in a macro, with a placeable that quotes what closes a placeable. -/
theorem compile_conserves_macro : ∃ t,
    compile "a\x7b% macro m() %\x7db\x7b\x7b '\x7d\x7d' \x7d\x7d\x7b% endmacro %\x7dc" = .ok t ∧
    (t.statements.filterMap Statement.text?).mergeSort
        (fun a b => decide (a.2.start.offset ≤ b.2.start.offset)) =
      [("a", ⟨⟨0, 1, 0⟩, ⟨1, 1, 1⟩⟩), ("b", ⟨⟨16, 1, 16⟩, ⟨17, 1, 17⟩⟩),
        ("c", ⟨⟨41, 1, 41⟩, ⟨42, 1, 42⟩⟩)] ∧
    (t.statements.filterMap Statement.put?).mergeSort
        (fun a b => decide (a.offset ≤ b.offset)) = [⟨17, 1, 17⟩] := by
  cases hc : compile
      "a\x7b% macro m() %\x7db\x7b\x7b '\x7d\x7d' \x7d\x7d\x7b% endmacro %\x7dc" with
  | error e =>
    have hok : (compile "a\x7b% macro m() %\x7db\x7b\x7b '\x7d\x7d' \x7d\x7d\x7b% endmacro %\x7dc"
        ).isOk = true := by decide +kernel
    rw [hc] at hok
    cases hok
  | ok t =>
    obtain ⟨htexts, hputs⟩ := compile_conserves hc (by decide +kernel)
    refine ⟨t, rfl, htexts.trans ?_, hputs.trans ?_⟩
    · decide +kernel
    · decide +kernel

end TemplateSyntax
