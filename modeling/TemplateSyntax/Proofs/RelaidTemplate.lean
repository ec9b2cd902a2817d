import TemplateSyntax.Proofs.Layout
import TemplateSyntax.Proofs.Locality
import TemplateSyntax.Proofs.ParallelReading

/-!
# Reading does not depend on the layout

A source is read in two layouts in parallel. In a tag or a placeable both readers take the same
tokens, up to the symbol that closes it; between tags both find a text, or neither does, and the
same opens behind it. So both drafts come to the same, up to places and with the texts replaced.
-/
namespace TemplateSyntax

/-! ## Readers -/

namespace Reader
variable {layout : Layout} {stop : Symbol} {v : List Char}

/-- Both readers stand at the same place in a tag or a placeable, or right behind it, where the
first text goes on with `v`. -/
def InTag (layout : Layout) (stop : Symbol) (v : List Char) (r r' : Reader) : Prop :=
  ∃ c c', r.At c ∧ r'.At c' ∧
    (c'.rest = c.relaid layout (some stop) ∧ (c.skipThrough stop).rest = v ∨
      c'.rest = c.relaid layout none ∧ c.rest = v)

/-- The second reader finds the token that the first one finds, unless that stands further on. -/
theorem InTag.next_eq_ok (hstop : stop.Closes) {r r' t : Reader} {l : Lexeme}
    (h : InTag layout stop v r r') (hn : next r = .ok l t) :
    Past v t ∨ ∃ l' t', next r' = .ok l' t' ∧ Same l l' ∧ InTag layout stop v t t' ∧
      InTag layout stop v { t with peeked := some l } { t' with peeked := some l' } := by
  obtain ⟨c, c', hc, hc', h⟩ := h
  obtain ⟨hnext, hpeeked⟩ := hc.next_eq_ok hn
  have hreads : c.Reads l.token t.cursor := ⟨l.span, hnext⟩
  have hopen : Past v t ∨
      c'.rest = c.relaid layout (some stop) ∧ (c.skipThrough stop).rest = v := by
    rcases h with h | ⟨hr, hv⟩
    · exact .inr h
    · by_cases hnil : c.rest = []
      · right
        rw [hr, ← hv, Cursor.relaid_of_rest_nil _ hnil, Cursor.relaid_of_rest_nil _ hnil, hnil]
        exact ⟨rfl, (c.reaches_skipThrough stop).rest_eq_nil hnil⟩
      · left
        rw [Past, ← hv, (Cursor.next_eq_ok hnext).2.2]
        exact Cursor.length_behindNext_lt_of_ne_nil true hnil
  refine hopen.imp id fun ⟨hr, hv⟩ => ?_
  obtain ⟨d', ⟨span', hnext'⟩, hrest⟩ := hreads.relaid hstop hr
  obtain ⟨t', ht', hpeeked', rfl⟩ := hc'.next hnext'
  refine ⟨_, t', ht', rfl, ⟨_, _, .inl ⟨hpeeked, rfl⟩, .inl ⟨hpeeked', rfl⟩, ?_⟩,
    ⟨c, c', .inr ⟨l, rfl, hnext⟩, .inr ⟨_, rfl, hnext'⟩, h⟩⟩
  by_cases hs : l.token = .symbol stop
  · rw [Token.stillOpen, if_pos hs] at hrest
    rw [hs] at hreads
    exact .inr ⟨hrest, by rw [← hv, Cursor.skipThrough_of_readsSymbol hreads]⟩
  · rw [Token.stillOpen, if_neg hs] at hrest
    exact .inl ⟨hrest, by rw [← hv, Cursor.skipThrough_rest_of_reads hreads hs]⟩

theorem inStep_inTag (hstop : stop.Closes) : InStep (InTag layout stop v) (Past v) where
  next :=
    ⟨(stable_past v).next, fun hr hn => (hr.next_eq_ok hstop hn).imp id
      fun ⟨l', t', hn', hl, ht, _⟩ => ⟨l', t', hn', hl, ht⟩⟩
  peek := by
    refine ⟨(stable_past v).peek, fun {r r' t l} hr hpeek => ?_⟩
    rw [run_peek] at hpeek
    cases hn : Reader.next r with
    | error f u =>
      rw [hn] at hpeek
      cases hpeek
    | ok l u =>
      rw [hn] at hpeek
      cases hpeek
      refine (hr.next_eq_ok hstop hn).imp id fun ⟨l', t', hn', hl, _, ht⟩ => ⟨l', _, ?_, hl, ht⟩
      rw [run_peek, hn']

/-- Both readers stand at the same place, and neither has looked at a token. -/
structure Abreast (layout : Layout) (place : Option Symbol) (r r' : Reader) : Prop where
  settled : r.peeked = none
  settled' : r'.peeked = none
  rest : r'.cursor.rest = r.cursor.relaid layout place

/-- What ends with the symbol that closes a tag or a placeable is read in both layouts. -/
theorem Abreast.head {α : Type} [Movable α] {m m' : ReadM α} {g : α → α} {r r' t : Reader} {a : α}
    (h : Abreast layout (some stop) r r') (hstop : stop.Closes)
    (hm : ∀ {R : Reader → Reader → Prop} {past : Reader → Prop}, InStep R past →
      Follows past R m m' g fun _ => R)
    (hlands : ∀ c, Lands m c fun _ d => c.skipThrough stop = d) (hs : Settles m) (hs' : Settles m')
    (hrun : m r = .ok a t) :
    ∃ a' t', m' r' = .ok a' t' ∧ Same (g a) a' ∧ Abreast layout none t t' := by
  have hnone := hs _ _ _ hrun
  obtain ⟨e, hat, hskip⟩ := (hlands r.cursor).ok (.inl ⟨h.settled, rfl⟩) hrun
  rw [← hat.cursor_eq hnone] at hskip
  have hstart : InTag layout stop (r.cursor.skipThrough stop).rest r r' :=
    ⟨_, _, .inl ⟨h.settled, rfl⟩, .inl ⟨h.settled', rfl⟩, .inl ⟨h.rest, rfl⟩⟩
  rcases (hm (inStep_inTag hstop)).ok hstart hrun with
    hpast | ⟨a', t', hrun', ha, u, u', hu, hu', hplace⟩
  · rw [Past, hskip] at hpast
    exact absurd hpast (Nat.lt_irrefl _)
  · have hnone' := hs' _ _ _ hrun'
    rw [← hu.cursor_eq hnone, ← hu'.cursor_eq hnone', hskip] at hplace
    refine ⟨a', t', hrun', ha, hnone, hnone', ?_⟩
    rcases hplace with ⟨hopen, hv⟩ | ⟨hclosed, -⟩
    · -- Behind the symbol that closes the tag no other one is waited for.
      by_cases hnil : t.cursor.rest = []
      · exact hopen.trans
          ((Cursor.relaid_of_rest_nil _ hnil).trans (Cursor.relaid_of_rest_nil _ hnil).symm)
      · have hlt := Cursor.length_skipThrough_lt stop hnil
        rw [hv] at hlt
        exact absurd hlt (Nat.lt_irrefl _)
    · exact hclosed

/-- The name that a tag begins with does not close the tag. -/
theorem Abreast.expectName {r r' t : Reader} {name : Identifier}
    (h : Abreast layout (some stop) r r') (hstop : stop.Closes)
    (hrun : Reader.expectName r = .ok name t) :
    ∃ name' t', Reader.expectName r' = .ok name' t' ∧ Same name name' ∧
      Abreast layout (some stop) t t' := by
  have hnone := Settles.expectName _ _ _ hrun
  obtain ⟨e, hat, hreads⟩ := Lands.expectName.ok (.inl ⟨h.settled, rfl⟩) hrun
  obtain ⟨u', hu', hplace⟩ := hreads.relaid hstop h.rest
  obtain ⟨name', t', hrun', hname, hat'⟩ := Passes.expectName hu' _ (.inl ⟨h.settled', rfl⟩)
  have hnone' := Settles.expectName _ _ _ hrun'
  refine ⟨name', t', hrun', congrArg (Identifier.mk · _) hname.symm, hnone, hnone', ?_⟩
  rw [hat.cursor_eq hnone, hat'.cursor_eq hnone']
  simpa [Token.stillOpen] using hplace

end Reader

/-! ## Drafts -/

namespace Draft
open Statement
variable {α : Type} [Movable α] {layout : Layout} {place place' : Option Symbol}

/-- The second draft holds what the first one holds, up to places and with the texts replaced. -/
structure Rewritten (layout : Layout) (d d' : Draft) : Prop where
  current : Same (editedScope layout.text d.current) d'.current
  enclosing : Same (d.enclosing.map (editedScope layout.text)) d'.enclosing
  macros : Same (d.macros.mapValues (Macro.edited layout.text)) d'.macros
  blocks : Same (d.blocks.mapValues (Block.edited layout.text)) d'.blocks
  parent : Same d.parent d'.parent

theorem Rewritten.withReader {d d' : Draft} (h : Rewritten layout d d') (r r' : Reader) :
    Rewritten layout { d with reader := r } { d' with reader := r' } :=
  ⟨h.current, h.enclosing, h.macros, h.blocks, h.parent⟩

/-- Both drafts stand at the same place, and hold the same up to places and texts. -/
structure Abreast (layout : Layout) (place : Option Symbol) (d d' : Draft) : Prop where
  reader : Reader.Abreast layout place d.reader d'.reader
  content : Rewritten layout d d'

/-- Drafts that are abreast at the first place come to the second one abreast. -/
abbrev Tracks (layout : Layout) (place : Option Symbol) (m m' : DraftM α) (g : α → α)
    (place' : Option Symbol) : Prop :=
  Follows (fun _ => False) (Abreast layout place) m m' g fun _ => Abreast layout place'

theorem tracks_lift {m m' : ReadM α} {g : α → α}
    (h : ∀ {r r' t : Reader} {a : α}, Reader.Abreast layout place r r' → m r = .ok a t →
      ∃ a' t', m' r' = .ok a' t' ∧ Same (g a) a' ∧ Reader.Abreast layout place' t t') :
    Tracks layout place (liftM m : DraftM α) (liftM m') g place' where
  keeps _ h := h.elim
  ok {d d' t a} hr ht := by
    rw [run_lift] at ht ⊢
    cases hrun : m d.reader with
    | error f r =>
      rw [hrun] at ht
      cases ht
    | ok b r =>
      rw [hrun] at ht
      cases ht
      obtain ⟨a', r', hrun', ha, hreader⟩ := h hr.reader hrun
      rw [hrun']
      exact .inr ⟨a', _, rfl, ha, hreader, hr.content.withReader r r'⟩

/-- Changes that leave the reader alone and do the same to what is held. -/
theorem tracks_modifyGet {f f' : Draft → α × Draft} {g : α → α}
    (h : ∀ d d', Rewritten layout d d' → Same (g (f d).1) (f' d').1 ∧
      Rewritten layout (f d).2 (f' d').2)
    (hf : ∀ d, (f d).2.reader = d.reader) (hf' : ∀ d, (f' d).2.reader = d.reader) :
    Tracks layout place (modifyGet f : DraftM α) (modifyGet f') g place where
  keeps _ h := h.elim
  ok {d d' t a} hr ht := by
    obtain ⟨hreader, hcontent⟩ := hr
    obtain ⟨hsame, hcontent'⟩ := h _ _ hcontent
    rw [run_modifyGet] at ht ⊢
    cases ht
    refine .inr ⟨_, _, rfl, hsame, ?_, hcontent'⟩
    rwa [hf, hf']

theorem tracks_note (e e' : Event) :
    Tracks layout place (note e) (note e') (fun u => u) place :=
  tracks_modifyGet (fun _ _ h =>
    ⟨rfl, h.current, h.enclosing, h.macros, h.blocks, h.parent⟩) (fun _ => rfl) fun _ => rfl

theorem tracks_push {s s' : Statement} (hs : Same (edited layout.text s) s') :
    Tracks layout place (push s) (push s') (fun u => u) place :=
  tracks_modifyGet (fun _ _ h =>
    ⟨rfl, h.current.push hs, h.enclosing, h.macros, h.blocks, h.parent⟩) (fun _ => rfl)
    fun _ => rfl

theorem tracks_openBody : Tracks layout place openBody openBody (fun u => u) place :=
  tracks_modifyGet (fun _ _ h =>
    ⟨rfl, rfl, congrArg₂ List.cons h.current h.enclosing, h.macros, h.blocks, h.parent⟩)
    (fun _ => rfl) fun _ => rfl

theorem tracks_closeBody (stop stop' : Position) :
    Tracks layout place (closeBody stop) (closeBody stop') (editedScope layout.text) place := by
  refine tracks_modifyGet (fun d d' h => ⟨h.current.closed stop stop', ?_⟩) (fun d => ?_)
    fun d => ?_
  · have henclosing := h.enclosing
    cases hbs : d.enclosing with
    | nil =>
      cases hbs' : d'.enclosing with
      | nil => exact h
      | cons b' bs' =>
        rw [hbs, hbs'] at henclosing
        cases henclosing
    | cons b bs =>
      cases hbs' : d'.enclosing with
      | nil =>
        rw [hbs, hbs'] at henclosing
        cases henclosing
      | cons b' bs' =>
        rw [hbs, hbs'] at henclosing
        obtain ⟨hb, hrest⟩ := List.cons.inj henclosing
        exact ⟨hb, hrest, h.macros, h.blocks, h.parent⟩
  · cases d.enclosing <;> rfl
  · cases d.enclosing <;> rfl

theorem tracks_define {x x' : Definition} (hx : Same (x.edited layout.text) x') :
    Tracks layout place (define x) (define x') (fun u => u) place := by
  refine tracks_modifyGet (fun d d' h => ⟨rfl, ?_⟩) (fun d => by cases x <;> rfl)
    fun d => by cases x' <;> rfl
  cases x with
  | ofMacro m =>
    cases x' with
    | ofBlock b' => cases hx
    | ofMacro m' =>
      have hm : Same (m.edited layout.text) m' := Definition.ofMacro.inj hx
      have hname : m.name.value = m'.name.value := congrArg (fun m => m.name.value) hm
      refine ⟨h.current, h.enclosing, ?_, h.blocks, h.parent⟩
      change Same ((d.macros.insert m.name.value m).mapValues _) (d'.macros.insert _ m')
      rw [Table.mapValues_insert, hname]
      exact h.macros.insert hm
  | ofBlock b =>
    cases x' with
    | ofMacro m' => cases hx
    | ofBlock b' =>
      have hb : Same (b.edited layout.text) b' := Definition.ofBlock.inj hx
      have hname : b.name.value = b'.name.value := congrArg (fun b => b.name.value) hb
      refine ⟨h.current, h.enclosing, h.macros, ?_, h.parent⟩
      change Same ((d.blocks.insert b.name.value b).mapValues _) (d'.blocks.insert _ b')
      rw [Table.mapValues_insert, hname]
      exact h.blocks.insert hb

theorem tracks_setParent {target target' : Expression} (ht : Same target target') :
    Tracks layout place (setParent target) (setParent target') (fun b => b) place := by
  refine tracks_modifyGet (fun d d' h => ?_) (fun d => ?_) fun d => ?_
  · have hsome : d'.parent.isSome = d.parent.isSome := by
      have hparent := congrArg Option.isSome h.parent
      change (d.parent.map _).isSome = (d'.parent.map _).isSome at hparent
      rw [Option.isSome_map, Option.isSome_map] at hparent
      exact hparent.symm
    rw [hsome]
    split
    · exact ⟨rfl, h⟩
    · exact ⟨rfl, h.current, h.enclosing, h.macros, h.blocks, congrArg some ht⟩
  · split <;> rfl
  · split <;> rfl

/-- The text that is read is replaced by the one that takes its place. -/
theorem Rewritten.behindText {d d' : Draft} (h : Rewritten layout d d')
    (hrun : textRun d'.reader.cursor.rest = d.reader.cursor.editedText layout) :
    Rewritten layout d.behindText d'.behindText := by
  refine ⟨?_, h.enclosing, h.macros, h.blocks, h.parent⟩
  unfold Draft.behindText
  dsimp only
  by_cases hnil : textRun d.reader.cursor.rest = []
  · rw [hrun, Cursor.editedText_eq_nil_iff.mpr hnil, hnil]
    exact h.current
  · have hnil' : d.reader.cursor.editedText layout ≠ [] := fun hc =>
      hnil (Cursor.editedText_eq_nil_iff.mp hc)
    rw [hrun, if_neg (by simpa using hnil), if_neg (by simpa using hnil')]
    refine h.current.push ?_
    rw [Cursor.editedText, if_neg hnil, String.ofList_toList]
    rfl

/-- The place that the token behind a text leads to. -/
def placeBehind (found : Option Lexeme) : Option Symbol :=
  found.bind fun l =>
    match l.token with
    | .symbol s => some s.closer
    | _ => none

/-- Texts are read up to the same opening. -/
theorem follows_opening :
    Follows (fun _ => False) (Abreast layout none) opening opening (fun found => found)
      fun found => Abreast layout (placeBehind found) where
  keeps _ h := h.elim
  ok {d d' t found} hr h := by
    obtain ⟨⟨hp, hp', hrest⟩, hcontent⟩ := hr
    obtain ⟨hrun, ⟨hend, hend'⟩ | ⟨s, e, e', hs, ho, ho', hplace⟩⟩ := Cursor.behindText_relaid hrest
    · rw [opening_of_end ⟨hp, rfl⟩ hend] at h
      cases h
      have hrest' : d'.reader.cursor.behindText.rest =
          d.reader.cursor.behindText.relaid layout none := by
        rw [hend', Cursor.relaid_of_rest_nil _ hend]
      exact .inr ⟨none, _, opening_of_end ⟨hp', rfl⟩ hend', rfl, ⟨hp, hp', hrest'⟩,
        hcontent.behindText hrun⟩
    · obtain ⟨l, r, hopening, hl, hr, rfl⟩ := opening_of_opens ⟨hp, rfl⟩ hs ho
      obtain ⟨l', r', hopening', hl', hr', rfl⟩ := opening_of_opens ⟨hp', rfl⟩ hs ho'
      rw [hopening] at h
      cases h
      have hsame : Same (some l) (some l') :=
        congrArg (fun t => some (Lexeme.mk t _)) (hl.trans hl'.symm)
      have hplace' : placeBehind (some l) = some s.closer := by simp [placeBehind, hl]
      exact .inr ⟨some l', _, hopening', hsame, ⟨hr, hr', hplace' ▸ hplace⟩,
        (hcontent.behindText hrun).withReader r r'⟩

/-! ## Tags and bodies -/

section Tags
variable {n : Nat} {body : BodyReader} {s s' : Span}

/-- A body and the tag that closes it are read in both layouts. -/
def BodyReader.Tracks (layout : Layout) (body : BodyReader) : Prop :=
  ∀ closers, Draft.Tracks layout none (body closers) (body closers)
    (fun x => (editedScope layout.text x.1, x.2)) (some .endTag)

theorem BodyReader.Tracks.bind {β : Type} [Movable β] (hb : body.Tracks layout)
    (closers : List Keyword) {k k' : Body × Closing → DraftM β} {g : β → β}
    (hk : ∀ x x', Same (editedScope layout.text x.1) x'.1 → Same x.2 x'.2 →
      Draft.Tracks layout (some .endTag) (k x) (k' x') g place) :
    Draft.Tracks layout none (body closers >>= k) (body closers >>= k') g place :=
  (hb closers).bind fun x x' hx => hk x x' (congrArg Prod.fst hx) (congrArg Prod.snd hx)

/-- The rest of a tag is read in both layouts. -/
theorem tracks_head {m m' : ReadM α} {g : α → α}
    (hm : ∀ {R : Reader → Reader → Prop} {past : Reader → Prop}, InStep R past →
      Follows past R m m' g fun _ => R)
    (hlands : ∀ c, Reader.Lands m c fun _ d => c.skipThrough .endTag = d)
    (hs : Reader.Settles m) (hs' : Reader.Settles m') :
    Tracks layout (some .endTag) (liftM m : DraftM α) (liftM m') g none :=
  tracks_lift fun hr => hr.head (.inr rfl) hm hlands hs hs'

theorem tracks_endTag : Tracks layout (some .endTag)
    (discard (liftM endTag : DraftM Span) : DraftM PUnit) (discard (liftM endTag : DraftM Span))
    (fun u => u) none :=
  (tracks_head (fun h => h.endTag) (fun c => (Reader.lands_endTag c).mono fun _ _ h =>
    Cursor.skipThrough_of_readsSymbol h) settles_endTag settles_endTag).discard

theorem tracks_lastExpression : Tracks layout (some .endTag)
    (liftM (lastExpression n) : DraftM Expression) (liftM (lastExpression n)) (fun e => e) none :=
  tracks_head (fun h => h.lastExpression) (fun c => (Reader.lands_lastExpression c).mono
    fun _ _ h => h.skipThrough_eq) settles_lastExpression settles_lastExpression

/-- The arms that were read, with their texts replaced, and the tag that closed the last one. -/
def editedRead (edit : Edit) (x : List (Arm Statement) × Closing) :
    List (Arm Statement) × Closing :=
  (editedArms edit x.1, x.2)

theorem tracks_nextArm (hb : body.Tracks layout) {x x' : List (Arm Statement) × Closing}
    (hx : Same (editedRead layout.text x) x') :
    Tracks layout (some .endTag) (nextArm n body x) (nextArm n body x')
      (withValue (editedRead layout.text)) (some .endTag) := by
  obtain ⟨arms, closing⟩ := x
  obtain ⟨arms', closing'⟩ := x'
  have harms : Same (editedArms layout.text arms) arms' := congrArg Prod.fst hx
  have hclosing : Same closing closing' := congrArg Prod.snd hx
  refine .ite (by rw [hclosing.keyword_eq]) ?_ (.pure (congrArg ForInStep.done hx))
  refine tracks_lastExpression.bind fun condition condition' hc => ?_
  refine hb.bind _ fun (scope, next) (scope', next') hscope hnext => .pure ?_
  refine congrArg ForInStep.yield (Prod.ext ?_ hnext)
  change Same (editedArms layout.text (arms ++ [_])) _
  rw [editedArms_concat]
  exact harms.concat (.arm hc hscope.body)

theorem tracks_ifTag (hp : body.PieceWise) (hb : body.Tracks layout) :
    Tracks layout (some .endTag) (ifTag n body s) (ifTag n body s') (edited layout.text) none := by
  refine tracks_lastExpression.bind fun condition condition' hc => ?_
  refine hb.bind _ fun (first, closing) (first', closing') hfirst hclosing => ?_
  have hstart : Same (editedRead layout.text
      ([⟨condition, first.body, ⟨s.start, closing.span.stop⟩⟩], closing))
      ([⟨condition', first'.body, ⟨s'.start, closing'.span.stop⟩⟩], closing') :=
    Prod.ext (congrArg (fun a => [a]) (Same.arm hc hfirst.body)) hclosing
  refine (Follows.loop (R := fun _ => Abreast layout (some .endTag))
    (I := fun _ => Abreast layout (some .endTag)) (descends_nextArm hp) (descends_nextArm hp)
    (fun x x' hx => (tracks_nextArm hb hx).after (fun _ => rfl) ?_) hstart).bind
    fun (arms, closing) (arms', closing') hx => ?_
  · rintro (x | x) _ _ h <;> exact h
  have harms : Same (editedArms layout.text arms) arms' := congrArg Prod.fst hx
  have hclosing : Same closing closing' := congrArg Prod.snd hx
  refine .ite (by rw [hclosing.keyword_eq]) ?_ ?_
  · refine tracks_endTag.bind fun _ _ _ =>
      hb.bind _ fun (scope, last) (scope', last') hscope _ => ?_
    refine tracks_endTag.bind fun _ _ _ => .pure (.cases ?_)
    rw [editedArms_concat]
    exact harms.concat (.arm rfl hscope.body)
  · exact tracks_endTag.bind fun _ _ _ => .pure (.cases harms)

theorem tracks_forTag (hb : body.Tracks layout) :
    Tracks layout (some .endTag) (forTag n body s) (forTag n body s')
      (edited layout.text) none := by
  refine Follows.bind (tracks_head (fun h => h.loopHead) (fun c => (Reader.lands_loopHead c).mono
    fun _ _ h => h.skipThrough_eq) settles_loopHead settles_loopHead)
    fun (target, iterable, condition) (target', iterable', condition') hhead => ?_
  have htarget : Same target target' := congrArg Prod.fst hhead
  have hiterable : Same iterable iterable' := congrArg (fun x => x.2.1) hhead
  have hcondition : Same condition condition' := congrArg (fun x => x.2.2) hhead
  refine hb.bind _ fun (main, closing) (main', closing') hmain hclosing => ?_
  refine .ite (by rw [hclosing.keyword_eq]) ?_ ?_
  · refine tracks_endTag.bind fun _ _ _ =>
      hb.bind _ fun (alternative, last) (alternative', last') halternative _ => ?_
    refine tracks_endTag.bind fun _ _ _ => .pure ?_
    exact .loop htarget hiterable hcondition hmain (congrArg some halternative.body)
  · exact tracks_endTag.bind fun _ _ _ => .pure (.loop htarget hiterable hcondition hmain rfl)

theorem tracks_setTag : Tracks layout (some .endTag) (liftM (setTag n s) : DraftM Statement)
    (liftM (setTag n s')) (edited layout.text) none :=
  tracks_head (fun h => h.setTag layout.text s s') (fun c => (Reader.lands_setTag c s).mono
    fun _ _ h => h.skipThrough_eq) settles_setTag settles_setTag

theorem tracks_callTag (hb : body.Tracks layout) :
    Tracks layout (some .endTag) (callTag n body s) (callTag n body s')
      (edited layout.text) none := by
  refine Follows.bind (tracks_head (fun h => h.callHead) (fun c => (Reader.lands_callHead c).mono
    fun _ _ h => h.skipThrough_eq) settles_callHead settles_callHead)
    fun (name, args) (name', args') hhead => ?_
  have hname : Same name name' := congrArg Prod.fst hhead
  have hargs : Same args args' := congrArg Prod.snd hhead
  refine hb.bind _ fun (scope, closing) (scope', closing') hscope _ => ?_
  exact tracks_endTag.bind fun _ _ _ => .pure (.macroCall hname hargs hscope)

theorem tracks_filterTag (hb : body.Tracks layout) :
    Tracks layout (some .endTag) (filterTag n body s) (filterTag n body s')
      (edited layout.text) none := by
  refine tracks_lastExpression.bind fun filter filter' hfilter => ?_
  refine hb.bind _ fun (scope, closing) (scope', closing') hscope _ => ?_
  exact tracks_endTag.bind fun _ _ _ => .pure (.filterBlock hfilter hscope)

theorem tracks_blockTag (hb : body.Tracks layout) :
    Tracks layout (some .endTag) (blockTag body s) (blockTag body s')
      (edited layout.text) none := by
  refine Follows.bind (tracks_head (fun h => h.blockHead) (fun c => (Reader.lands_blockHead c).mono
    fun _ _ h => h.skipThrough_eq) settles_blockHead settles_blockHead) fun name name' hname => ?_
  refine hb.bind _ fun (scope, closing) (scope', closing') hscope _ => ?_
  rw [hname.value_eq]
  refine Follows.bind (tracks_head (fun h => h.blockEnd name'.value) (fun c =>
    (Reader.lands_blockEnd c _).mono fun _ _ h => h.skipThrough_eq)
    (settles_blockEnd _) (settles_blockEnd _)) fun close close' _ => ?_
  refine (tracks_define ?_).bind fun _ _ _ => .pure (congrArg (Statement.blockCall · _) hname)
  exact congrArg₂ (fun name body => Definition.ofBlock ⟨name, body, _⟩) hname hscope

theorem tracks_macroTag (hb : body.Tracks layout) :
    Tracks layout (some .endTag) (macroTag n body s) (macroTag n body s') (fun u => u) none := by
  refine Follows.bind (tracks_head (fun h => h.macroHead) (fun c => (Reader.lands_macroHead c).mono
    fun _ _ h => h.skipThrough_eq) settles_macroHead settles_macroHead)
    fun (name, parameters) (name', parameters') hhead => ?_
  have hname : Same name name' := congrArg Prod.fst hhead
  have hparameters : Same parameters parameters' := congrArg Prod.snd hhead
  refine hb.bind _ fun (scope, closing) (scope', closing') hscope _ => ?_
  refine tracks_endTag.bind fun _ _ _ => tracks_define (congrArg Definition.ofMacro ?_)
  change Macro.mk _ _ _ _ = Macro.mk _ _ _ _
  rw [Macro.mk.injEq]
  exact ⟨hname, hparameters, hscope, rfl⟩

theorem tracks_extendsTag :
    Tracks layout (some .endTag) (extendsTag n) (extendsTag n) (fun u => u) none := by
  refine tracks_lastExpression.bind fun target target' ht => ?_
  refine (tracks_setParent ht).bind fun isFirst isFirst' (h : isFirst = isFirst') => ?_
  subst h
  exact .ite .rfl (.pure rfl) (.throw _ _)

theorem tracks_tag (hp : body.PieceWise) (hb : body.Tracks layout) {name name' : Identifier}
    (hname : Same name name') :
    Tracks layout (some .endTag) (tag n body s name) (tag n body s' name') (fun u => u) none := by
  unfold tag
  rw [hname.value_eq]
  split
  · exact (tracks_ifTag hp hb).bind fun _ _ hx => tracks_push hx
  · exact (tracks_forTag hb).bind fun _ _ hx => tracks_push hx
  · exact tracks_setTag.bind fun _ _ hx => tracks_push hx
  · exact (tracks_callTag hb).bind fun _ _ hx => tracks_push hx
  · exact (tracks_filterTag hb).bind fun _ _ hx => tracks_push hx
  · exact (tracks_blockTag hb).bind fun _ _ hx => tracks_push hx
  · exact tracks_macroTag hb
  · exact tracks_extendsTag
  · exact .throw _ _

/-- The place that a body ends at: behind the keyword of the tag that closes it, or at the end. -/
def placeOfClosing (found : Option Closing) : Option Symbol := found.map fun _ => .endTag

theorem follows_piece (hp : body.PieceWise) (hb : body.Tracks layout)
    (closers : List Keyword) :
    Follows (fun _ => False) (Abreast layout none) (piece n body closers) (piece n body closers)
      (withValue fun found => found)
      (BehindPass (fun found => Abreast layout (placeOfClosing found))
        fun _ => Abreast layout none) := by
  refine follows_opening.bind fun found found' hfound => ?_
  cases found with
  | none =>
    cases found' with
    | none => exact .result rfl fun _ _ h => h
    | some l' => cases hfound
  | some l =>
    cases found' with
    | none => cases hfound
    | some l' =>
      have htoken : l'.token = l.token := Same.token_eq (Option.some.inj hfound)
      have hplace {s : Symbol} (hs : l.token = .symbol s) :
          placeBehind (some l) = some s.closer := by
        simp [placeBehind, hs]
      dsimp only
      rw [htoken]
      split
      · next hs =>
        rw [hplace hs]
        refine Follows.bind (tracks_lift fun hr => hr.head (.inl rfl)
          (fun h => h.placeable layout.text l.span l'.span) (fun c =>
            (Reader.lands_placeable c l.span).mono fun _ _ h => h.skipThrough_eq)
          settles_placeable settles_placeable) fun x x' hx => ?_
        exact (tracks_push hx).bind fun _ _ _ => .result rfl fun _ _ h => h
      · next hs =>
        rw [hplace hs]
        refine Follows.bind (tracks_lift fun hr => hr.expectName (.inr rfl))
          fun name name' hname => ?_
        refine (tracks_note _ _).bind fun _ _ _ => ?_
        rw [hname.value_eq]
        split
        · exact .result rfl fun _ _ h => h
        · exact (tracks_tag hp hb hname).bind fun _ _ _ => .result rfl fun _ _ h => h
      · exact .throw _ _

theorem follows_content (hp : body.PieceWise) (hb : body.Tracks layout)
    (closers : List Keyword) :
    Follows (fun _ => False) (Abreast layout none) (content n body closers) (content n body closers)
      (fun found => found) fun found => Abreast layout (placeOfClosing found) :=
  Follows.loop (I := fun _ => Abreast layout none) (descends_piece hp closers)
    (descends_piece hp closers) (fun _ _ _ => follows_piece hp hb closers) rfl

theorem tracks_body (n : Nat) : (Draft.body n).Tracks layout := by
  induction n with
  | zero => exact fun _ => ⟨fun _ h => h.elim, fun _ h => by cases h⟩
  | succ n ih =>
    refine fun closers => tracks_openBody.bind fun _ _ _ =>
      (follows_content (pieceWise_body n) ih closers).bind fun found found' hfound => ?_
    cases found with
    | none => exact ⟨fun _ h => h.elim, fun _ h => by cases h⟩
    | some closing =>
      cases found' with
      | none => cases hfound
      | some closing' =>
        exact (tracks_closeBody _ _).bind fun scope scope' hscope =>
          .pure (Prod.ext hscope (Option.some.inj hfound))

end Tags
end Draft

/-! ## Templates -/

/-- The source in another layout. -/
def Layout.relaid (layout : Layout) (text : String) : String :=
  String.ofList ((Cursor.ofText text).relaid layout none)

/-- A source that compiles still does in any other layout, and its template stays the same up to
places, with the texts replaced that are replaced in the source. -/
theorem compile_relaid (layout : Layout) {text : String} {name : Option String} {t : Template}
    (h : compile text name = .ok t) :
    ∃ t', compile (layout.relaid text) name = .ok t' ∧ Same (t.edited layout.text) t' := by
  obtain ⟨d, hread, henclosing, rfl⟩ := compile_eq_ok_iff.mp h
  obtain ⟨found, d', hcontent, hd⟩ := bind_eq_ok hread
  cases hd
  have hstart : Draft.Abreast layout none (.ofText text) (.ofText (layout.relaid text)) :=
    ⟨⟨rfl, rfl, String.toList_ofList⟩, rfl, rfl, rfl, rfl, rfl⟩
  obtain hfalse | ⟨found', t', hcontent', -, hend⟩ :=
    (Draft.follows_content (Draft.pieceWise_body _) (Draft.tracks_body _) []).ok hstart hcontent
  · exact hfalse.elim
  · have hread' : Draft.readAll (.ofText (layout.relaid text)) = .ok () t' := run_bind_ok hcontent'
    have henclosing' : t'.enclosing = [] := by
      have hsame := hend.content.enclosing
      rw [henclosing] at hsame
      exact List.map_eq_nil_iff.mp hsame.symm
    refine ⟨t'.template, compile_eq_ok_iff.mpr ⟨t', hread', henclosing', rfl⟩, ?_⟩
    change Template.mk _ _ _ _ _ = Template.mk _ _ _ _ _
    rw [Template.mk.injEq]
    exact ⟨hend.content.parent, hend.content.blocks, hend.content.macros,
      hend.content.current.closed _ _, rfl⟩

/-- A wide blank before every token, and a dash for every text. -/
def Layout.wide : Layout where
  text _ _ := "-"
  blanks _ w := '\u2003' :: w
  text_eq_or_free _ _ := .inr ⟨by decide, by decide, by decide, by decide⟩
  isBlank_of_mem _ _ hw := List.forall_mem_cons.mpr ⟨by decide, hw⟩
  eq_nil_of_blanks _ _ h := absurd h (List.cons_ne_nil _ _)

/-- A tag with wide blanks between its tokens, and with other texts before it and in it. -/
theorem compile_relaid_wide : ∃ t t', compile "a\x7b%if y%\x7dc\x7b%endif%\x7d" = .ok t ∧
    compile "-\x7b%\u2003if\u2003 y\u2003%\x7d-\x7b%\u2003endif\u2003%\x7d" = .ok t' ∧
    Same (t.edited Layout.wide.text) t' := by
  have hrelaid : Layout.wide.relaid "a\x7b%if y%\x7dc\x7b%endif%\x7d" =
      "-\x7b%\u2003if\u2003 y\u2003%\x7d-\x7b%\u2003endif\u2003%\x7d" := by
    decide +kernel
  cases hc : compile "a\x7b%if y%\x7dc\x7b%endif%\x7d" with
  | error e =>
    have hok : (compile "a\x7b%if y%\x7dc\x7b%endif%\x7d").isOk = true := by decide +kernel
    rw [hc] at hok
    cases hok
  | ok t =>
    obtain ⟨t', ht', hsame⟩ := compile_relaid Layout.wide hc
    rw [hrelaid] at ht'
    exact ⟨t, t', rfl, ht', hsame⟩

end TemplateSyntax
