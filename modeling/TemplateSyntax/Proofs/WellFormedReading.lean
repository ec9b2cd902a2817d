import TemplateSyntax.Proofs.Marks
import TemplateSyntax.Proofs.PlacedReading
import TemplateSyntax.Proofs.SpanOrder
import TemplateSyntax.Proofs.SpelledReading
import TemplateSyntax.Proofs.WellFormed

/-!
# Readers give well-formed nodes

The readers are gone through one by one: each gives nodes that are proper throughout, and puts only
such nodes into the draft. Truth values come from one reader alone, which makes the condition of an
`else` of one.
-/
namespace TemplateSyntax

/-! ## Parts of tags -/

namespace Draft
open Node
variable {source : String} {levels : Nat} {opening : Span}

theorem writes_lastExpression :
    Reader.Gives (lastExpression levels) Expression.Written :=
  (Expression.writes_read _ _).bind fun _ he => Reader.gives_behind fun _ => .pure he

theorem writes_nextFilter {filters : List Expression} (h : ∀ f ∈ filters, f.Written) :
    Reader.Gives (nextFilter levels filters) (HandsOn fun fs => ∀ f ∈ fs, f.Written) := by
  refine Reader.gives_behind fun atBar => ?_
  split
  · refine Reader.gives_behind fun _ => (Expression.writes_readFilter _).bind fun filter hf => ?_
    exact .pure (List.forall_mem_append.mpr ⟨h, by simpa using hf⟩)
  · exact .pure h

theorem writes_placeable : Reader.Gives (placeable levels opening) fun s =>
    ∃ value filters span, s = .put value filters span ∧ value.Written ∧
      ∀ f ∈ filters, f.Written := by
  refine (Expression.writes_read _ _).bind fun value hvalue => ?_
  refine Gives.bind (.loop (fun _ => writes_nextFilter) (by simp)) fun filters hfilters => ?_
  exact Reader.gives_behind fun close => .pure ⟨_, _, _, rfl, hvalue, hfilters⟩

theorem writes_loopCondition :
    Reader.Gives (loopCondition levels) fun c => ∀ e ∈ c, e.Written := by
  refine Reader.gives_behind fun atIf => ?_
  split
  · refine Reader.gives_behind fun _ => (Expression.writes_read _ _).bind fun e he => ?_
    exact .pure (by simpa using he)
  · exact .pure (by simp)

theorem writes_callHead :
    Reader.Gives (callHead levels) fun r => ∀ a ∈ r.2, a.Written := by
  refine Reader.gives_behind fun name => ?_
  have hargs : Reader.Gives (callArguments levels) fun args => ∀ a ∈ args, a.Written := by
    refine Reader.gives_behind fun atParen => ?_
    split
    · exact (Expression.writes_arguments (Expression.writes_descend _)).bind fun _ h => .pure h
    · exact .pure (by simp)
  exact hargs.bind fun args h => Reader.gives_behind fun _ => .pure h

theorem writes_macroHead :
    Reader.Gives (macroHead levels) fun r => ∀ p ∈ r.2, (Node.parameter p).Sound source := by
  have hparameter : Reader.Gives (parameter levels) fun p => (Node.parameter p).Sound source := by
    refine Reader.gives_behind fun name => Reader.gives_behind fun atAssign => ?_
    split
    · refine Reader.gives_behind fun _ => (Expression.writes_read _ _).bind fun e he => .pure ?_
      refine sound_of_parts trivial id ?_
      simpa [children] using ⟨sound_identifier name, sound_written he⟩
    · refine .pure (sound_of_parts trivial id ?_)
      simpa [children] using sound_identifier name
  refine Reader.gives_behind fun name => Reader.gives_behind fun _ => ?_
  exact (Reader.gives_items hparameter).bind fun _ h => Reader.gives_behind fun _ => .pure h

/-- Behind a comma there is one more name at least. -/
theorem lands_unpack (c : Cursor) : Reader.Lands pattern c fun p _ =>
    ∀ names span, p = .unpack names span → 2 ≤ names.length := by
  refine Reader.Lands.variableName.bind fun first d _ => ?_
  refine Reader.Lands.atSymbol_bind (fun e he => ?_) fun _ => Reader.Lands.pure ?_
  · refine Reader.Lands.bind (G := fun r _ => 2 ≤ r.1.length) (Reader.Lands.loop descends_nextName
      (I := fun r d => 2 ≤ r.1.length ∨ r.1.length = 1 ∧ ∃ e, d.ReadsSymbol .comma e)
      (fun r d hr => ?_) (.inr ⟨rfl, e, he⟩)) fun r _ hr => Reader.Lands.pure ?_
    · obtain ⟨names, span⟩ := r
      refine Reader.Lands.atSymbol_bind (fun e he => ?_) fun hno => Reader.Lands.pure ?_
      · refine Reader.Lands.skip he (Reader.Lands.variableName.bind fun name _ _ =>
          Reader.Lands.pure (.inl ?_))
        have hlen : 1 ≤ names.length := by
          rcases hr with hr | ⟨hr, -⟩
          · exact Nat.le_of_succ_le hr
          · exact Nat.le_of_eq hr.symm
        simpa using hlen
      · rcases hr with hr | ⟨-, e, he⟩
        · exact hr
        · exact absurd he (hno e)
    · intro names span hp
      cases hp
      exact hr
  · intro names span hp
    cases hp

/-- If the value of a placeable is a filter, it stands in parentheses. -/
theorem lands_put (c : Cursor) : Reader.Lands (placeable levels opening) c fun s _ =>
    ∀ value filters span, s = .put value filters span → value.InParens c := by
  refine (Expression.inParens_operation Expression.stopsAt_placeable c).bind fun value d hv => ?_
  refine (Reader.lands_filters d).bind fun filters e _ => ?_
  refine (Reader.Lands.expectSymbol .endPut).bind fun close f _ => Reader.Lands.pure ?_
  intro value' filters' span hs
  cases hs
  exact hv

/-- The value of a placeable begins somewhere in the source. -/
theorem starts_put : Ensures (Reader.Placed source) (placeable levels opening)
    (fun s _ => ∀ value filters span, s = .put value filters span → value.span.start.IsOf source)
    fun _ _ => True := by
  have hread : Reader.Places source
      (Expression.read levels [Symbol.bar.spelling, Symbol.endPut.spelling]) :=
    Expression.places_read _ _
  refine (hread.mono (fun _ h => h) (fun _ _ h => h) fun _ _ _ => trivial).bind fun value => ?_
  refine Ensures.given fun hvalue => ?_
  refine Ensures.mono (P := fun _ => True)
    (Reader.gives_behind fun filters => Reader.gives_behind fun close => .pure ?_)
    (fun _ _ => trivial) (fun _ _ h => h.1) fun _ _ h => h
  intro value' filters' span hs
  cases hs
  exact (Expression.everywhere_span hvalue).1

/-- A reader that has looked at no token gives values as stated. -/
def Fresh {α : Type} (m : ReadM α) (Q : α → Prop) : Prop :=
  Ensures (fun r : Reader => r.peeked = none) m (fun a _ => Q a) fun _ _ => True

theorem fresh_of_gives {α : Type} {m : ReadM α} {Q : α → Prop} (h : Reader.Gives m Q) :
    Fresh m Q := Ensures.mono h (fun _ _ => trivial) (fun _ _ ha => ha.1) fun _ _ h => h

theorem fresh_of_lands {α : Type} {m : ReadM α} {Q : α → Prop}
    (h : ∀ c, Reader.Lands m c fun a _ => Q a) : Fresh m Q := by
  intro r hr
  have hm := h r.cursor r (.inl ⟨hr, rfl⟩)
  cases hrun : m r with
  | error f t => trivial
  | ok a t =>
    rw [hrun] at hm
    obtain ⟨d, -, ha⟩ := hm
    exact ha

theorem Fresh.bind {α β : Type} {m : ReadM α} {f : α → ReadM β} {Q : α → Prop} {R : β → Prop}
    (hm : Fresh m Q) (hf : ∀ a, Q a → Reader.Gives (f a) R) : Fresh (m >>= f) R :=
  Ensures.bind hm fun a r ha => Ensures.after (hf a ha) (fun _ _ hb => hb.1) r trivial

theorem fresh_pattern (source : String) : Fresh pattern fun p => (Node.pattern p).Sound source := by
  refine (fresh_of_lands lands_unpack).after fun p _ hp => ?_
  cases p with
  | single v => exact sound_of_parts trivial id (by simp [children])
  | unpack names span =>
    refine sound_of_parts (hp names span rfl) id fun c hc => ?_
    obtain ⟨v, -, rfl⟩ := List.mem_map.mp hc
    exact sound_name v

theorem fresh_loopHead : Fresh (loopHead levels) fun x =>
    (Node.pattern x.1).Sound source ∧ x.2.1.Written ∧ ∀ e ∈ x.2.2, e.Written := by
  refine (fresh_pattern source).bind fun target htarget => Reader.gives_behind fun _ => ?_
  refine (Expression.writes_read _ _).bind fun iterable hi => ?_
  refine writes_loopCondition.bind fun condition hc => ?_
  exact Reader.gives_behind fun _ => .pure ⟨htarget, hi, hc⟩

theorem fresh_setTag : Fresh (setTag levels opening) fun s => (statement s).Sound source := by
  refine (fresh_pattern source).bind fun target htarget => Reader.gives_behind fun _ => ?_
  refine (Expression.writes_read _ _).bind fun value hv => Reader.gives_behind fun close => ?_
  refine .pure (sound_of_parts trivial id ?_)
  simpa [children] using ⟨htarget, sound_written hv⟩

/-! ## Drafts -/

/-- The draft stands in the source before no token that was looked at, and all that it holds is
sound. -/
structure Sound (source : String) (d : Draft) : Prop where
  peeked : d.reader.peeked = none
  reaches : (Cursor.ofText source).Reaches d.reader.cursor
  bodies : ∀ b ∈ d.current :: d.enclosing, (scope b).Sound source
  definitions : ∀ n ∈ d.definitions, n.Sound source

theorem sound_ofText (source : String) : (ofText source).Sound source where
  peeked := rfl
  reaches := .refl _
  bodies := by
    intro b hb
    rw [List.mem_singleton.mp hb]
    exact sound_scope rfl (by simp [ofText, Scope.opened])
  definitions := by simp [ofText, definitions, Table.empty]

theorem Sound.push {d : Draft} (hd : d.Sound source) {s : Statement}
    (h : (statement s).Sound source) :
    ({ d with current := d.current.push s } : Draft).Sound source := by
  obtain ⟨hcurrent, henclosing⟩ := List.forall_mem_cons.mp hd.bodies
  refine { hd with bodies := List.forall_mem_cons.mpr ⟨?_, henclosing⟩ }
  refine sound_scope (b := d.current.push s) hcurrent.1.here.formed ?_
  exact List.forall_mem_append.mpr ⟨hcurrent.body, by simpa using h⟩

theorem Sound.behindText {d : Draft} (hd : d.Sound source) : d.behindText.Sound source := by
  have hreaches := hd.reaches.trans d.reader.cursor.reaches_behindText
  unfold Draft.behindText
  dsimp only
  split
  · exact { hd with reaches := hreaches }
  · next hempty =>
    have hne : textRun d.reader.cursor.rest ≠ [] := by
      intro hnil
      rw [hnil] at hempty
      exact hempty rfl
    have hrun : (statement (.text (String.ofList (textRun d.reader.cursor.rest))
        ⟨d.reader.cursor.position, d.reader.cursor.behindText.position⟩)).Sound source :=
      sound_of_parts ⟨_, hd.reaches, hne, rfl, rfl⟩ id (by simp [children])
    exact { hd.push hrun with reaches := hreaches }

/-- Where the draft is sound, the computation leaves it so, and its value is as stated. -/
abbrev Forms {α : Type} (source : String) (m : DraftM α) (Q : α → Prop) : Prop :=
  TemplateSyntax.Gives (Sound source) m Q

section Steps
variable {α : Type} {Q : α → Prop}

theorem forms_lift [Traceable α] {m : ReadM α} (ht : Reader.Traces source m)
    (hs : Reader.Settles m) (hm : Fresh m Q) : Forms source (liftM m : DraftM α) Q := by
  intro d hd
  have htraced := ht d.reader ⟨hd.reaches, by simp [hd.peeked]⟩
  have hvalue := hm d.reader hd.peeked
  rw [run_lift]
  cases hr : m d.reader with
  | error f r => trivial
  | ok a r =>
    rw [hr] at htraced hvalue
    exact ⟨hvalue, { hd with peeked := hs _ _ _ hr, reaches := htraced.2.1 }⟩

/-- Readers of which only the place matters that they come to. -/
theorem forms_token [Traceable α] {m : ReadM α} (ht : Reader.Traces source m)
    (hs : Reader.Settles m) : Forms source (liftM m : DraftM α) fun _ => True :=
  forms_lift ht hs (fresh_of_gives (Reader.gives_any m))

theorem forms_endTag :
    Forms source (discard (liftM endTag : DraftM Span) : DraftM PUnit) fun _ => True :=
  (forms_token traces_endTag settles_endTag).discard

theorem forms_lastExpression :
    Forms source (liftM (lastExpression levels) : DraftM Expression) Expression.Written :=
  forms_lift traces_lastExpression settles_lastExpression (fresh_of_gives writes_lastExpression)

theorem forms_push {s : Statement} (h : (statement s).Sound source) :
    Forms source (push s) fun _ => True := fun _ hd => ⟨trivial, hd.push h⟩

theorem forms_note (e : Event) : Forms source (note e) fun _ => True :=
  fun _ hd => ⟨trivial, { hd with }⟩

theorem forms_position : Forms source position fun _ => True := fun _ hd => ⟨trivial, hd⟩

theorem forms_openBody : Forms source openBody fun _ => True := by
  intro d hd
  refine ⟨trivial, { hd with bodies := List.forall_mem_cons.mpr ⟨?_, hd.bodies⟩ }⟩
  exact sound_scope rfl (by simp [Scope.opened])

theorem sound_closed {b : Body} (h : (scope b).Sound source) (stop : Position) :
    (scope (b.closed stop)).Sound source :=
  sound_scope (b := b.closed stop) h.1.here.formed h.body

theorem forms_closeBody (stop : Position) :
    Forms source (closeBody stop) fun b => (scope b).Sound source := by
  intro d hd
  obtain ⟨hcurrent, henclosing⟩ := List.forall_mem_cons.mp hd.bodies
  rw [closeBody, run_modifyGet]
  dsimp only
  split
  · exact ⟨sound_closed hcurrent stop, hd⟩
  · next he => exact ⟨sound_closed hcurrent stop, { hd with bodies := he ▸ henclosing }⟩

theorem forms_define {x : Definition} (h : (ofDefinition x).Sound source) :
    Forms source (define x) fun _ => True := by
  intro d hd
  have hdefinitions : ∀ n ∈ (d.keep x).definitions, n.Sound source := by
    intro n hn
    rcases mem_definitions_keep hn with rfl | hn
    · exact h
    · exact hd.definitions n hn
  cases x with
  | ofMacro m => exact ⟨trivial, { hd with definitions := hdefinitions }⟩
  | ofBlock b => exact ⟨trivial, { hd with definitions := hdefinitions }⟩

theorem forms_setParent {target : Expression} (h : target.Written) :
    Forms source (setParent target) fun _ => True := by
  intro d hd
  rw [run_setParent]
  split
  · exact ⟨trivial, hd⟩
  · refine ⟨trivial, { hd with definitions := fun n hn => ?_ }⟩
    simp only [definitions, List.append_assoc] at hn
    rcases List.mem_append.mp hn with hn | hn
    · rw [List.mem_singleton.mp hn]
      exact sound_written h
    · apply hd.definitions
      rw [definitions, List.append_assoc]
      exact List.mem_append_right _ hn

end Steps

/-- Behind text stands the symbol that opens a tag or a placeable, right where the text ends. -/
theorem ensures_opened : Ensures (Sound source) Draft.opening
    (fun found d => d.Sound source ∧ ∀ l ∈ found, ∃ (s : Symbol) (c : Cursor),
      l.token = .symbol s ∧ (Cursor.ofText source).Reaches c ∧ l.span.start = c.position ∧
        c.Opens s d.reader.cursor)
    fun _ _ => True := by
  intro d hd
  have htext := hd.behindText
  rcases opening_cases hd.peeked with ⟨-, hr⟩ | ⟨s, l, r, -, ho, hr, hl, hstart, hp⟩
  · rw [hr]
    exact ⟨htext, by simp⟩
  · obtain ⟨span, hnext⟩ := ho.2
    have hreaches := htext.reaches.trans (Cursor.reaches_of_next hnext)
    rw [hr]
    refine ⟨{ htext with peeked := hp, reaches := hreaches }, fun l' hl' => ?_⟩
    obtain rfl := Option.some.inj hl'
    exact ⟨s, _, hl, htext.reaches, hstart, ho⟩

/-- A placeable behind the symbol that opens it. -/
theorem ensures_placeable {c d : Cursor} (hc : (Cursor.ofText source).Reaches c)
    (hstart : opening.start = c.position) (ho : c.Opens .beginPut d) :
    Ensures (fun t : Draft => t.Sound source ∧ t.reader.cursor = d)
      (liftM (placeable levels opening) : DraftM Statement)
      (fun s t => (statement s).Sound source ∧ t.Sound source) fun _ _ => True := by
  rintro t ⟨ht, rfl⟩
  obtain ⟨_, hnext⟩ := ho.2
  have hle : opening.start.offset ≤ t.reader.cursor.position.offset := by
    rw [hstart]
    exact (Cursor.reaches_of_next hnext).offset_le
  have hat : t.reader.At t.reader.cursor := .inl ⟨ht.peeked, rfl⟩
  have hplaced : t.reader.Placed source :=
    Reader.placed_of_reaches ht.reaches (by simp [ht.peeked, Everywhere])
  have htoken : Forms source (liftM (placeable levels opening) : DraftM Statement) fun _ => True :=
    forms_token traces_placeable settles_placeable
  have hbehind := htoken t ht
  rw [run_lift] at hbehind ⊢
  cases hr : placeable levels opening t.reader with
  | error f r => trivial
  | ok s r =>
    rw [hr] at hbehind
    have hwrites := (Ensures.ok writes_placeable trivial hr).1
    obtain ⟨value, filters, span, rfl, hvalue, hfilters⟩ := hwrites
    obtain ⟨_, -, hparens⟩ := Ensures.ok (lands_put _) hat hr
    obtain ⟨_, -, -, hmarks⟩ := Ensures.ok (Reader.lands_placeable_marks hle) hat hr
    have hput : span.start = opening.start := by simpa using hmarks
    have hbegins := Ensures.ok starts_put hplaced hr value filters span rfl
    refine ⟨sound_of_parts (fun hfilter => ?_) id ?_, hbehind.2⟩
    · obtain ⟨e, he, hinside⟩ := hparens value filters span rfl hfilter
      exact opensParen_of_reads hc (hput.trans hstart) ho he hinside hbegins
    · simp only [children, List.forall_mem_cons, List.forall_mem_map]
      exact ⟨sound_written hvalue, fun f hf => sound_written (hfilters f hf)⟩

/-! ## Tags and bodies -/

/-- A reader of bodies gives sound bodies, whatever words close them. -/
def BodyReader.Forms (source : String) (body : BodyReader) : Prop :=
  ∀ closers, Draft.Forms source (body closers) fun r => (scope r.1).Sound source

section Tags
variable {body : BodyReader}

theorem forms_nextArm (hb : body.Forms source) {x : List (Arm Statement) × Closing}
    (h : PlainArms source x.1) :
    Forms source (nextArm levels body x) (HandsOn fun y => PlainArms source y.1) := by
  obtain ⟨arms, closing⟩ := x
  unfold nextArm
  dsimp only
  split
  · refine forms_lastExpression.bind fun condition hcondition => ?_
    refine (hb _).bind fun (inner, next) hinner => ?_
    exact .pure (h.snoc (sound_arm hcondition hinner _) hcondition.not_isBoolean)
  · exact .pure h

theorem forms_ifTag (hb : body.Forms source) :
    Forms source (ifTag levels body opening) fun s => (statement s).Sound source := by
  refine forms_lastExpression.bind fun condition hcondition => ?_
  refine (hb _).bind fun (first, closing) hfirst => ?_
  have hfirst : PlainArms source
      [(⟨condition, first.body, ⟨opening.start, closing.span.stop⟩⟩ : Arm Statement)] :=
    { ne_nil := by simp
      sound := by simpa using sound_arm hcondition hfirst _
      plain := by simpa using hcondition.not_isBoolean }
  refine Gives.bind (.loop (fun _ => forms_nextArm hb) hfirst) fun (arms, closing) harms => ?_
  dsimp only
  split
  · refine forms_endTag.bind fun _ _ => (hb _).bind fun (inner, last) hinner => ?_
    exact forms_endTag.bind fun _ _ =>
      .pure (sound_cases_else harms (sound_elseArm hinner _ _ _) rfl _)
  · exact forms_endTag.bind fun _ _ => .pure (sound_cases harms _)

theorem forms_forTag (hb : body.Forms source) :
    Forms source (forTag levels body opening) fun s => (statement s).Sound source := by
  have hhead : Forms source (liftM (loopHead levels) :
      DraftM (Pattern × Expression × Option Expression)) fun x =>
        (Node.pattern x.1).Sound source ∧ x.2.1.Written ∧ ∀ e ∈ x.2.2, e.Written :=
    forms_lift traces_loopHead settles_loopHead fresh_loopHead
  refine hhead.bind fun (target, iterable, condition) ⟨htarget, hiterable, hcondition⟩ => ?_
  refine (hb _).bind fun (main, closing) hmain => ?_
  have hloop (alternative : Option (List Statement)) (span : Span)
      (h : ∀ s ∈ alternative.getD [], (statement s).Sound source) :
      (statement (.loop target iterable condition main alternative span)).Sound source := by
    refine sound_of_parts trivial id ?_
    simp only [children, List.forall_mem_cons, List.forall_mem_append, List.forall_mem_map,
      Option.mem_toList]
    exact ⟨htarget, sound_written hiterable, fun e he => sound_written (hcondition e he), hmain, h⟩
  dsimp only
  split
  · refine forms_endTag.bind fun _ _ => (hb _).bind fun (alternative, last) halternative => ?_
    exact forms_endTag.bind fun _ _ => .pure (hloop _ _ halternative.body)
  · exact forms_endTag.bind fun _ _ => .pure (hloop none _ (by simp))

theorem forms_callTag (hb : body.Forms source) :
    Forms source (callTag levels body opening) fun s => (statement s).Sound source := by
  refine (forms_lift traces_callHead settles_callHead (fresh_of_gives writes_callHead)).bind
    fun (called, args) hargs => (hb _).bind fun (inner, _) hinner => ?_
  refine forms_endTag.bind fun _ _ => .pure (sound_of_parts trivial id ?_)
  simp only [children, List.forall_mem_cons, List.forall_mem_append, List.forall_mem_map]
  exact ⟨sound_identifier called, fun a ha => sound_written (hargs a ha), hinner, by simp⟩

theorem forms_filterTag (hb : body.Forms source) :
    Forms source (filterTag levels body opening) fun s => (statement s).Sound source := by
  refine forms_lastExpression.bind fun filter hfilter => (hb _).bind fun (inner, _) hinner => ?_
  refine forms_endTag.bind fun _ _ => .pure (sound_of_parts trivial id ?_)
  simpa [children] using ⟨sound_written hfilter, hinner⟩

theorem forms_blockTag (hb : body.Forms source) :
    Forms source (blockTag body opening) fun s => (statement s).Sound source := by
  refine (forms_token traces_blockHead settles_blockHead).bind fun called _ => ?_
  refine (hb _).bind fun (inner, _) hinner => ?_
  refine (forms_token (traces_blockEnd _) (settles_blockEnd _)).bind fun close _ => ?_
  have hblock : (ofBlock ⟨called, inner, opening.combine close⟩).Sound source :=
    sound_of_parts trivial id (by simpa [children] using ⟨sound_identifier called, hinner⟩)
  refine Gives.bind (α := PUnit) (forms_define hblock) fun _ _ => ?_
  exact .pure (sound_of_parts trivial id (by simpa [children] using sound_identifier called))

theorem forms_macroTag (hb : body.Forms source) :
    Forms source (macroTag levels body opening) fun _ => True := by
  have hhead : Forms source (liftM (macroHead levels) : DraftM (Identifier × List Parameter))
      fun x => ∀ p ∈ x.2, (Node.parameter p).Sound source :=
    forms_lift traces_macroHead settles_macroHead (fresh_of_gives writes_macroHead)
  refine hhead.bind fun (called, parameters) hparameters => ?_
  refine (hb _).bind fun (inner, closing) hinner => ?_
  refine forms_endTag.bind fun _ _ => forms_define (sound_of_parts trivial id ?_)
  simp only [ofDefinition, children, List.forall_mem_cons, List.forall_mem_append,
    List.forall_mem_map]
  exact ⟨sound_identifier called, hparameters, hinner, by simp⟩

theorem forms_extendsTag : Forms source (extendsTag levels) fun _ => True := by
  refine forms_lastExpression.bind fun target htarget => ?_
  refine (forms_setParent htarget).bind fun isFirst _ => ?_
  split
  · exact .pure trivial
  · exact .throw _

theorem forms_tag (hb : body.Forms source) (name : Identifier) :
    Forms source (tag levels body opening name) fun _ => True := by
  unfold tag
  split
  · exact (forms_ifTag hb).bind fun _ h => forms_push h
  · exact (forms_forTag hb).bind fun _ h => forms_push h
  · exact (forms_lift traces_setTag settles_setTag fresh_setTag).bind fun _ h => forms_push h
  · exact (forms_callTag hb).bind fun _ h => forms_push h
  · exact (forms_filterTag hb).bind fun _ h => forms_push h
  · exact (forms_blockTag hb).bind fun _ h => forms_push h
  · exact forms_macroTag hb
  · exact forms_extendsTag
  · exact .throw _

theorem forms_piece (hb : body.Forms source) (closers : List Keyword) :
    Forms source (piece levels body closers) fun _ => True := by
  refine ensures_opened.bind fun found => ?_
  split
  · exact (Gives.pure trivial).before fun _ h => h.1
  · next l =>
    split
    · next htoken =>
      rintro d ⟨hd, hl⟩
      obtain ⟨s, c, hs, hc, hstart, ho⟩ := hl l rfl
      obtain rfl : s = .beginPut := by simpa [hs] using htoken
      refine (ensures_placeable hc hstart ho).bind (fun s => ?_) d ⟨hd, rfl⟩
      refine Ensures.given fun hput => ?_
      exact Gives.bind (α := PUnit) (forms_push hput) fun _ _ => .pure trivial
    · refine Ensures.before ?_ fun d (h : d.Sound source ∧ _) => h.1
      refine (forms_token Reader.traces_expectName .expectName).bind fun name _ => ?_
      refine Gives.bind (α := PUnit) (forms_note _) fun _ _ => ?_
      split
      · exact .pure trivial
      · exact Gives.bind (α := PUnit) (forms_tag hb name) fun _ _ => .pure trivial
    · exact (Gives.throw _).before fun _ h => h.1

theorem forms_content (hb : body.Forms source) (closers : List Keyword) :
    Forms source (content levels body closers) fun _ => True :=
  .loop (fun _ _ => (forms_piece hb closers).after fun r _ => by cases r <;> trivial) trivial

theorem forms_body (n : Nat) : (Draft.body n).Forms source := by
  induction n with
  | zero => exact fun _ => forms_position.bind fun _ _ => .throw _
  | succ n ih =>
    intro closers
    refine Gives.bind (α := PUnit) forms_openBody fun _ _ => ?_
    refine (forms_content ih closers).bind fun found _ => ?_
    split
    · exact (forms_closeBody _).bind fun _ h => .pure h
    · exact forms_position.bind fun _ _ => .throw _

end Tags

theorem forms_readAll : Forms source readAll fun _ => True :=
  (forms_content (forms_body _) []).discard

/-- The template of a sound draft is proper throughout. -/
theorem Sound.template {d : Draft} (hd : d.Sound source) :
    (Node.template d.template).Sound source := by
  refine sound_of_parts trivial id fun c hc => ?_
  rcases List.mem_cons.mp hc with rfl | hc
  · exact sound_closed (hd.bodies _ List.mem_cons_self) _
  · exact hd.definitions c hc

end Draft

/-- Every node of a template is well-formed. -/
theorem compile_wellFormed {source : String} {name : Option String} {t : Template}
    (h : compile source name = .ok t) {n : Node}
    (hn : Relation.ReflTransGen Node.HasChild (.template t) n) : n.WellFormed source := by
  obtain ⟨d, hrun, -, rfl⟩ := compile_eq_ok_iff.mp h
  have hd := (Draft.forms_readAll.ok (Draft.sound_ofText source) hrun).2
  have hproper : n.Throughout (Node.Proper source) := fun m hm => hd.template.1 m (hn.trans hm)
  exact hproper.wellFormed ((Draft.tidy_template hrun).orderly_of_within hn)

/-- A value that is a filter, and the parenthesis before it. -/
theorem compile_wellFormed_filter :
    ∃ t value span, compile "\x7b\x7b (a|b) \x7d\x7d" = .ok t ∧
      Relation.ReflTransGen Node.HasChild (.template t) (.statement (.put value [] span)) ∧
      value.IsFilter ∧ OpensParen "\x7b\x7b (a|b) \x7d\x7d" span value.span := by
  let value := Expression.filter (.name ⟨"a", ⟨⟨4, 1, 4⟩, ⟨5, 1, 5⟩⟩⟩)
    (.name ⟨"b", ⟨⟨6, 1, 6⟩, ⟨7, 1, 7⟩⟩⟩) ⟨⟨4, 1, 4⟩, ⟨7, 1, 7⟩⟩
  let put := Statement.put value [] ⟨⟨0, 1, 0⟩, ⟨11, 1, 11⟩⟩
  let body : Body := ⟨[], [put], ⟨⟨0, 1, 0⟩, ⟨11, 1, 11⟩⟩⟩
  let t : Template := ⟨none, .empty, .empty, body, body.span⟩
  have h : compile "\x7b\x7b (a|b) \x7d\x7d" = .ok t := by decide +kernel
  have hput : Relation.ReflTransGen Node.HasChild (.template t) (.statement put) := by
    refine .tail (.single (b := .scope body) ?_) ?_
    · exact List.mem_cons_self
    · exact List.mem_cons_self
  exact ⟨t, value, _, h, hput, trivial, (compile_wellFormed h hput).put _ _ _ rfl trivial⟩

end TemplateSyntax
