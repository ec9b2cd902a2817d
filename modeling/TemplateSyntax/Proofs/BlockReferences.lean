import TemplateSyntax.Proofs.FaultReports
import TemplateSyntax.Proofs.NestingDepth
import TemplateSyntax.Proofs.OpenBodies

/-!
# Calls of blocks

Where a block is written a call of it is left, and its definition goes to the table of blocks. The
two part there: the call is added to a body that may stay open for long, be lost when a body around
it is not closed, or be closed and kept in a definition itself. The definition comes first, though,
and the table loses no name, unless all of it is taken out with the template. So whatever is held at
any time, the calls in it name blocks of the table.
-/
namespace TemplateSyntax

namespace Node
variable {names more : List String} {n c : Node}

/-- The node is a name, or a part of an expression, of a pattern or of a parameter. -/
def Bodiless : Node → Prop
  | statement _ | arm _ | scope _ | ofMacro _ | ofBlock _ | template _ => False
  | name _ | identifier _ | operator _ | expression _ | pattern _ | parameter _ => True

theorem Bodiless.child (h : n.Bodiless) (hc : n.HasChild c) : c.Bodiless := by
  have hall : ∀ c ∈ n.children, c.Bodiless := by
    cases n with
    | statement _ | arm _ | scope _ | ofMacro _ | ofBlock _ | template _ => exact h.elim
    | name _ | identifier _ | operator _ => simp [children]
    | expression e => cases e <;> simp [children, Bodiless]
    | pattern p => cases p <;> simp [children, Bodiless]
    | parameter p => simp [children, Bodiless]
  exact hall c hc

/-- Every call of a block in the node names one of these. -/
def CallsOnly (names : List String) : Node → Prop :=
  Throughout fun m => ∀ called span, m = statement (.blockCall called span) → called.value ∈ names

theorem CallsOnly.widen (h : n.CallsOnly names) (hmore : names ⊆ more) : n.CallsOnly more :=
  h.mono fun _ hm called span heq => hmore (hm called span heq)

theorem callsOnly_of_bodiless (h : n.Bodiless) : n.CallsOnly names := by
  have hall : n.Throughout Bodiless := .of_inherited h fun _ _ => Bodiless.child
  refine hall.mono fun m hm called span heq => ?_
  rw [heq] at hm
  exact hm.elim

/-- Only those parts of a node matter that may have bodies. -/
theorem callsOnly_of_parts (hn : ∀ called span, n ≠ statement (.blockCall called span))
    (h : ∀ c ∈ n.children, c.Bodiless ∨ c.CallsOnly names) : n.CallsOnly names := by
  refine .of_children (fun called span heq => absurd heq (hn called span)) fun c hc => ?_
  rcases h c hc with hc | hc
  · exact callsOnly_of_bodiless hc
  · exact hc

theorem callsOnly_blockCall {called : Identifier} (h : called.value ∈ names) (span : Span) :
    (statement (.blockCall called span)).CallsOnly names := by
  refine .of_children (fun _ _ heq => ?_) fun c hc => ?_
  · cases heq
    exact h
  · rw [List.mem_singleton.mp hc]
    exact callsOnly_of_bodiless trivial

theorem callsOnly_scope {b : Body} :
    (scope b).CallsOnly names ↔ ∀ s ∈ b.body, (statement s).CallsOnly names := by
  constructor
  · intro h s hs
    exact h.child (List.mem_append_right _ (List.mem_map_of_mem hs))
  · intro h
    refine callsOnly_of_parts (by simp) fun c hc => ?_
    rcases List.mem_append.mp hc with hc | hc
    · obtain ⟨i, -, rfl⟩ := List.mem_map.mp hc
      exact .inl trivial
    · obtain ⟨s, hs, rfl⟩ := List.mem_map.mp hc
      exact .inr (h s hs)

theorem callsOnly_arm {a : Arm Statement} (h : ∀ s ∈ a.body, (statement s).CallsOnly names) :
    (arm a).CallsOnly names := by
  refine callsOnly_of_parts (by simp) fun c hc => ?_
  rcases List.mem_cons.mp hc with rfl | hc
  · exact .inl trivial
  · obtain ⟨s, hs, rfl⟩ := List.mem_map.mp hc
    exact .inr (h s hs)

theorem callsOnly_cases {arms : List (Arm Statement)} (h : ∀ a ∈ arms, (arm a).CallsOnly names)
    (span : Span) : (statement (.cases arms span)).CallsOnly names :=
  callsOnly_of_parts (by simp) fun c hc => by
    obtain ⟨a, ha, rfl⟩ := List.mem_map.mp hc
    exact .inr (h a ha)

end Node

namespace Draft
open Node

/-! ## What is linked -/

/-- The calls of blocks that are held anywhere in the draft name blocks of its table, and all that
is in its tables is kept under its own name. -/
structure Linked (d : Draft) : Prop where
  bodies : ∀ b ∈ d.current :: d.enclosing, (scope b).CallsOnly d.blocks.names
  definitions : ∀ n ∈ d.definitions, n.CallsOnly d.blocks.names
  macrosNamed : ∀ e ∈ d.macros.entries, e.2.name.value = e.1
  blocksNamed : ∀ e ∈ d.blocks.entries, e.2.name.value = e.1

theorem linked_ofText (text : String) : (ofText text).Linked where
  bodies := by simp [ofText, callsOnly_scope, Scope.opened]
  definitions := by simp [ofText, definitions, Table.empty]
  macrosNamed := by simp [ofText, Table.empty]
  blocksNamed := by simp [ofText, Table.empty]

variable {d : Draft}

/-- The innermost open body may be another one. -/
theorem Linked.withCurrent (hd : d.Linked) {b : Body} (h : (scope b).CallsOnly d.blocks.names) :
    ({ d with current := b } : Draft).Linked :=
  { hd with bodies := List.forall_mem_cons.mpr ⟨h, (List.forall_mem_cons.mp hd.bodies).2⟩ }

theorem Linked.push (hd : d.Linked) {s : Statement}
    (h : (statement s).CallsOnly d.blocks.names) :
    ({ d with current := d.current.push s } : Draft).Linked := by
  apply hd.withCurrent
  have hcurrent := callsOnly_scope.mp (hd.bodies _ List.mem_cons_self)
  exact callsOnly_scope.mpr (List.forall_mem_append.mpr ⟨hcurrent, by simpa using h⟩)

theorem Linked.behindText (hd : d.Linked) : d.behindText.Linked := by
  have htext (run : String) (span : Span) :
      (statement (.text run span)).CallsOnly d.blocks.names :=
    callsOnly_of_parts (by simp) (by simp [children])
  unfold Draft.behindText
  dsimp only
  split
  · exact { hd with }
  · exact { hd.push (htext _ _) with }

theorem names_subset_keep (d : Draft) (x : Definition) :
    d.blocks.names ⊆ (d.keep x).blocks.names := by
  intro name hname
  cases x with
  | ofMacro m => exact hname
  | ofBlock b => exact Table.mem_names_insert.mpr (.inr hname)

/-- A definition may be kept if the calls in it name blocks of the table. -/
theorem Linked.keep (hd : d.Linked) {x : Definition}
    (hx : (ofDefinition x).CallsOnly d.blocks.names) : (d.keep x).Linked := by
  have hmore := d.names_subset_keep x
  have hdefinitions : ∀ n ∈ (d.keep x).definitions, n.CallsOnly (d.keep x).blocks.names := by
    intro n hn
    rcases mem_definitions_keep hn with rfl | hn
    · exact hx.widen hmore
    · exact (hd.definitions n hn).widen hmore
  cases x with
  | ofMacro m =>
    refine ⟨hd.bodies, hdefinitions, fun e he => ?_, hd.blocksNamed⟩
    rcases Table.mem_bind he with rfl | he
    · rfl
    · exact hd.macrosNamed e he
  | ofBlock b =>
    refine ⟨fun b hb => (hd.bodies b hb).widen hmore, hdefinitions, hd.macrosNamed, fun e he => ?_⟩
    rcases Table.mem_bind he with rfl | he
    · rfl
    · exact hd.blocksNamed e he

/-! ## Computations that keep drafts linked -/

/-- Where a draft is linked and has at least the known blocks, the computation leaves it so, and its
value is as stated of the blocks that there are then. With a fault the draft is left linked too. -/
def Links {α : Type} (known : List String) (m : DraftM α) (Q : List String → α → Prop) : Prop :=
  Ensures (fun d => d.Linked ∧ known ⊆ d.blocks.names) m
    (fun a d => (d.Linked ∧ known ⊆ d.blocks.names) ∧ Q d.blocks.names a) fun _ => Linked

namespace Links
variable {α β : Type} {known : List String} {Q : List String → α → Prop}
variable {R : List String → β → Prop}

theorem pure {a : α} (h : ∀ names, known ⊆ names → Q names a) : Links known (pure a) Q :=
  fun _ hd => ⟨hd, h _ hd.2⟩

theorem throw (f : Fault) : Links known (throw f : DraftM α) Q := fun _ hd => hd.1

/-- What is stated of the first value holds of the blocks that are known from then on. -/
theorem bind {m : DraftM α} {f : α → DraftM β} (hm : Links known m Q)
    (hf : ∀ more a, known ⊆ more → Q more a → Links more (f a) R) : Links known (m >>= f) R := by
  refine Ensures.bind hm fun a d hd => ?_
  obtain ⟨⟨hlinked, hknown⟩, ha⟩ := hd
  refine ((hf d.blocks.names a hknown ha).after fun b t ht => ?_) d ⟨hlinked, List.Subset.refl _⟩
  obtain ⟨⟨htlinked, htknown⟩, hb⟩ := ht
  exact ⟨⟨htlinked, List.Subset.trans hknown htknown⟩, hb⟩

theorem discard {m : DraftM α} (hm : Links known m Q) :
    Links known (discard m : DraftM PUnit) fun _ _ => True :=
  hm.bind fun _ _ _ _ => pure fun _ _ => trivial

theorem loop {step : β → DraftM (ForInStep β)}
    (h : ∀ more b, known ⊆ more → R more b → Links more (step b) fun names => HandsOn (R names))
    {b : β} (hb : ∀ names, known ⊆ names → R names b) :
    Links known (loop Draft.size step b) R := by
  refine (Ensures.loop_weak
    (I := fun b (d : Draft) => (d.Linked ∧ known ⊆ d.blocks.names) ∧ R d.blocks.names b)
    (fun b d hd => ?_) b).before fun d hd => ⟨hd, hb _ hd.2⟩
  obtain ⟨⟨hlinked, hknown⟩, hb⟩ := hd
  refine ((h d.blocks.names b hknown hb).after fun r t ht => ?_) d ⟨hlinked, List.Subset.refl _⟩
  obtain ⟨⟨htlinked, htknown⟩, hr⟩ := ht
  cases r <;> exact ⟨⟨htlinked, List.Subset.trans hknown htknown⟩, hr⟩

theorem lift {m : ReadM α} {P : α → Prop} (h : Reader.Gives m P) :
    Links known (liftM m : DraftM α) fun _ => P := by
  intro d hd
  have hm := h d.reader trivial
  rw [run_lift]
  cases hr : m d.reader with
  | ok a r =>
    rw [hr] at hm
    exact ⟨⟨{ hd.1 with }, hd.2⟩, hm.1⟩
  | error f r => exact { hd.1 with }

theorem token (m : ReadM α) : Links known (liftM m : DraftM α) fun _ _ => True :=
  lift (Reader.gives_any m)

end Links

section Steps
variable {known : List String}

theorem links_note (e : Event) : Links known (note e) fun _ _ => True :=
  fun _ hd => ⟨⟨{ hd.1 with }, hd.2⟩, trivial⟩

theorem links_position : Links known position fun _ _ => True :=
  fun _ hd => ⟨hd, trivial⟩

theorem links_push {s : Statement} (h : (statement s).CallsOnly known) :
    Links known (push s) fun _ _ => True :=
  fun _ hd => ⟨⟨hd.1.push (h.widen hd.2), hd.2⟩, trivial⟩

theorem links_opening : Links known opening fun _ _ => True := by
  intro d hd
  have hnames : d.behindText.blocks = d.blocks := rfl
  rw [run_opening]
  split
  · exact ⟨⟨hd.1.behindText, hnames ▸ hd.2⟩, trivial⟩
  · cases Reader.next d.behindText.reader with
    | ok l r => exact ⟨⟨{ hd.1.behindText with }, hd.2⟩, trivial⟩
    | error f r => exact { hd.1.behindText with }

theorem links_openBody : Links known openBody fun _ _ => True := by
  intro d hd
  refine ⟨⟨{ hd.1 with bodies := List.forall_mem_cons.mpr ⟨?_, hd.1.bodies⟩ }, hd.2⟩, trivial⟩
  exact callsOnly_scope.mpr (by simp [Scope.opened])

theorem links_closeBody (stop : Position) :
    Links known (closeBody stop) fun names b => (scope b).CallsOnly names := by
  intro d hd
  obtain ⟨hcurrent, henclosing⟩ := List.forall_mem_cons.mp hd.1.bodies
  have hclosed : (scope (d.current.closed stop)).CallsOnly d.blocks.names := by
    apply callsOnly_scope.mpr
    change ∀ s ∈ d.current.body, _
    exact callsOnly_scope.mp hcurrent
  rw [closeBody, run_modifyGet]
  dsimp only
  split
  · exact ⟨hd, hclosed⟩
  · next he => exact ⟨⟨{ hd.1 with bodies := he ▸ henclosing }, hd.2⟩, hclosed⟩

/-- What is kept is among the names from then on, if it is a block. -/
theorem links_define {x : Definition} (hx : (ofDefinition x).CallsOnly known) :
    Links known (define x) fun names _ => ∀ b, x = .ofBlock b → b.name.value ∈ names := by
  intro d hd
  have hlinked : (d.keep x).Linked := hd.1.keep (hx.widen hd.2)
  have hknown := List.Subset.trans hd.2 (d.names_subset_keep x)
  cases x with
  | ofMacro m => exact ⟨⟨{ hlinked with }, hknown⟩, fun b hb => nomatch hb⟩
  | ofBlock b =>
    refine ⟨⟨{ hlinked with }, hknown⟩, fun b' hb => ?_⟩
    cases hb
    exact Table.mem_names_insert.mpr (.inl rfl)

theorem links_setParent (target : Expression) :
    Links known (setParent target) fun _ _ => True := by
  intro d hd
  rw [run_setParent]
  split
  · exact ⟨hd, trivial⟩
  · refine ⟨⟨{ hd.1 with definitions := fun n hn => ?_ }, hd.2⟩, trivial⟩
    simp only [definitions, List.append_assoc] at hn
    rcases List.mem_append.mp hn with hn | hn
    · rw [List.mem_singleton.mp hn]
      exact callsOnly_of_bodiless trivial
    · apply hd.1.definitions
      rw [definitions, List.append_assoc]
      exact List.mem_append_right _ hn

end Steps

/-! ## Tags and bodies -/

section Tags
variable {known : List String} {levels : Nat} {body : BodyReader} {opening : Span}

/-- A reader whose bodies call only blocks that are in the table by then. -/
def BodyReader.Links (body : BodyReader) : Prop :=
  ∀ known closers,
    Draft.Links known (body closers) fun names r => (scope r.1).CallsOnly names

theorem links_endTag : Links known (do discard (liftM endTag : DraftM Span)) fun _ _ => True :=
  (Links.token _).discard

theorem links_placeable : Links known (liftM (placeable levels opening) : DraftM Statement)
    fun names s => (statement s).CallsOnly names := by
  have hput : Reader.Gives (placeable levels opening)
      fun s => ∀ names, (statement s).CallsOnly names := by
    refine Reader.gives_behind fun value => Reader.gives_behind fun filters => ?_
    refine Reader.gives_behind fun close => .pure fun names => ?_
    exact callsOnly_of_parts (by simp) (by simp [children, Bodiless])
  exact (Links.lift hput).mono (fun _ h => h) (fun _ _ h => ⟨h.1, h.2 _⟩) fun _ _ h => h

theorem links_setTag : Links known (liftM (setTag levels opening) : DraftM Statement)
    fun names s => (statement s).CallsOnly names := by
  have hassign : Reader.Gives (setTag levels opening)
      fun s => ∀ names, (statement s).CallsOnly names := by
    refine Reader.gives_behind fun target => Reader.gives_behind fun _ => ?_
    refine Reader.gives_behind fun value => Reader.gives_behind fun close => ?_
    refine .pure fun names => ?_
    exact callsOnly_of_parts (by simp) (by simp [children, Bodiless])
  exact (Links.lift hassign).mono (fun _ h => h) (fun _ _ h => ⟨h.1, h.2 _⟩) fun _ _ h => h

theorem links_nextArm (hb : body.Links) {r : List (Arm Statement) × Closing}
    (h : ∀ a ∈ r.1, (arm a).CallsOnly known) :
    Links known (nextArm levels body r)
      fun names => HandsOn fun r => ∀ a ∈ r.1, (arm a).CallsOnly names := by
  obtain ⟨arms, closing⟩ := r
  have hmore (more : List String) (hknown : known ⊆ more) : ∀ a ∈ arms, (arm a).CallsOnly more :=
    fun a ha => (h a ha).widen hknown
  unfold nextArm
  dsimp only
  split
  · refine (Links.token _).bind fun _ condition hcondition _ => ?_
    refine (hb _ _).bind fun _ (b, next) hbody hb => .pure fun names hnames => ?_
    have harms := hmore names (List.Subset.trans hcondition (List.Subset.trans hbody hnames))
    have hlast : ∀ s ∈ b.body, (statement s).CallsOnly names :=
      fun s hs => (callsOnly_scope.mp hb s hs).widen hnames
    exact List.forall_mem_append.mpr ⟨harms, by simpa using callsOnly_arm hlast⟩
  · exact .pure hmore

theorem links_ifTag (hb : body.Links) : Links known (ifTag levels body opening)
    fun names s => (statement s).CallsOnly names := by
  refine (Links.token _).bind fun _ condition _ _ => ?_
  refine (hb _ _).bind fun _ (first, closing) _ hfirst => ?_
  refine Links.bind (.loop (fun _ _ _ => links_nextArm hb) fun names hnames => ?_)
    fun _ (arms, closing) _ harms => ?_
  · simpa using callsOnly_arm fun s hs => (callsOnly_scope.mp hfirst s hs).widen hnames
  · dsimp only
    split
    · refine links_endTag.bind fun _ _ helse _ => (hb _ _).bind fun _ (b, last) hbody hlast => ?_
      refine links_endTag.bind fun _ _ hend _ => .pure fun names hnames => ?_
      refine callsOnly_cases (List.forall_mem_append.mpr ⟨fun a ha => ?_, ?_⟩) _
      · have hknown := List.Subset.trans helse (List.Subset.trans hbody hend)
        exact (harms a ha).widen (List.Subset.trans hknown hnames)
      · have hknown := List.Subset.trans hend hnames
        simpa using callsOnly_arm fun s hs => (callsOnly_scope.mp hlast s hs).widen hknown
    · refine links_endTag.bind fun _ _ hend _ => .pure fun names hnames => ?_
      exact callsOnly_cases (fun a ha => (harms a ha).widen (List.Subset.trans hend hnames)) _

theorem callsOnly_loop {target : Pattern} {iterable : Expression} {condition : Option Expression}
    {main : Body} {alternative : Option (List Statement)} (hmain : (scope main).CallsOnly known)
    (ha : ∀ s ∈ alternative.getD [], (statement s).CallsOnly known) (span : Span) :
    (statement (.loop target iterable condition main alternative span)).CallsOnly known := by
  refine callsOnly_of_parts (by simp) fun c hc => ?_
  simp only [children, List.mem_cons, List.mem_append, List.mem_map] at hc
  rcases hc with rfl | rfl | ⟨e, -, rfl⟩ | rfl | ⟨s, hs, rfl⟩
  · exact .inl trivial
  · exact .inl trivial
  · exact .inl trivial
  · exact .inr hmain
  · exact .inr (ha s hs)

theorem links_forTag (hb : body.Links) : Links known (forTag levels body opening)
    fun names s => (statement s).CallsOnly names := by
  refine (Links.token _).bind fun _ (target, iterable, condition) _ _ => ?_
  refine (hb _ _).bind fun _ (main, closing) _ hmain => ?_
  dsimp only
  split
  · refine links_endTag.bind fun _ _ helse _ => (hb _ _).bind fun _ (b, last) hbody hlast => ?_
    refine links_endTag.bind fun _ _ hend _ => .pure fun names hnames => ?_
    have hknown := List.Subset.trans helse (List.Subset.trans hbody hend)
    refine callsOnly_loop (hmain.widen (List.Subset.trans hknown hnames)) (fun s hs => ?_) _
    exact (callsOnly_scope.mp hlast s hs).widen (List.Subset.trans hend hnames)
  · refine links_endTag.bind fun _ _ hend _ => .pure fun names hnames => ?_
    exact callsOnly_loop (hmain.widen (List.Subset.trans hend hnames)) (by simp) _

theorem links_callTag (hb : body.Links) : Links known (callTag levels body opening)
    fun names s => (statement s).CallsOnly names := by
  refine (Links.token _).bind fun _ (called, args) _ _ => ?_
  refine (hb _ _).bind fun _ (b, closing) _ hbody => ?_
  refine links_endTag.bind fun _ _ hend _ => .pure fun names hnames => ?_
  refine callsOnly_of_parts (by simp) fun c hc => ?_
  simp only [children, List.mem_cons, List.mem_append, List.mem_map, List.not_mem_nil,
    or_false] at hc
  rcases hc with rfl | ⟨e, -, rfl⟩ | rfl
  · exact .inl trivial
  · exact .inl trivial
  · exact .inr (hbody.widen (List.Subset.trans hend hnames))

theorem links_filterTag (hb : body.Links) : Links known (filterTag levels body opening)
    fun names s => (statement s).CallsOnly names := by
  refine (Links.token _).bind fun _ filter _ _ => ?_
  refine (hb _ _).bind fun _ (b, closing) _ hbody => ?_
  refine links_endTag.bind fun _ _ hend _ => .pure fun names hnames => ?_
  refine callsOnly_of_parts (by simp) ?_
  simpa [children, Bodiless] using hbody.widen (List.Subset.trans hend hnames)

/-- The definition is kept before the call is given, so the call names what is in the table. -/
theorem links_blockTag (hb : body.Links) : Links known (blockTag body opening)
    fun names s => (statement s).CallsOnly names := by
  refine (Links.token _).bind fun _ defined _ _ => (hb _ _).bind fun _ (b, _) _ hbody => ?_
  refine (Links.token _).bind fun _ close hclose _ => ?_
  refine (links_define ?_).bind fun _ _ _ hdefined => .pure fun names hnames => ?_
  · refine callsOnly_of_parts (by simp [ofDefinition]) ?_
    simpa [ofDefinition, children, Bodiless] using hbody.widen hclose
  · exact callsOnly_blockCall (hnames (hdefined _ rfl)) _

theorem links_macroTag (hb : body.Links) : Links known (macroTag levels body opening)
    fun _ _ => True := by
  refine (Links.token _).bind fun _ (defined, parameters) _ _ => ?_
  refine (hb _ _).bind fun _ (b, closing) _ hbody => ?_
  refine links_endTag.bind fun _ _ hend _ => ?_
  refine (links_define ?_).mono (fun _ h => h) (fun _ _ h => ⟨h.1, trivial⟩) fun _ _ h => h
  refine callsOnly_of_parts (by simp [ofDefinition]) fun c hc => ?_
  simp only [ofDefinition, children, List.mem_cons, List.mem_append, List.mem_map,
    List.not_mem_nil, or_false] at hc
  rcases hc with rfl | ⟨p, -, rfl⟩ | rfl
  · exact .inl trivial
  · exact .inl trivial
  · exact .inr (hbody.widen hend)

theorem links_extendsTag : Links known (extendsTag levels) fun _ _ => True := by
  refine (Links.token _).bind fun _ target _ _ => ?_
  refine (links_setParent target).bind fun _ isFirst _ _ => ?_
  split
  · exact .pure fun _ _ => trivial
  · exact .throw _

theorem links_tag (hb : body.Links) (name : Identifier) :
    Links known (tag levels body opening name) fun _ _ => True := by
  unfold tag
  split
  · exact (links_ifTag hb).bind fun _ _ _ h => links_push h
  · exact (links_forTag hb).bind fun _ _ _ h => links_push h
  · exact links_setTag.bind fun _ _ _ h => links_push h
  · exact (links_callTag hb).bind fun _ _ _ h => links_push h
  · exact (links_filterTag hb).bind fun _ _ _ h => links_push h
  · exact (links_blockTag hb).bind fun _ _ _ h => links_push h
  · exact links_macroTag hb
  · exact links_extendsTag
  · exact .throw _

theorem links_piece (hb : body.Links) (closers : List Keyword) :
    Links known (piece levels body closers) fun _ _ => True := by
  refine links_opening.bind fun _ found _ _ => ?_
  split
  · exact .pure fun _ _ => trivial
  · split
    · refine links_placeable.bind fun _ s _ hs => (links_push hs).bind fun _ _ _ _ => ?_
      exact .pure fun _ _ => trivial
    · refine (Links.token _).bind fun _ name _ _ => (links_note _).bind fun _ _ _ _ => ?_
      split
      · exact .pure fun _ _ => trivial
      · exact (links_tag hb name).bind fun _ _ _ _ => .pure fun _ _ => trivial
    · exact .throw _

theorem links_content (hb : body.Links) (closers : List Keyword) :
    Links known (content levels body closers) fun _ _ => True := by
  refine Links.loop (R := fun _ _ => True) (fun _ _ _ _ => ?_) fun _ _ => trivial
  refine (links_piece hb closers).mono (fun _ h => h) (fun r _ h => ⟨h.1, ?_⟩) fun _ _ h => h
  cases r <;> trivial

theorem links_body (levels : Nat) : (Draft.body levels).Links := by
  induction levels with
  | zero => exact fun known closers => links_position.bind fun _ _ _ _ => .throw _
  | succ n ih =>
    intro known closers
    refine links_openBody.bind fun _ _ _ _ => (links_content ih closers).bind fun _ found _ _ => ?_
    split
    · refine (links_closeBody _).bind fun _ b _ hb => .pure fun names hnames => ?_
      exact hb.widen hnames
    · exact links_position.bind fun _ _ _ _ => .throw _

theorem links_readAll : Links known readAll fun _ _ => True :=
  (links_content (links_body depthLimit) []).discard

end Tags

/-- What is taken out of a linked draft calls only blocks that it has itself. -/
theorem Linked.template {d : Draft} (hd : d.Linked) :
    (Node.template d.template).CallsOnly d.template.blocks.names := by
  refine callsOnly_of_parts (by simp) fun c hc => .inr ?_
  rcases List.mem_cons.mp hc with rfl | hc
  · apply callsOnly_scope.mpr
    change ∀ s ∈ d.current.body, _
    exact callsOnly_scope.mp (hd.bodies _ List.mem_cons_self)
  · exact hd.definitions c hc

end Draft

/-! ## Sessions -/

namespace Session
variable {s : Session}

theorem process_linked (hs : s.draft.Linked) : s.process.2.draft.Linked := by
  have hreads : Draft.Links [] Draft.readAll fun _ _ => True := Draft.links_readAll
  have h := hreads s.draft ⟨hs, List.nil_subset _⟩
  cases hr : Draft.readAll s.draft with
  | ok u d =>
    rw [hr] at h
    rw [process_of_ok hr]
    exact h.1.1
  | error f d =>
    rw [hr] at h
    have hd : d.Linked := h
    rw [process_of_error hr]
    exact { hd with }

/-- When a template is taken out, it is taken out of what has been read. -/
theorem template_of_generate {template : Template} (h : s.generate.1 = .ok template) :
    template = s.process.2.draft.template := by
  unfold generate at h
  split at h
  · cases h
  · next t hp =>
    rw [hp]
    dsimp only at h
    split at h
    · cases h
      rfl
    · cases h

theorem call_linked (hs : s.draft.Linked) (c : Call) : (s.call c).2.draft.Linked := by
  have hlift {α : Type} (m : ReadM α) : (s.run (liftM m)).2.draft.Linked := by
    unfold run
    rw [run_lift]
    cases m s.draft.reader <;> exact { hs with }
  cases c with
  | process => exact process_linked hs
  | generate =>
    change s.generate.2.draft.Linked
    have hprocess := process_linked hs
    rw [generate]
    rcases hp : s.process with ⟨_ | _, t⟩ <;> rw [hp] at hprocess
    · exact hprocess
    · dsimp only
      split
      · next he =>
        have hnil : t.draft.enclosing = [] := List.isEmpty_iff.mp he
        refine ⟨?_, by simp [Draft.definitions, Table.empty], by simp [Table.empty],
          by simp [Table.empty]⟩
        simp [hnil, Node.callsOnly_scope, Scope.opened]
      · exact hprocess
  | expression stops => exact hlift _
  | next => exact hlift _
  | withName name => exact { hs with }

theorem after_linked (hs : s.draft.Linked) (calls : List Call) : (s.after calls).draft.Linked := by
  induction calls generalizing s with
  | nil => exact hs
  | cons c calls ih => exact ih (call_linked hs c)

end Session

/-- Whatever is called in a session, and whether the calls succeed or fail: each call of a block
that is found anywhere in an open body or in a definition names a block of the table. And a template
that is taken out calls only blocks of its own table, and keeps every macro and every block under
its own name. -/
theorem Session.block_calls_named (text : String) (name : Option String) (calls : List Call) :
    let s := (start text name).after calls
    (∀ b ∈ s.stack, (Node.scope b).CallsOnly s.blocks.names) ∧
    (∀ e ∈ s.macros.entries, (Node.ofMacro e.2).CallsOnly s.blocks.names) ∧
    (∀ e ∈ s.blocks.entries, (Node.ofBlock e.2).CallsOnly s.blocks.names) ∧
    ∀ template, s.generate.1 = .ok template →
      (Node.template template).CallsOnly template.blocks.names ∧
      (∀ e ∈ template.macros.entries, e.2.name.value = e.1) ∧
      ∀ e ∈ template.blocks.entries, e.2.name.value = e.1 := by
  intro s
  have hs : s.draft.Linked := after_linked (Draft.linked_ofText text) calls
  refine ⟨fun b hb => ?_, fun e he => ?_, fun e he => ?_, fun template h => ?_⟩
  · apply hs.bodies
    simpa [stack, Draft.stack, or_comm] using hb
  · apply hs.definitions
    exact List.mem_append_right _ (List.mem_map_of_mem he)
  · apply hs.definitions
    exact List.mem_append_left _ (List.mem_append_right _ (List.mem_map_of_mem he))
  · have ht : s.process.2.draft.Linked := process_linked hs
    rw [template_of_generate h]
    exact ⟨ht.template, ht.macrosNamed, ht.blocksNamed⟩

/-- A block is not closed, but the one in it is, and there is a fault behind that. The call of the
inner block stands in the open body of the outer one, which is in no table. -/
theorem Session.block_calls_named_fault :
    let text := "\x7b% block a %\x7d\x7b% block b %\x7d\x7b% endblock %\x7d\x7b% if %\x7d"
    let s := (start text).after [.process]
    ∃ b ∈ s.stack, ∃ called span, b.body = [.blockCall called span] ∧
      called.value ∈ s.blocks.names ∧ s.blocks.names = ["b"] := by
  intro text s
  have hstack : s.stack = [⟨[], [], .empty .start⟩,
      ⟨[], [.blockCall ⟨"b", .inFirstLine 22, .inFirstLine 23⟩
        ⟨.inFirstLine 13, .inFirstLine 40⟩], .empty (.inFirstLine 13)⟩] := by decide +kernel
  have hnames : s.blocks.names = ["b"] := by decide +kernel
  have houter : (⟨[], [.blockCall ⟨"b", .inFirstLine 22, .inFirstLine 23⟩
      ⟨.inFirstLine 13, .inFirstLine 40⟩], .empty (.inFirstLine 13)⟩ : Body) ∈ s.stack := by
    rw [hstack]
    exact List.mem_cons_of_mem _ List.mem_cons_self
  have hcalls := (block_calls_named text none [.process]).1 _ houter
  refine ⟨_, houter, _, _, rfl, ?_, hnames⟩
  exact (Node.callsOnly_scope.mp hcalls _ List.mem_cons_self).here _ _ rfl

end TemplateSyntax
