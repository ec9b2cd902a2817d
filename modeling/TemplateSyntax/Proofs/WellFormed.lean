import TemplateSyntax.Proofs.FaultReports
import TemplateSyntax.Proofs.Landing
import TemplateSyntax.Proofs.Nodes
import TemplateSyntax.Proofs.Spelling
import TemplateSyntax.Proofs.WrittenExpressions

/-!
# Well-formed templates

Trees can be built that no source is read to, such as a text of no characters or a conditional
without arms. Whoever walks a template may rely on never meeting them: each reader gives only nodes
of the right shape, and puts only such nodes into the draft. That two texts are never side by side
in the source follows from what a text is: it goes on to where something opens, and no text begins
there.
-/
namespace TemplateSyntax

/-! ## Texts -/

/-- Nothing opens in a text before its end. -/
theorem not_infix_textRun {s : Symbol} (hs : s.Opens) (cs : List Char) :
    ¬ s.spelling.toList <:+: textRun cs := by
  induction cs with
  | nil =>
    intro h
    exact s.spelling_ne_nil (List.eq_nil_of_infix_nil h)
  | cons c cs ih =>
    have hrun : textRun (c :: cs) <+: c :: cs := prefix_textRun _
    unfold textRun at hrun ⊢
    split
    · intro h
      exact s.spelling_ne_nil (List.eq_nil_of_infix_nil h)
    · next hopens =>
      rw [if_neg hopens] at hrun
      rw [List.infix_cons_iff]
      rintro (h | h)
      · apply hopens
        have hprefix := List.isPrefixOf_iff_prefix.mpr (h.trans hrun)
        rcases hs with rfl | rfl <;> simp [opensTag, hprefix]
      · exact ih h

namespace Cursor
variable {text : String} {c d : Cursor}

/-- Two places of a text that are as far from its beginning are one place. -/
theorem Reaches.eq_of_offset (hc : (ofText text).Reaches c) (hd : (ofText text).Reaches d)
    (h : c.position.offset = d.position.offset) : c = d := by
  obtain ⟨xs, hx, hp⟩ := hc
  obtain ⟨ys, hy, hq⟩ := hd
  have hsplit : xs ++ c.rest = ys ++ d.rest := hx.symm.trans hy
  have hlen : String.utf8Len xs = String.utf8Len ys := by
    rw [hp, hq, Position.offset_advanceBy, Position.offset_advanceBy] at h
    omega
  obtain ⟨zs, rfl⟩ : xs <+: ys :=
    Text.prefix_of_utf8Len_le ⟨c.rest, hsplit⟩ (List.prefix_append _ _) (Nat.le_of_eq hlen)
  have hnil : zs = [] := by
    rw [String.utf8Len_append] at hlen
    exact String.utf8Len_eq_zero.mp (by omega)
  rw [hnil, List.append_nil] at hsplit hq
  cases c
  cases d
  exact congr (congrArg Cursor.mk (hp.trans hq.symm)) (List.append_cancel_left hsplit)

/-- Whatever place of the text is not before a cursor can be reached from there. -/
theorem Reaches.exists_reaches {p : Position} (hd : (ofText text).Reaches d) (hp : p.IsOf text)
    (hle : d.position.offset ≤ p.offset) : ∃ rest, d.Reaches ⟨p, rest⟩ := by
  obtain ⟨cs, before, after, htext, hspan⟩ := hd.isOf.cutsOut hp hle
  obtain ⟨hstart, hstop⟩ := Span.mk.inj hspan
  have hcut : (ofText text).Reaches ⟨d.position, cs ++ after⟩ :=
    ⟨before, by rw [← List.append_assoc]; exact htext, hstart⟩
  refine ⟨after, cs, congrArg Cursor.rest (hd.eq_of_offset hcut rfl), ?_⟩
  rw [hstop, Position.advanceBy_append, ← hstart]

/-- What has been taken on the way to a place is the beginning of what is taken on the way to any
later one. -/
theorem prefix_of_offset_le {taken cs rest rest' : List Char} (h : c.rest = taken ++ rest)
    (h' : c.rest = cs ++ rest')
    (hle : (c.position.advanceBy taken).offset ≤ (c.position.advanceBy cs).offset) :
    taken <+: cs := by
  rw [Position.offset_advanceBy, Position.offset_advanceBy] at hle
  exact Text.prefix_of_utf8Len_le ⟨rest, h.symm.trans h'⟩ (List.prefix_append _ _) (by omega)

/-- A symbol that opens something is taken whole. -/
theorem Opens.offset_eq {s : Symbol} (hs : s.Opens) (h : c.Opens s d) :
    d.position.offset = c.position.offset + s.spelling.utf8ByteSize := by
  obtain ⟨span, hn⟩ := h.2
  obtain ⟨taken, htaken, hposition⟩ := reaches_of_next hn
  have hspelling : taken = s.spelling.toList := by
    have hopens := h.rest_eq hs
    rw [htaken] at hopens
    exact List.append_cancel_right hopens
  rw [hposition, Position.offset_advanceBy, hspelling, String.utf8Len_toList]

end Cursor

/-- A text that goes from a place in the source to where something opens, or to the end. -/
def IsRun (source run : String) (span : Span) : Prop :=
  ∃ c : Cursor, (Cursor.ofText source).Reaches c ∧ textRun c.rest ≠ [] ∧
    run = String.ofList (textRun c.rest) ∧ span = ⟨c.position, c.behindText.position⟩

namespace IsRun
variable {source run run' : String} {span span' : Span}

theorem ne_empty (h : IsRun source run span) : run ≠ "" := by
  obtain ⟨c, -, hne, rfl, -⟩ := h
  intro hempty
  apply hne
  rw [← String.toList_ofList (l := textRun c.rest), hempty]
  rfl

theorem not_infix (h : IsRun source run span) {s : Symbol} (hs : s.Opens) :
    ¬ s.spelling.toList <:+: run.toList := by
  obtain ⟨c, -, -, rfl, -⟩ := h
  rw [String.toList_ofList]
  exact not_infix_textRun hs _

/-- No text begins where another one ends. -/
theorem lt_of_le (h : IsRun source run span) (h' : IsRun source run' span')
    (hle : span.stop.offset ≤ span'.start.offset) : span.stop.offset < span'.start.offset := by
  obtain ⟨c, hc, -, -, rfl⟩ := h
  obtain ⟨d, hd, hne, -, rfl⟩ := h'
  apply Nat.lt_of_le_of_ne hle
  intro heq
  have hsame : c.behindText = d := (hc.trans c.reaches_behindText).eq_of_offset hd heq
  rw [← hsame] at hne
  exact hne c.textRun_behindText

end IsRun

/-! ## Parentheses -/

/-- A parenthesis opens between where the placeable opens and where the value begins. -/
def OpensParen (source : String) (put value : Span) : Prop :=
  ∃ between, Text.slice? (put.start.offset + Symbol.beginPut.spelling.utf8ByteSize)
    value.start.offset source = some between ∧ '(' ∈ between.toList

section Parentheses
variable {source : String} {c d e : Cursor} {q : Position}

/-- What a parenthesis is read from contains it. -/
theorem Cursor.ReadsSymbol.mem_taken (h : d.ReadsSymbol .openParen e) :
    ∃ taken, d.rest = taken ++ e.rest ∧ e.position = d.position.advanceBy taken ∧
      '(' ∈ taken := by
  obtain ⟨span, hn⟩ := h
  obtain ⟨htoken, -, rfl⟩ := Cursor.next_eq_ok hn
  have htaken : (d.nextPiece true).taken = ['('] := Piece.takenFrom_first htoken
  obtain ⟨blanks, hblanks, hposition⟩ := d.reaches_skipBlanks
  refine ⟨blanks ++ (d.nextPiece true).taken, ?_, ?_, ?_⟩
  · rw [hblanks, d.skipBlanks_rest_eq true, List.append_assoc]
  · rw [Position.advanceBy_append, ← hposition]
    rfl
  · rw [htaken]
    exact List.mem_append_right _ List.mem_cons_self

theorem opensParen_of_reads {put value : Span} (hc : (Cursor.ofText source).Reaches c)
    (hput : put.start = c.position) (ho : c.Opens .beginPut d) (h : d.ReadsSymbol .openParen e)
    (hle : e.position.offset ≤ value.start.offset) (hvalue : value.start.IsOf source) :
    OpensParen source put value := by
  obtain ⟨taken, hrest, hposition, hmem⟩ := h.mem_taken
  have hd : (Cursor.ofText source).Reaches d := by
    obtain ⟨span, hn⟩ := ho.2
    exact hc.trans (Cursor.reaches_of_next hn)
  have hde : d.position.offset ≤ e.position.offset := by
    rw [hposition, Position.offset_advanceBy]
    exact Nat.le_add_right _ _
  obtain ⟨rest, cs, hcs, hbehind⟩ := hd.exists_reaches hvalue (Nat.le_trans hde hle)
  -- The parenthesis is read before the value begins, so it is among the characters between.
  have hprefix : taken <+: cs :=
    Cursor.prefix_of_offset_le hrest hcs (by rwa [← hposition, ← hbehind])
  refine ⟨String.ofList cs, ?_, ?_⟩
  · rw [hput, ← ho.offset_eq (.inl rfl)]
    exact hd.slice?_eq (d := ⟨value.start, rest⟩) hbehind hcs
  · rw [String.toList_ofList]
    exact hprefix.subset hmem

end Parentheses

/-! ## Nodes -/

/-- The expression is a truth value. -/
def Expression.IsBoolean : Expression → Prop
  | .boolean .. => True
  | _ => False

namespace Node

/-- The node is a truth value. -/
def IsBoolean : Node → Prop
  | expression e => e.IsBoolean
  | _ => False

/-- The statements of the body that a node has of its own. -/
def body : Node → List Statement
  | scope b => b.body
  | arm a => a.body
  | statement (.loop _ _ _ _ alternative _) => alternative.getD []
  | _ => []

/-- What is to be expected of a node in the template of a source. -/
structure WellFormed (source : String) (n : Node) : Prop where
  /-- A text is not empty, and nothing opens in it. -/
  text : ∀ run span, n = statement (.text run span) → run ≠ "" ∧
    ¬ Symbol.beginPut.spelling.toList <:+: run.toList ∧
    ¬ Symbol.beginTag.spelling.toList <:+: run.toList
  unpack : ∀ names span, n = pattern (.unpack names span) → 2 ≤ names.length
  arms : ∀ arms span, n = statement (.cases arms span) → arms ≠ []
  /-- Truth values are conditions of arms. -/
  boolean : ∀ value span, expression (.boolean value span) ∈ n.children →
    ∃ a, n = arm a ∧ a.condition = .boolean value span
  /-- An arm of a conditional with a truth value is the last of several. The value is `true`, and
  nothing is written for it where the arm begins. -/
  otherwise : ∀ before a after all value span, n = statement (.cases (before ++ a :: after) all) →
    a.condition = .boolean value span →
      before ≠ [] ∧ after = [] ∧ value = true ∧ span = .empty a.span.start
  binary : ∀ op left right span, n = expression (.binary op left right span) → op.value ≠ .not
  unary : ∀ op argument span, n = expression (.unary op argument span) →
    op.value = .subtract ∨ op.value = .not
  /-- Where the value of a placeable is a filter, a parenthesis opens before it. -/
  put : ∀ value filters span, n = statement (.put value filters span) → value.IsFilter →
    OpensParen source span value.span
  declared : ∀ b, n = scope b → b.declared = []
  /-- Texts that are neighbours in a body are apart in the source. -/
  apart : ∀ before run span run' span' after,
    n.body = before ++ .text run span :: .text run' span' :: after →
      span.stop.offset < span'.start.offset

/-- What the readers see to in each node. -/
def Formed (source : String) : Node → Prop
  | statement (.text run span) => IsRun source run span
  | statement (.put value _ span) => value.IsFilter → OpensParen source span value.span
  | statement (.cases arms _) => arms ≠ [] ∧ ∀ before a after, arms = before ++ a :: after →
    a.condition.IsBoolean →
      before ≠ [] ∧ after = [] ∧ a.condition = .boolean true (.empty a.span.start)
  | pattern (.unpack names _) => 2 ≤ names.length
  | expression (.binary op _ _ _) => op.value ≠ .not
  | expression (.unary op _ _) => op.value = .subtract ∨ op.value = .not
  | scope b => b.declared = []
  | _ => True

/-- What the readers see to in each node and its children. -/
structure Proper (source : String) (n : Node) : Prop where
  formed : n.Formed source
  boolean : ∀ c ∈ n.children, c.IsBoolean → ∃ a, n = arm a

variable {source : String} {n c : Node}

/-- The body of a node is the last of its children. -/
theorem children_eq_append_body (n : Node) :
    ∃ others, n.children = others ++ n.body.map statement := by
  cases n with
  | scope b => exact ⟨_, rfl⟩
  | arm a => exact ⟨[expression a.condition], rfl⟩
  | statement s =>
    cases s with
    | loop target iterable condition main alternative span =>
      refine ⟨pattern target :: expression iterable :: (condition.toList.map expression ++
        [scope main]), ?_⟩
      simp [children, body]
    | _ => exact ⟨_, (List.append_nil _).symm⟩
  | _ => exact ⟨_, (List.append_nil _).symm⟩

theorem pairwise_body (h : n.Orderly) :
    n.body.Pairwise fun s t => s.span.stop.offset ≤ t.span.start.offset := by
  have hall (hn : n.children.Pairwise fun a b => a.span.Before b.span) :
      n.body.Pairwise fun s t => s.span.stop.offset ≤ t.span.start.offset := by
    obtain ⟨others, hchildren⟩ := n.children_eq_append_body
    rw [hchildren] at hn
    exact List.pairwise_map.mp (List.pairwise_append.mp hn).2.1
  have hordered := h.ordered
  unfold Ordered at hordered
  split at hordered
  · exact .nil
  · exact .nil
  · exact hall hordered

theorem Throughout.isRun (h : n.Throughout (Proper source)) {run : String} {span : Span}
    (hmem : .text run span ∈ n.body) : IsRun source run span := by
  obtain ⟨others, hchildren⟩ := n.children_eq_append_body
  have hchild : statement (.text run span) ∈ n.children := by
    rw [hchildren]
    exact List.mem_append_right _ (List.mem_map_of_mem hmem)
  exact (h.child hchild).here.formed

/-- Texts that are neighbours are apart: they are in order, and none begins where another ends. -/
theorem Throughout.lt_of_neighbours (h : n.Throughout (Proper source)) (ho : n.Orderly)
    {before after : List Statement} {run run' : String} {span span' : Span}
    (hbody : n.body = before ++ .text run span :: .text run' span' :: after) :
    span.stop.offset < span'.start.offset := by
  have hrun : IsRun source run span := h.isRun (by simp [hbody])
  have hrun' : IsRun source run' span' := h.isRun (by simp [hbody])
  have hpairs := pairwise_body ho
  rw [hbody] at hpairs
  have hle := (List.pairwise_cons.mp (List.pairwise_append.mp hpairs).2.1).1 _ List.mem_cons_self
  exact hrun.lt_of_le hrun' hle

/-- Nodes that are proper throughout, and in order, are well-formed. -/
theorem Throughout.wellFormed (h : n.Throughout (Proper source)) (ho : n.Orderly) :
    n.WellFormed source where
  text := by
    rintro run span rfl
    have hrun : IsRun source run span := h.here.formed
    exact ⟨hrun.ne_empty, hrun.not_infix (.inl rfl), hrun.not_infix (.inr rfl)⟩
  unpack := by
    rintro names span rfl
    exact h.here.formed
  arms := by
    rintro arms span rfl
    exact h.here.formed.1
  boolean := by
    intro value span hc
    obtain ⟨a, rfl⟩ := h.here.boolean _ hc trivial
    refine ⟨a, rfl, ?_⟩
    rcases List.mem_cons.mp hc with hc | hc
    · exact (expression.inj hc).symm
    · obtain ⟨s, -, hs⟩ := List.mem_map.mp hc
      cases hs
  otherwise := by
    rintro before a after all value span rfl ha
    obtain ⟨hbefore, hafter, hcondition⟩ :=
      h.here.formed.2 before a after rfl (by rw [ha]; trivial)
    rw [ha] at hcondition
    cases hcondition
    exact ⟨hbefore, hafter, rfl, rfl⟩
  binary := by
    rintro op left right span rfl
    exact h.here.formed
  unary := by
    rintro op argument span rfl
    exact h.here.formed
  put := by
    rintro value filters span rfl
    exact h.here.formed
  declared := by
    rintro b rfl
    exact h.here.formed
  apart := fun _ _ _ _ _ _ hbody => h.lt_of_neighbours ho hbody

/-! ## What is proper throughout -/

/-- The node is proper throughout, and no truth value itself. -/
def Sound (source : String) (n : Node) : Prop := n.Throughout (Proper source) ∧ ¬ n.IsBoolean

theorem sound_of_parts (hn : n.Formed source) (hb : ¬ n.IsBoolean)
    (h : ∀ c ∈ n.children, c.Sound source) : n.Sound source := by
  refine ⟨.of_children ⟨hn, fun c hc hboolean => ?_⟩ fun c hc => (h c hc).1, hb⟩
  exact absurd hboolean (h c hc).2

theorem Sound.child (h : n.Sound source) (hn : ∀ a, n ≠ arm a) (hc : c ∈ n.children) :
    c.Sound source := by
  refine ⟨h.1.child hc, fun hboolean => ?_⟩
  obtain ⟨a, ha⟩ := h.1.here.boolean c hc hboolean
  exact hn a ha

theorem sound_name (v : Variable) : (name v).Sound source :=
  sound_of_parts trivial id (by simp [children])

theorem sound_identifier (i : Identifier) : (identifier i).Sound source :=
  sound_of_parts trivial id (by simp [children])

theorem sound_operator (o : WrittenOperator) : (operator o).Sound source :=
  sound_of_parts trivial id (by simp [children])

theorem sound_written {e : Expression} (h : e.Written) : (expression e).Sound source := by
  induction h with
  | name v => exact sound_of_parts trivial id (by simp [children])
  | number n span => exact sound_of_parts trivial id (by simp [children])
  | string value span => exact sound_of_parts trivial id (by simp [children])
  | member _ property span ih =>
    exact sound_of_parts trivial id (by simpa [children] using ⟨ih, sound_name property⟩)
  | call _ _ span ih iha =>
    exact sound_of_parts trivial id (by simpa [children] using ⟨ih, iha⟩)
  | @binary op _ _ hop _ _ span ihl ihr =>
    exact sound_of_parts hop id (by simpa [children] using ⟨ihl, sound_operator op, ihr⟩)
  | @unary op _ hop _ span ih =>
    exact sound_of_parts hop id (by simpa [children] using ⟨sound_operator op, ih⟩)
  | filter _ _ span ih ihf =>
    exact sound_of_parts trivial id (by simpa [children] using ⟨ih, ihf⟩)

theorem sound_scope {b : Body} (hd : b.declared = [])
    (h : ∀ s ∈ b.body, (statement s).Sound source) : (scope b).Sound source :=
  sound_of_parts hd id (by simpa [children, hd] using h)

theorem Sound.body {b : Body} (h : (scope b).Sound source) :
    ∀ s ∈ b.body, (statement s).Sound source := by
  intro s hs
  exact h.child (by simp) (List.mem_append_right _ (List.mem_map_of_mem hs))

theorem sound_arm {condition : Expression} (hc : condition.Written) {b : Body}
    (hb : (scope b).Sound source) (span : Span) :
    (arm ⟨condition, b.body, span⟩).Sound source :=
  sound_of_parts trivial id (by simpa [children] using ⟨sound_written hc, hb.body⟩)

/-- The arm of an `else` has a truth value for a condition, as no other node may. -/
theorem sound_elseArm {b : Body} (hb : (scope b).Sound source) (value : Bool)
    (span all : Span) : (arm ⟨.boolean value span, b.body, all⟩).Sound source := by
  refine ⟨.of_children ⟨trivial, fun _ _ _ => ⟨_, rfl⟩⟩ fun c hc => ?_, id⟩
  rcases List.mem_cons.mp hc with rfl | hc
  · exact .of_children ⟨trivial, by simp [children]⟩ (by simp [children])
  · obtain ⟨s, hs, rfl⟩ := List.mem_map.mp hc
    exact (hb.body s hs).1

/-- Arms, of which there is at least one, with conditions that are written. -/
structure PlainArms (source : String) (arms : List (Arm Statement)) : Prop where
  ne_nil : arms ≠ []
  sound : ∀ a ∈ arms, (arm a).Sound source
  plain : ∀ a ∈ arms, ¬ a.condition.IsBoolean

theorem PlainArms.snoc {arms : List (Arm Statement)} (h : PlainArms source arms)
    {a : Arm Statement} (ha : (arm a).Sound source) (hc : ¬ a.condition.IsBoolean) :
    PlainArms source (arms ++ [a]) where
  ne_nil := by simp
  sound := List.forall_mem_append.mpr ⟨h.sound, by simpa using ha⟩
  plain := List.forall_mem_append.mpr ⟨h.plain, by simpa using hc⟩

theorem sound_cases {arms : List (Arm Statement)} (h : PlainArms source arms) (span : Span) :
    (statement (.cases arms span)).Sound source := by
  refine sound_of_parts ⟨h.ne_nil, fun before a after harms ha => ?_⟩ id
    (by simpa [children] using h.sound)
  exact absurd ha (h.plain a (by simp [harms]))

/-- A truth value may be the condition of one more arm behind those that are written. -/
theorem sound_cases_else {arms : List (Arm Statement)} (h : PlainArms source arms)
    {a : Arm Statement} (ha : (arm a).Sound source)
    (hc : a.condition = .boolean true (.empty a.span.start)) (span : Span) :
    (statement (.cases (arms ++ [a]) span)).Sound source := by
  refine sound_of_parts ⟨by simp, fun before b after harms hb => ?_⟩ id fun c hmem => ?_
  · rcases List.eq_nil_or_concat after with rfl | ⟨others, x, rfl⟩
    · obtain ⟨rfl, hlast⟩ := List.append_inj' harms rfl
      obtain rfl := (List.cons.inj hlast).1
      exact ⟨h.ne_nil, rfl, hc⟩
    · have hmem : b ∈ arms := by
        rw [List.concat_eq_append, ← List.cons_append, ← List.append_assoc] at harms
        rw [(List.append_inj' harms rfl).1]
        exact List.mem_append_right _ List.mem_cons_self
      exact absurd hb (h.plain b hmem)
  · obtain ⟨b, hb, rfl⟩ := List.mem_map.mp hmem
    rcases List.mem_append.mp hb with hb | hb
    · exact h.sound b hb
    · rwa [List.mem_singleton.mp hb]

end Node

theorem Expression.Written.not_isBoolean {e : Expression} (h : e.Written) : ¬ e.IsBoolean := by
  cases h <;> exact id

end TemplateSyntax
