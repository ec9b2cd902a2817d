import TemplateSyntax.Proofs.Confinement
import TemplateSyntax.Proofs.Marks
import TemplateSyntax.Proofs.OpenBodies
import TemplateSyntax.Proofs.SpanOrder

/-!
# What is left when reading fails

When a source cannot be read to its end, the texts that were read before the fault stand in the open
bodies and in the definitions that were complete. There is one exception: a body that was closed
belongs to no other body until the statement it is a part of is complete. So what is lost lies, for
some body that is still open, behind all statements of that body and before the next body that was
opened inside it. A ledger keeps account of all texts of the source on the way: those in the draft,
those of closed bodies that are held for a statement, and those still to come.
-/
namespace TemplateSyntax

/-- A text and where it stands. -/
abbrev TextRun := String × Span

/-! ## Texts -/

/-- The texts in statements and in the bodies of these. -/
def textsIn (ss : List Statement) : List TextRun :=
  (Statement.nestedInAll ss).filterMap Statement.text?

theorem textsIn_eq (ss : List Statement) : textsIn ss = (marksIn ss).filterMap Mark.text? := by
  simp [textsIn, marksIn, List.filterMap_filterMap, Statement.bind_text?]

/-- The texts in the bodies of arms. -/
def textsInArms (arms : List (Arm Statement)) : List TextRun := arms.flatMap fun a => textsIn a.body

@[simp] theorem textsInArms_append (arms others : List (Arm Statement)) :
    textsInArms (arms ++ others) = textsInArms arms ++ textsInArms others := List.flatMap_append

@[simp] theorem textsInArms_singleton (a : Arm Statement) : textsInArms [a] = textsIn a.body := by
  simp [textsInArms]

@[simp] theorem textsIn_nil : textsIn [] = [] := rfl

@[simp] theorem textsIn_append (ss ts : List Statement) :
    textsIn (ss ++ ts) = textsIn ss ++ textsIn ts := by
  simp [textsIn_eq]

@[simp] theorem textsIn_text (run : String) (span : Span) :
    textsIn [.text run span] = [(run, span)] := rfl

@[simp] theorem textsIn_macroCall (name : Identifier) (args : List Expression) (b : Body)
    (span : Span) : textsIn [.macroCall name args b span] = textsIn b.body := by
  rw [textsIn_eq, marksIn_macroCall, textsIn_eq]

@[simp] theorem textsIn_filterBlock (filter : Expression) (b : Body) (span : Span) :
    textsIn [.filterBlock filter b span] = textsIn b.body := by
  rw [textsIn_eq, marksIn_filterBlock, textsIn_eq]

@[simp] theorem textsIn_loop (pattern : Pattern) (iterable : Expression)
    (condition : Option Expression) (b : Body) (alternative : Option (List Statement))
    (span : Span) : textsIn [.loop pattern iterable condition b alternative span] =
      textsIn b.body ++ textsIn (alternative.getD []) := by
  rw [textsIn_eq, marksIn_loop, List.filterMap_append, ← textsIn_eq, ← textsIn_eq]

@[simp] theorem textsIn_cases (arms : List (Arm Statement)) (span : Span) :
    textsIn [.cases arms span] = textsInArms arms := by
  rw [textsIn_eq, marksIn_cases, marksInArms, List.filterMap_flatMap]
  simp only [← textsIn_eq]
  rfl

namespace Cursor
variable {c e : Cursor}

/-- The texts still to come when reading goes on between tags, the empty ones left out. -/
def texts (c : Cursor) : List TextRun := c.parts.filterMap Part.text?

end Cursor

/-! ## Definitions -/

/-- The definition that an event tells of. -/
def Event.defined? : Event → Option Definition
  | .defined x => some x
  | _ => none

/-- Whether a definition is of this kind and has this name. -/
def Definition.isOf (x : Definition) (kind : Keyword) (name : String) : Bool :=
  x.kind = kind ∧ x.name = name

namespace Draft

/-- All definitions that were complete, in the order of the source. -/
def logged (d : Draft) : List Definition := d.log.filterMap Event.defined?

/-- What is kept of a kind under a name. -/
def kept? (d : Draft) (kind : Keyword) (name : String) : Option Definition :=
  match kind with
  | .macroWord => (d.macros.find? name).map .ofMacro
  | .blockWord => (d.blocks.find? name).map .ofBlock
  | _ => none

/-- Under each name the last of its definitions is kept, and none is kept under any other. -/
def KeepsLast (d : Draft) : Prop :=
  ∀ kind name, d.kept? kind name = d.logged.reverse.find? (·.isOf kind name)

/-- What `define` makes of a draft. -/
def defining (d : Draft) (x : Definition) : Draft :=
  keep { d with log := d.log ++ .defined x :: if d.holds x then [Event.redefined x] else [] } x

theorem log_defining (d : Draft) (x : Definition) : (d.defining x).log =
    d.log ++ .defined x :: if d.holds x then [Event.redefined x] else [] := by
  cases x <;> rfl

theorem logged_defining (d : Draft) (x : Definition) :
    (d.defining x).logged = d.logged ++ [x] := by
  rw [logged, log_defining]
  by_cases hheld : d.holds x <;> simp [hheld, logged, Event.defined?]

theorem kept?_defining (d : Draft) (x : Definition) (kind : Keyword) (name : String) :
    (d.defining x).kept? kind name = if x.isOf kind name then some x else d.kept? kind name := by
  cases x with
  | ofMacro m =>
    cases kind <;> simp [kept?, Definition.isOf, Definition.kind, Definition.name, defining, keep,
      Table.find?_insert]
    split <;> rfl
  | ofBlock b =>
    cases kind <;> simp [kept?, Definition.isOf, Definition.kind, Definition.name, defining, keep,
      Table.find?_insert]
    split <;> rfl

theorem KeepsLast.defining {d : Draft} (h : d.KeepsLast) (x : Definition) :
    (d.defining x).KeepsLast := by
  intro kind name
  rw [kept?_defining, logged_defining, List.reverse_concat, List.find?_cons, h kind name]
  cases x.isOf kind name <;> rfl

/-- A tag that is noted defines nothing. -/
theorem logged_noted (d : Draft) (name : String) (span : Span) :
    ({ d with log := d.log ++ [.tag name span] } : Draft).logged = d.logged := by
  simp [logged, Event.defined?]

theorem KeepsLast.noted {d : Draft} (h : d.KeepsLast) (name : String) (span : Span) :
    KeepsLast { d with log := d.log ++ [.tag name span] } := by
  intro kind key
  rw [logged_noted]
  exact h kind key

end Draft

/-! ## The ledger -/

/-- What is known of the place where a reader lands is known together. -/
theorem Reader.Lands.and {α : Type} {m : ReadM α} {c : Cursor} {G H : α → Cursor → Prop}
    (hG : Lands m c G) (hH : Lands m c H) (hs : Settles m) :
    Lands m c fun a d => G a d ∧ H a d := by
  intro r hr
  have hg := hG r hr
  have hh := hH r hr
  cases hm : m r with
  | error f t => trivial
  | ok a t =>
    rw [hm] at hg hh
    have hp := hs r a t hm
    obtain ⟨d, hd, hg⟩ := hg
    obtain ⟨e, he, hh⟩ := hh
    obtain rfl := (hd.cursor_eq hp).symm.trans (he.cursor_eq hp)
    exact ⟨_, hd, hg, hh⟩

/-- The span lies, for one of the bodies, behind all statements of the body and before the next body
inside it, or before the limit if the body is the first one. The bodies are open, the innermost
first. -/
def Pending (limit : Nat) : List Body → Span → Prop
  | [], _ => False
  | b :: bs, s =>
    (∀ x ∈ b.body, x.span.Before s) ∧ s.stop.offset ≤ limit ∨ Pending b.span.start.offset bs s

/-- A body that is open while a tag in it is read, and the bodies around it. The texts held there
belong to statements that are not complete. All statements of the body end before an offset that the
tag goes on behind. -/
structure Frame where
  body : Body
  around : List Body
  held : List TextRun
  lo : Nat
  before_lo : ∀ x ∈ body.body, x.span.stop.offset ≤ lo
  pending : ∀ y ∈ held, Pending body.span.start.offset around y.2

namespace Draft
variable {α β : Type} {total : List TextRun}

/-- The texts in the open bodies, and those in all definitions that were complete. -/
def texts (d : Draft) : List TextRun :=
  textsIn d.current.body ++ d.enclosing.flatMap (fun b => textsIn b.body) ++
    d.logged.flatMap fun x => textsIn x.body.body

theorem count_texts_append (d : Draft) (xs : List Statement) (y : TextRun) :
    ({ d with current := d.current.append xs } : Draft).texts.count y =
      d.texts.count y + (textsIn xs).count y := by
  simp only [texts, logged, Scope.append, textsIn_append, List.count_append]
  omega

/-- While a tag is read: the texts in the draft, those that the frame and the tag hold, and those
still due are all texts of the source. The tag holds texts from behind the statements of the body.
The cursor has come up to an offset at least. -/
structure Holds (total : List TextRun) (F : Frame) (held : List TextRun) (upto : Nat)
    (due : Cursor → List TextRun) (d : Draft) : Prop where
  keepsLast : d.KeepsLast
  peeked : d.reader.peeked = none
  current : d.current = F.body
  enclosing : d.enclosing = F.around
  lo_le : F.lo ≤ d.reader.cursor.position.offset
  upto_le : upto ≤ d.reader.cursor.position.offset
  held_between : ∀ y ∈ held,
    F.lo ≤ y.2.start.offset ∧ y.2.stop.offset ≤ d.reader.cursor.position.offset
  accounted : ∀ y, d.texts.count y + F.held.count y + held.count y +
    (due d.reader.cursor).count y = total.count y

namespace Holds
variable {F : Frame} {held : List TextRun} {upto : Nat} {due : Cursor → List TextRun} {d : Draft}

/-- The texts that are held are lost in a fault, whether in the tag or in a body inside it. -/
theorem pending (h : d.Holds total F held upto due) {y : TextRun} (hy : y ∈ F.held ++ held)
    {limit : Nat} (hlimit : d.reader.cursor.position.offset ≤ limit) :
    Pending limit (F.body :: F.around) y.2 := by
  rcases List.mem_append.mp hy with hy | hy
  · exact .inr (F.pending y hy)
  · obtain ⟨hstart, hstop⟩ := h.held_between y hy
    exact .inl ⟨fun x hx => Nat.le_trans (F.before_lo x hx) hstart, Nat.le_trans hstop hlimit⟩

/-- Reading goes on to where as much is due. -/
theorem move (h : d.Holds total F held upto due) {due' : Cursor → List TextRun} {r : Reader}
    (hp : r.peeked = none) (hr : d.reader.cursor.position.offset ≤ r.cursor.position.offset)
    (hdue : due' r.cursor = due d.reader.cursor) :
    Holds total F held upto due' { d with reader := r } where
  keepsLast := h.keepsLast
  peeked := hp
  current := h.current
  enclosing := h.enclosing
  lo_le := Nat.le_trans h.lo_le hr
  upto_le := Nat.le_trans h.upto_le hr
  held_between y hy := ⟨(h.held_between y hy).1, Nat.le_trans (h.held_between y hy).2 hr⟩
  accounted y := by
    rw [← h.accounted y, ← hdue]
    rfl

end Holds

/-- The tag of a frame opens with some text. -/
def Opened (F : Frame) (opening : Span) : Prop :=
  opening.start.offset < opening.stop.offset ∧ opening.stop.offset ≤ F.lo

section Tags
open Reader (Closes)
variable {n : Nat} {F : Frame} {held : List TextRun} {upto : Nat} {opening : Span}
  {body : BodyReader}

end Tags

/-! ## Bodies -/

/-- While the pieces of a body are read: the body began at a position, and its statements and texts
stand between that and the cursor. The texts in the draft, those that the bodies around it hold and
those still due are all texts of the source. -/
structure Gathers (total : List TextRun) (p : Position) (around : List Body) (held : List TextRun)
    (due : Cursor → List TextRun) (d : Draft) : Prop where
  keepsLast : d.KeepsLast
  peeked : d.reader.peeked = none
  start : d.current.span.start = p
  enclosing : d.enclosing = around
  start_le : p.offset ≤ d.reader.cursor.position.offset
  statements : ∀ x ∈ d.current.body, x.span.stop.offset ≤ d.reader.cursor.position.offset
  texts_between : ∀ y ∈ textsIn d.current.body,
    p.offset ≤ y.2.start.offset ∧ y.2.stop.offset ≤ d.reader.cursor.position.offset
  accounted : ∀ y, d.texts.count y + held.count y + (due d.reader.cursor).count y = total.count y

section Bodies
variable {n : Nat} {body : BodyReader} {p : Position} {around : List Body} {held : List TextRun}
  {due : Cursor → List TextRun} {d : Draft}

namespace Gathers

/-- Reading goes on to where as much is due. -/
theorem move (h : d.Gathers total p around held due) {r : Reader} (hp : r.peeked = none)
    (hr : d.reader.cursor.position.offset ≤ r.cursor.position.offset)
    (hdue : due r.cursor = due d.reader.cursor) :
    Gathers total p around held due { d with reader := r } where
  keepsLast := h.keepsLast
  peeked := hp
  start := h.start
  enclosing := h.enclosing
  start_le := Nat.le_trans h.start_le hr
  statements x hx := Nat.le_trans (h.statements x hx) hr
  texts_between y hy := ⟨(h.texts_between y hy).1, Nat.le_trans (h.texts_between y hy).2 hr⟩
  accounted y := by
    rw [← h.accounted y, ← hdue]
    rfl

/-- The frame of a tag that opens here. -/
def frame (h : d.Gathers total p around held due)
    (hheld : ∀ y ∈ held, Pending p.offset around y.2) : Frame where
  body := d.current
  around := around
  held := held
  lo := d.reader.cursor.position.offset
  before_lo := h.statements
  pending := h.start ▸ hheld

theorem holds (h : d.Gathers total p around held due)
    (hheld : ∀ y ∈ held, Pending p.offset around y.2) :
    d.Holds total (h.frame hheld) [] 0 due where
  keepsLast := h.keepsLast
  peeked := h.peeked
  current := rfl
  enclosing := h.enclosing
  lo_le := Nat.le_refl _
  upto_le := Nat.zero_le _
  held_between := by simp
  accounted := h.accounted

/-- Behind a tag the body goes on, with the statements that the tag has left. -/
theorem append (h : d.Gathers total p around held due)
    (hheld : ∀ y ∈ held, Pending p.offset around y.2) (xs : List Statement) {upto : Nat}
    {due' : Cursor → List TextRun} {t : Draft}
    (ht : t.Holds total (h.frame hheld) (textsIn xs) upto due')
    (hxs : ∀ x ∈ xs, x.span.stop.offset ≤ upto) :
    Gathers total p around held due' { t with current := t.current.append xs } where
  keepsLast := ht.keepsLast
  peeked := ht.peeked
  start := by
    rw [ht.current]
    exact h.start
  enclosing := ht.enclosing
  start_le := Nat.le_trans h.start_le ht.lo_le
  statements := by
    intro x hx
    rw [ht.current] at hx
    rcases List.mem_append.mp hx with hx | hx
    · exact Nat.le_trans (h.statements x hx) ht.lo_le
    · exact Nat.le_trans (hxs x hx) ht.upto_le
  texts_between := by
    intro y hy
    rw [ht.current, Scope.append, textsIn_append] at hy
    rcases List.mem_append.mp hy with hy | hy
    · have hbetween := h.texts_between y hy
      exact ⟨hbetween.1, Nat.le_trans hbetween.2 ht.lo_le⟩
    · have hbetween := ht.held_between y hy
      exact ⟨Nat.le_trans h.start_le hbetween.1, hbetween.2⟩
  accounted y := by
    have hy : t.texts.count y + held.count y + (textsIn xs).count y +
      (due' t.reader.cursor).count y = total.count y := ht.accounted y
    rw [count_texts_append]
    change _ + _ + (due' t.reader.cursor).count y = _
    omega

end Gathers

/-- Text that is read stands in the innermost body from then on. -/
theorem texts_behindText (d : Draft) : ∃ xs : List Statement,
    d.behindText = { d with
      reader := { d.reader with cursor := d.reader.cursor.behindText }
      current := d.current.append xs } ∧
    textsIn xs = d.reader.cursor.textPart.text?.toList ∧
    (∀ x ∈ xs, x.span.stop = d.reader.cursor.behindText.position) ∧
    ∀ y ∈ textsIn xs, y.2 = ⟨d.reader.cursor.position, d.reader.cursor.behindText.position⟩ := by
  unfold behindText Cursor.textPart Part.text?
  dsimp only
  split
  · exact ⟨[], by simp, rfl, by simp, by simp⟩
  · exact ⟨[.text _ _], rfl, rfl, by simp [Statement.span], by simp⟩

/-- Behind text there is the end of the source, or something opens. -/
theorem Gathers.behindText (h : d.Gathers total p around held Cursor.texts) {r : Reader}
    (hp : r.peeked = none) (hr : d.reader.cursor.behindText.Reaches r.cursor)
    {due' : Cursor → List TextRun}
    (hdue : d.reader.cursor.texts = d.reader.cursor.textPart.text?.toList ++ due' r.cursor) :
    Gathers total p around held due' { d.behindText with reader := r } := by
  obtain ⟨xs, hbehind, htexts, hstops, hspans⟩ := d.texts_behindText
  have htext := d.reader.cursor.reaches_behindText.offset_le
  have hle := hr.offset_le
  rw [hbehind]
  exact {
    keepsLast := h.keepsLast
    peeked := hp
    start := h.start
    enclosing := h.enclosing
    start_le := by
      have hstart := h.start_le
      change p.offset ≤ r.cursor.position.offset
      omega
    statements := by
      intro x hx
      change _ ≤ r.cursor.position.offset
      rcases List.mem_append.mp hx with hx | hx
      · have hx' := h.statements x hx
        omega
      · rw [hstops x hx]
        exact hle
    texts_between := by
      intro y hy
      have hstart := h.start_le
      change _ ∧ _ ≤ r.cursor.position.offset
      rw [Scope.append, textsIn_append] at hy
      rcases List.mem_append.mp hy with hy | hy
      · have hy' := h.texts_between y hy
        omega
      · rw [hspans y hy]
        exact ⟨hstart, hle⟩
    accounted := fun y => by
      have hy := h.accounted y
      rw [hdue, List.count_append, ← htexts] at hy
      have hcount := count_texts_append d xs y
      have hsum : ({ d with current := d.current.append xs } : Draft).texts.count y +
          held.count y + (due' r.cursor).count y = total.count y := by omega
      exact hsum }

/-- What is known behind the token that opens a placeable or a tag. -/
def GathersInside (total : List TextRun) (p : Position) (around : List Body)
    (held : List TextRun) (stop : Symbol) (opening : Span) (d : Draft) : Prop :=
  d.Gathers total p around held (fun c => (c.skipThrough stop).texts) ∧
    d.reader.cursor.Follows opening

/-- What opens behind text is the token that stands there. -/
theorem next_of_opening {l : Lexeme} {t : Draft} (hp : d.reader.peeked = none)
    (h : opening d = .ok (some l) t) :
    d.reader.cursor.behindText.next true = (.ok l, t.reader.cursor) := by
  rw [run_opening] at h
  split at h
  · cases h
  · cases hn : Reader.next d.behindText.reader with
    | error f r =>
      rw [hn] at h
      cases h
    | ok l' r =>
      rw [hn] at h
      cases h
      rcases Reader.next_eq_ok hn with ⟨hpeeked, -⟩ | ⟨-, hnext, rfl⟩
      · exact absurd (hpeeked.symm.trans hp) (by simp)
      · exact hnext

/-- A tag that is noted holds no text. -/
theorem GathersInside.noted {stop : Symbol} {opening : Span}
    (h : d.GathersInside total p around held stop opening) (name : Identifier) :
    GathersInside total p around held stop opening
      { d with log := d.log ++ [.tag name.value name.span] } := by
  obtain ⟨hd, ho⟩ := h
  refine ⟨{ hd with keepsLast := hd.keepsLast.noted _ _, accounted := fun y => ?_ }, ho⟩
  rw [texts, logged_noted]
  exact hd.accounted y

/-- A body is opened in a tag: what the tag holds is held around the body. -/
theorem Holds.opened {F : Frame} {upto : Nat} (h : d.Holds total F held upto Cursor.texts) :
    Gathers total d.reader.cursor.position (F.body :: F.around) (F.held ++ held) Cursor.texts
      d.opened where
  keepsLast := h.keepsLast
  peeked := h.peeked
  start := rfl
  enclosing := by
    rw [← h.current, ← h.enclosing]
    rfl
  start_le := Nat.le_refl _
  statements := by simp [Draft.opened, Scope.opened]
  texts_between := by simp [Draft.opened, Scope.opened]
  accounted y := by
    have hy := h.accounted y
    have htexts : d.opened.texts = d.texts := by simp [texts, Draft.opened, Scope.opened, logged]
    rw [htexts, List.count_append]
    change _ + _ + (Cursor.texts d.reader.cursor).count y = _
    omega

/-- A body is closed: the tag around it holds its texts. -/
theorem Gathers.closed {F : Frame} {upto : Nat} {t : Draft} {closing : Closing}
    (h : d.Holds total F held upto Cursor.texts)
    (ht : t.Gathers total d.reader.cursor.position (F.body :: F.around) (F.held ++ held) due)
    (hle : closing.span.stop.offset ≤ t.reader.cursor.position.offset) :
    Holds total F (held ++ textsIn t.current.body) closing.span.stop.offset due
      { t with current := F.body, enclosing := F.around } where
  keepsLast := ht.keepsLast
  peeked := ht.peeked
  current := rfl
  enclosing := rfl
  lo_le := Nat.le_trans h.lo_le ht.start_le
  upto_le := hle
  held_between y hy := by
    rcases List.mem_append.mp hy with hy | hy
    · have hbetween := h.held_between y hy
      exact ⟨hbetween.1, Nat.le_trans hbetween.2 ht.start_le⟩
    · have hbetween := ht.texts_between y hy
      exact ⟨Nat.le_trans h.lo_le hbetween.1, hbetween.2⟩
  accounted y := by
    have hy := ht.accounted y
    simp only [texts, ht.enclosing, List.flatMap_cons, List.count_append] at hy ⊢
    simp only [logged] at hy ⊢
    omega

end Bodies
end Draft

/-! ## Failed calls -/

end TemplateSyntax
