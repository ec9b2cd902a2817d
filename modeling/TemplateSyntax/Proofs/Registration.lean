import TemplateSyntax.Proofs.ClosedDefinitions
import TemplateSyntax.Proofs.DefinitionLog

/-!
# Definitions are noted as they close

When reading comes to the end of a source, or to a fault, exactly those definitions have been noted
whose last tag it has passed, in the order in which they close. While a draft is read, what it has
noted and what is still closed behind the cursor are all that the source closes; a fault in the tag
that closes a definition is found before the end of that tag, so this definition is not passed.
-/
namespace TemplateSyntax

/-- What a definition is told by that is kept. -/
def Definition.designation : Definition → Designation
  | ofMacro m => ⟨.macroWord, m.name.value, m.span⟩
  | ofBlock b => ⟨.blockWord, b.name.value, b.span⟩

@[simp]
theorem Definition.kind_designation (x : Definition) : x.designation.kind = x.kind := by
  cases x <;> rfl

@[simp]
theorem Definition.name_designation (x : Definition) : x.designation.name = x.name := by
  cases x <;> rfl

/-- The word of the tag that closed a body. -/
def Closing.word (closing : Closing) : Identifier := ⟨closing.keyword.spelling, closing.span⟩

/-- Keywords of tags that neither begin nor close a definition. -/
def Keyword.IsPlain (k : Keyword) : Prop :=
  (k ≠ .macroWord ∧ k ≠ .blockWord) ∧ k ≠ .endMacro ∧ k ≠ .endBlock

instance : DecidablePred Keyword.IsPlain := fun k =>
  inferInstanceAs (Decidable ((k ≠ .macroWord ∧ k ≠ .blockWord) ∧ k ≠ .endMacro ∧ k ≠ .endBlock))

/-! ## Faults in a closing tag -/

namespace Reader
variable {e : Cursor}

/-- The reader is in a tag that ends at the cursor. -/
def InsideTag (e : Cursor) (r : Reader) : Prop := ∃ c, r.At c ∧ c.through? .endTag = some e

/-- The computation succeeds, or fails before the end of the tag. -/
def FailsInside {α : Type} (m : ReadM α) : Prop :=
  ∀ e, Ensures (InsideTag e) m (fun _ _ => True) fun _ t => t.cursor.through? .endTag = some e

theorem InsideTag.next {r : Reader} (h : r.InsideTag e) :
    Ends (fun l t => l.token ≠ .symbol .endTag → t.cursor.through? .endTag = some e)
      (fun _ t => t.cursor.through? .endTag = some e) (Reader.next r) := by
  obtain ⟨c, hc, he⟩ := h
  cases hn : Reader.next r with
  | ok l t =>
    obtain ⟨hl, -⟩ := hc.next_eq_ok hn
    intro hne
    rw [Cursor.Reads.through?_eq ⟨_, hl⟩ hne]
    exact he
  | error f t =>
    rcases hc with ⟨hp, rfl⟩ | ⟨l, hp, -⟩
    · obtain ⟨-, hr, rfl⟩ := next_eq_error hn
      exact (Cursor.through?_of_error hr).trans he
    · rw [next_of_peeked hp] at hn
      cases hn

/-- A name is taken, or none stands next. -/
theorem ensures_expectName (c : Cursor) : Ensures (fun r => r.At c) expectName
    (fun name t => t.peeked = none ∧
      c.next true = (.ok ⟨.identifier name.value, name.span⟩, t.cursor))
    fun _ _ => ∀ word span d, c.next true ≠ (.ok ⟨.identifier word, span⟩, d) := by
  refine Ensures.bind (Q := fun l t => t.peeked = none ∧ c.next true = (.ok l, t.cursor)) ?_
    fun l => ?_
  · intro r hr
    cases hn : Reader.next r with
    | ok l t => exact (hr.next_eq_ok hn).symm
    | error f t =>
      rcases hr with ⟨hp, rfl⟩ | ⟨l, hp, -⟩
      · obtain ⟨-, herror, -⟩ := next_eq_error hn
        intro word span d hd
        rw [herror] at hd
        cases hd
      · rw [next_of_peeked hp] at hn
        cases hn
  · split
    · next name hl => exact Ensures.pure fun t ht => hl ▸ ht
    · next hl =>
      refine Ensures.throw fun t ht word span d hd => ?_
      rw [ht.2] at hd
      cases hd
      exact hl _ rfl

theorem failsInside_endTag : FailsInside Draft.endTag := by
  intro e
  refine Ensures.bind (fun r hr => InsideTag.next hr) fun l => ?_
  split
  · exact Ensures.pure fun _ _ => trivial
  · next hl => exact Ensures.throw fun _ h => h hl

theorem failsInside_blockEnd (name : String) : FailsInside (Draft.blockEnd name) := by
  intro e
  have hpeek : Ensures (InsideTag e) peek (fun l t => t.InsideTag e ∧ t.peeked = some l ∧
      (l.token ≠ .symbol .endTag → t.cursor.through? .endTag = some e))
      fun _ t => t.cursor.through? .endTag = some e := by
    intro r hr
    have hnext := hr.next
    obtain ⟨c, hc, he⟩ := hr
    rw [run_peek]
    cases hn : Reader.next r with
    | error f t => rwa [hn] at hnext
    | ok l t =>
      rw [hn] at hnext
      exact ⟨⟨c, .inr ⟨l, rfl, (hc.next_eq_ok hn).1⟩, he⟩, rfl, hnext⟩
  have hname : Ensures (InsideTag e) (Draft.closingName name) (fun _ => InsideTag e)
      fun _ t => t.cursor.through? .endTag = some e := by
    refine hpeek.bind fun l => ?_
    split
    · next closing hl =>
      split
      · refine Ensures.discard ?_
        rintro r ⟨-, hp, hthrough⟩
        rw [next_of_peeked hp]
        exact ⟨r.cursor, .inl ⟨rfl, rfl⟩, hthrough (by simp [hl])⟩
      · exact Ensures.throw fun _ h => h.2.2 (by simp [hl])
    · exact Ensures.pure fun _ h => h.1
  exact hname.bind fun _ => failsInside_endTag e

end Reader

/-! ## Tallies -/

namespace Cursor
variable {begun : List Begun} {start : Position} {word : Identifier} {c d : Cursor} {x : Ended}

/-- What is still closed when reading goes on between tags. -/
def closingsFrom (begun : List Begun) (c : Cursor) : List Ended := closings begun c.tags

/-- What is still closed behind a tag or placeable that goes on at the cursor. -/
def closingsBehind (stop : Symbol) (begun : List Begun) (c : Cursor) : List Ended :=
  (c.skipThrough stop).closingsFrom begun

theorem lt_of_mem_closingsFrom (h : x ∈ c.closingsFrom begun) :
    c.position.offset < x.behind.offset := (closings_ascending _ _).1 x h

theorem lt_of_mem_closingsBehind {stop : Symbol} (h : x ∈ c.closingsBehind stop begun)
    (hd : d.Reaches (c.skipThrough stop)) : d.position.offset < x.behind.offset :=
  Nat.lt_of_le_of_lt hd.offset_le (lt_of_mem_closingsFrom h)

/-- A tag of a plain word closes nothing. -/
theorem closingsInTag_of_plain {k : Keyword} (hword : word.value = k.spelling) (hk : k.IsPlain) :
    c.closingsInTag begun start word = c.closingsBehind .endTag begun := by
  rw [closingsInTag, turn_of_other hword hk.1 hk.2]
  rfl

end Cursor

namespace Draft
variable {α β : Type} {total : List Ended}

/-- What has been read closes the definitions that were noted, and what has not been read closes
the others. -/
structure Registered (total : List Ended) (d : Draft) : Prop where
  booked : d.Booked
  accounted : ∃ done unread, done ++ unread = total ∧
    done.map Ended.designation = d.logged.map Definition.designation ∧
    (∀ x ∈ done, x.behind.offset ≤ d.reader.cursor.position.offset) ∧
    ∀ x ∈ unread, d.reader.cursor.position.offset < x.behind.offset

/-- While a draft is read: the definitions that were noted, those that are closed and about to be
noted, and those due are all that the source closes. The cursor has come up to an offset at
least. -/
structure Tallies (total : List Ended) (lo : Nat) (held : List Designation)
    (due : Cursor → List Ended) (d : Draft) : Prop where
  booked : d.Booked
  peeked : d.reader.peeked = none
  lo_le : lo ≤ d.reader.cursor.position.offset
  accounted : ∃ done, done ++ due d.reader.cursor = total ∧
    done.map Ended.designation = d.logged.map Definition.designation ++ held ∧
    ∀ x ∈ done, x.behind.offset ≤ d.reader.cursor.position.offset

/-- The computation keeps the tally, and a fault leaves all registered. -/
abbrev Registers (total : List Ended) (P : Draft → Prop) (m : DraftM α) (Q : α → Draft → Prop) :
    Prop :=
  Ensures P m Q fun _ => Registered total

namespace Tallies
variable {lo lo' : Nat} {held : List Designation} {due due' : Cursor → List Ended} {d : Draft}
  {r : Reader}

/-- A fault that is found before any of the definitions due is closed. -/
theorem registered (h : d.Tallies total lo [] due)
    (hr : d.reader.cursor.position.offset ≤ r.cursor.position.offset)
    (hdue : ∀ x ∈ due d.reader.cursor, r.cursor.position.offset < x.behind.offset) :
    Registered total { d with reader := r } := by
  obtain ⟨done, htotal, hlogged, hle⟩ := h.accounted
  rw [List.append_nil] at hlogged
  exact ⟨{ h.booked with }, done, _, htotal, hlogged, fun x hx => Nat.le_trans (hle x hx) hr, hdue⟩

/-- Reading goes on to where as much is due. -/
theorem move (h : d.Tallies total lo held due) (hp : r.peeked = none)
    (hr : d.reader.cursor.position.offset ≤ r.cursor.position.offset)
    (hdue : due' r.cursor = due d.reader.cursor) :
    Tallies total lo held due' { d with reader := r } := by
  obtain ⟨done, htotal, hlogged, hle⟩ := h.accounted
  refine ⟨{ h.booked with }, hp, Nat.le_trans h.lo_le hr, done, ?_, hlogged, fun x hx => ?_⟩
  · rw [← htotal]
    exact congrArg (done ++ ·) hdue
  · exact Nat.le_trans (hle x hx) hr

/-- Reading goes on to where the first of the definitions due is closed. -/
theorem close (h : d.Tallies total lo [] due) (hp : r.peeked = none) {x : Ended}
    (hr : d.reader.cursor.position.offset ≤ r.cursor.position.offset)
    (hx : x.behind = r.cursor.position) (hdue : due d.reader.cursor = x :: due' r.cursor) :
    Tallies total lo [x.designation] due' { d with reader := r } := by
  obtain ⟨done, htotal, hlogged, hle⟩ := h.accounted
  rw [List.append_nil] at hlogged
  refine ⟨{ h.booked with }, hp, Nat.le_trans h.lo_le hr, done ++ [x], ?_, ?_, fun y hy => ?_⟩
  · rw [← htotal, hdue, List.append_assoc, List.singleton_append]
  · rw [List.map_append, hlogged]
    rfl
  · rcases List.mem_append.mp hy with hy | hy
    · exact Nat.le_trans (hle y hy) hr
    · rw [List.mem_singleton.mp hy, hx]

/-- The same where as much is due. -/
theorem due_eq (h : d.Tallies total lo held due)
    (hdue : due' d.reader.cursor = due d.reader.cursor) : d.Tallies total lo held due' :=
  h.move (r := d.reader) h.peeked (Nat.le_refl _) hdue

theorem above (h : d.Tallies total lo' held due) (hle : lo ≤ lo') : d.Tallies total lo held due :=
  { h with lo_le := Nat.le_trans hle h.lo_le }

end Tallies

/-! ## Heads -/

section Heads
variable {lo : Nat} {begun : List Begun} {b : Begun} {start : Position} {word : Identifier}
open Reader (Closes)

/-- How far a reader comes that ends with its tag. -/
theorem reaches_of_tokenWise {m : ReadM α} (ht : TokenWise m) (r : Reader) :
    Ends (fun _ t => r.cursor.Reaches t.cursor) (fun _ t => r.cursor.Reaches t.cursor) (m r) :=
  ht.keeps (Reader.stable_of_reaches (P := r.cursor.Reaches) fun _ _ h hc => hc.trans h) r (.refl _)

/-- A placeable or tag is read to its end, or a fault is found in it. -/
theorem registers_head {stop : Symbol} {m : ReadM α} (hm : Closes stop m) (ht : TokenWise m) :
    Registers total (Tallies total lo [] (Cursor.closingsBehind stop begun)) (liftM m)
      fun _ => Tallies total lo [] (Cursor.closingsFrom begun) := by
  intro d hd
  have hcloses := hm (d.reader.cursor.skipThrough stop) d.reader ⟨_, .inl ⟨hd.peeked, rfl⟩, rfl⟩
  have hreaches := reaches_of_tokenWise ht d.reader
  rw [run_lift]
  cases hr : m d.reader with
  | ok a r =>
    rw [hr] at hcloses hreaches
    obtain ⟨hp, hcursor⟩ := hcloses
    exact hd.move hp hreaches.offset_le (by rw [hcursor]; rfl)
  | error f r =>
    rw [hr] at hcloses hreaches
    exact hd.registered hreaches.offset_le fun x hx => Cursor.lt_of_mem_closingsBehind hx hcloses

theorem registers_endTag :
    Registers total (Tallies total lo [] (Cursor.closingsBehind .endTag begun))
      (discard (liftM endTag : DraftM Span) : DraftM PUnit) fun _ =>
        Tallies total lo [] (Cursor.closingsFrom begun) :=
  (registers_head closes_endTag tokenWise_endTag).discard

/-- The first tag of a definition is read to its end, or a fault is found in it. -/
theorem registers_begin {k : Keyword} (hk : k = .macroWord ∨ k = .blockWord)
    (hword : word.value = k.spelling) {m : ReadM α} {name : α → String} (hm : Closes .endTag m)
    (ht : TokenWise m)
    (hl : ∀ c, Reader.Lands m c fun a _ => ∃ e, c.Reads (.identifier (name a)) e) :
    Registers total (Tallies total lo [] (Cursor.closingsInTag begun start word)) (liftM m)
      fun a => Tallies total lo [] (Cursor.closingsFrom (⟨k, name a, start⟩ :: begun)) := by
  intro d hd
  have hat : d.reader.At d.reader.cursor := .inl ⟨hd.peeked, rfl⟩
  have hcloses := hm (d.reader.cursor.skipThrough .endTag) d.reader ⟨_, hat, rfl⟩
  have hreaches := reaches_of_tokenWise ht d.reader
  have hlands := hl _ d.reader hat
  rw [run_lift]
  cases hr : m d.reader with
  | ok a r =>
    rw [hr] at hcloses hreaches hlands
    obtain ⟨hp, hcursor⟩ := hcloses
    obtain ⟨_, -, e, he⟩ := hlands
    refine hd.move hp hreaches.offset_le ?_
    rw [hcursor, Cursor.closingsInTag, Cursor.turn_of_begin hk hword he]
    rfl
  | error f r =>
    rw [hr] at hcloses hreaches
    have hclose : k ≠ .endMacro ∧ k ≠ .endBlock := by rcases hk with rfl | rfl <;> simp
    refine hd.registered hreaches.offset_le fun x hx => ?_
    rw [Cursor.closingsInTag, Cursor.snd_turn_eq_none hword hclose] at hx
    exact Cursor.lt_of_mem_closingsBehind hx hcloses

/-- The last tag of a definition is read to its end, or a fault is found before that. -/
theorem registers_close {k : Keyword} (hk : k = .endMacro ∨ k = .endBlock)
    (hword : word.value = k.spelling) {m : ReadM α} {designation : α → Designation}
    (hm : Closes .endTag m) (hf : Reader.FailsInside m) (ht : TokenWise m)
    (hl : ∀ c, lo ≤ c.position.offset → Reader.Lands m c fun a e => c.through? .endTag = some e ∧
      ∃ stop, b.stop? word e.position = some stop ∧
        designation a = ⟨b.kind, b.name, ⟨b.start, stop⟩⟩) :
    Registers total (Tallies total lo [] (Cursor.closingsInTag (b :: begun) start word)) (liftM m)
      fun a => Tallies total lo [designation a] (Cursor.closingsFrom begun) := by
  intro d hd
  have hat : d.reader.At d.reader.cursor := .inl ⟨hd.peeked, rfl⟩
  have hcloses := hm (d.reader.cursor.skipThrough .endTag) d.reader ⟨_, hat, rfl⟩
  have hreaches := reaches_of_tokenWise ht d.reader
  have hlands := hl _ hd.lo_le d.reader hat
  rw [run_lift]
  cases hr : m d.reader with
  | ok a r =>
    rw [hr] at hcloses hreaches hlands
    obtain ⟨hp, hcursor⟩ := hcloses
    obtain ⟨e, he, hthrough, stop, hstop, hdesignation⟩ := hlands
    obtain rfl := he.cursor_eq hp
    refine hd.close (x := ⟨designation a, r.cursor.position⟩) hp hreaches.offset_le rfl ?_
    rw [Cursor.closingsInTag, Cursor.turn_of_close hk hword hthrough hstop, ← hcursor, hdesignation]
    rfl
  | error f r =>
    rw [hr] at hcloses hreaches
    refine hd.registered hreaches.offset_le fun x hx => ?_
    rcases List.mem_append.mp hx with hx | hx
    · obtain ⟨e, he, hbehind⟩ := Cursor.behind_of_turn (Option.mem_toList.mp hx)
      have hfails := hf e d.reader ⟨_, hat, he⟩
      rw [hr] at hfails
      rw [hbehind]
      exact Cursor.offset_lt_of_through? hfails
    · exact Cursor.lt_of_mem_closingsBehind hx hcloses

/-- A definition that is closed is noted. -/
theorem registers_define (x : Definition) {due : Cursor → List Ended} :
    Registers total (Tallies total lo [x.designation] due) (define x)
      fun _ => Tallies total lo [] due := by
  intro d hd
  have hrun : define x d = .ok () (d.defining x) := rfl
  have hreader : (d.defining x).reader = d.reader := by cases x <;> rfl
  obtain ⟨done, htotal, hlogged, hle⟩ := hd.accounted
  rw [hrun]
  exact {
    booked := hd.booked.defining x
    peeked := hreader ▸ hd.peeked
    lo_le := hreader ▸ hd.lo_le
    accounted := by
      refine ⟨done, hreader ▸ htotal, ?_, hreader ▸ hle⟩
      rw [hlogged, logged_defining, List.map_append, List.append_nil, List.map_singleton] }

/-- Statements are no matter of the tally. -/
theorem registers_push {due : Cursor → List Ended} (s : Statement) :
    Registers total (Tallies total lo [] due) (push s) fun _ => Tallies total lo [] due :=
  fun _ hd => { hd with booked := { hd.booked with } }

end Heads

/-! ## Tags -/

/-- A body was closed by a tag that begins with one of the words, and reading goes on behind that
word. -/
def Tallies.AtClosing (total : List Ended) (lo : Nat) (begun : List Begun)
    (closers : List Keyword) (closing : Closing) (d : Draft) : Prop :=
  closing.keyword ∈ closers ∧
    d.Tallies total lo [] (Cursor.closingsInTag begun closing.opening.start closing.word)

/-- A reader of bodies keeps the tally, whatever definitions are begun around the body. -/
def BodyReader.Registers (total : List Ended) (body : BodyReader) : Prop :=
  ∀ lo begun closers, Draft.Registers total (Tallies total lo [] (Cursor.closingsFrom begun))
    (body closers) fun x => Tallies.AtClosing total lo begun closers x.2

section Tags
variable {n lo : Nat} {begun : List Begun} {closers : List Keyword} {closing : Closing}
  {opening : Span} {word : Identifier} {body : BodyReader} {d : Draft}

/-- A body that is no definition was closed. -/
theorem Tallies.AtClosing.plain (h : Tallies.AtClosing total lo begun closers closing d)
    (hk : ∀ k ∈ closers, k.IsPlain) :
    d.Tallies total lo [] (Cursor.closingsBehind .endTag begun) :=
  h.2.due_eq (Cursor.closingsInTag_of_plain rfl (hk _ h.1)).symm

theorem isPlain_armClosers : ∀ k ∈ armClosers, k.IsPlain := by decide

/-- The last tag of a body that is no definition is read to its end, or a fault is found. -/
theorem registers_plainEnd (hk : ∀ k ∈ closers, k.IsPlain) :
    Registers total (Tallies.AtClosing total lo begun closers closing)
      (discard (liftM endTag : DraftM Span) : DraftM PUnit) fun _ =>
        Tallies total lo [] (Cursor.closingsFrom begun) :=
  registers_endTag.before fun _ hd => hd.plain hk

theorem registers_nextArm (hb : body.Registers total) (x : List (Arm Statement) × Closing) :
    Registers total (Tallies.AtClosing total lo begun armClosers x.2) (nextArm n body x)
      (OnPass (fun x => Tallies.AtClosing total lo begun armClosers x.2)
        fun x => Tallies.AtClosing total lo begun armClosers x.2) := by
  obtain ⟨arms, closing⟩ := x
  unfold nextArm
  dsimp only
  split
  · refine Ensures.bind (((registers_head closes_lastExpression tokenWise_lastExpression).before
      fun d hd => hd.plain isPlain_armClosers)) fun condition => ?_
    exact (hb _ _ _).bind fun (scope, next) => Ensures.pure fun d hd => hd
  · exact Ensures.pure fun d hd => hd

theorem registers_ifTag (hb : body.Registers total) :
    Registers total (Tallies total lo [] (Cursor.closingsBehind .endTag begun))
      (ifTag n body opening) fun _ => Tallies total lo [] (Cursor.closingsFrom begun) := by
  refine (registers_head closes_lastExpression tokenWise_lastExpression).bind fun condition => ?_
  refine (hb _ _ _).bind fun (first, closing) => ?_
  have hloop (x : List (Arm Statement) × Closing) :
      Registers total (Tallies.AtClosing total lo begun armClosers x.2)
        (loop Draft.size (nextArm n body) x)
        fun x => Tallies.AtClosing total lo begun armClosers x.2 :=
    Ensures.loop_weak (registers_nextArm hb) x
  refine Ensures.bind (hloop (_, closing)) fun (arms, closing) => ?_
  dsimp only
  split
  · refine (registers_plainEnd isPlain_armClosers).bind fun _ => ?_
    refine (hb _ _ _).bind fun (scope, last) => ?_
    exact (registers_plainEnd (by decide)).bind fun _ => Ensures.pure fun d hd => hd
  · refine (registers_plainEnd isPlain_armClosers).bind fun _ => ?_
    exact Ensures.pure fun d hd => hd

theorem registers_forTag (hb : body.Registers total) :
    Registers total (Tallies total lo [] (Cursor.closingsBehind .endTag begun))
      (forTag n body opening) fun _ => Tallies total lo [] (Cursor.closingsFrom begun) := by
  have hplain : ∀ k ∈ [Keyword.elseWord, .endFor], k.IsPlain := by decide
  refine (registers_head closes_loopHead tokenWise_loopHead).bind
    fun (target, iterable, condition) => ?_
  refine (hb _ _ _).bind fun (main, closing) => ?_
  dsimp only
  split
  · refine (registers_plainEnd hplain).bind fun _ => ?_
    refine (hb _ _ _).bind fun (alternative, last) => ?_
    exact (registers_plainEnd (by decide)).bind fun _ => Ensures.pure fun d hd => hd
  · refine (registers_plainEnd hplain).bind fun _ => ?_
    exact Ensures.pure fun d hd => hd

theorem registers_callTag (hb : body.Registers total) :
    Registers total (Tallies total lo [] (Cursor.closingsBehind .endTag begun))
      (callTag n body opening) fun _ => Tallies total lo [] (Cursor.closingsFrom begun) := by
  refine (registers_head closes_callHead tokenWise_callHead).bind fun (name, args) => ?_
  refine (hb _ _ _).bind fun (scope, closing) => ?_
  exact (registers_plainEnd (by decide)).bind fun _ => Ensures.pure fun d hd => hd

theorem registers_filterTag (hb : body.Registers total) :
    Registers total (Tallies total lo [] (Cursor.closingsBehind .endTag begun))
      (filterTag n body opening) fun _ => Tallies total lo [] (Cursor.closingsFrom begun) := by
  refine (registers_head closes_lastExpression tokenWise_lastExpression).bind fun filter => ?_
  refine (hb _ _ _).bind fun (scope, closing) => ?_
  exact (registers_plainEnd (by decide)).bind fun _ => Ensures.pure fun d hd => hd

theorem registers_extendsTag :
    Registers total (Tallies total lo [] (Cursor.closingsBehind .endTag begun)) (extendsTag n)
      fun _ => Tallies total lo [] (Cursor.closingsFrom begun) := by
  refine (registers_head closes_lastExpression tokenWise_lastExpression).bind fun target => ?_
  have hparent : Registers total (Tallies total lo [] (Cursor.closingsFrom begun))
      (setParent target) fun _ => Tallies total lo [] (Cursor.closingsFrom begun) := by
    intro d hd
    rw [run_setParent]
    split
    · exact hd
    · exact { hd with booked := { hd.booked with } }
  refine hparent.bind fun isFirst => ?_
  split
  · exact Ensures.pure fun d hd => hd
  · exact Ensures.throw fun d hd =>
      hd.registered (r := d.reader) (Nat.le_refl _) fun x => Cursor.lt_of_mem_closingsFrom

theorem registers_macroTag (hb : body.Registers total)
    (hword : word.value = Keyword.macroWord.spelling) :
    Registers total (Tallies total lo [] (Cursor.closingsInTag begun opening.start word))
      (macroTag n body opening) fun _ => Tallies total lo [] (Cursor.closingsFrom begun) := by
  refine (registers_begin (.inl rfl) hword closes_macroHead tokenWise_macroHead fun c =>
    (Reader.lands_macroHead_name c).mono fun _ _ h => h.2).bind fun (name, parameters) => ?_
  refine (hb _ _ _).bind fun (scope, closing) => ?_
  let x : Definition := .ofMacro ⟨name, parameters, scope, ⟨opening.start, closing.span.stop⟩⟩
  refine Ensures.bind ((Ensures.given fun hclosing => ?_).discard) fun _ => registers_define x
  have hkeyword : closing.keyword = .endMacro := by simpa using hclosing
  have hclose : closing.word.value = Keyword.endMacro.spelling := by rw [Closing.word, hkeyword]
  refine registers_close (.inl rfl) hclose closes_endTag Reader.failsInside_endTag
    tokenWise_endTag fun c _ => (Reader.Lands.expectSymbol .endTag).mono fun _ e he => ?_
  refine ⟨Cursor.through?_of_readsSymbol he, closing.span.stop, ?_, rfl⟩
  rw [Begun.stop?, hclose, Keyword.ofSpelling?_spelling]
  rfl

/-- The span of a block goes on to the end of its last tag. -/
theorem lands_blockEnd_span (c : Cursor) (name : Identifier)
    (hopening : opening.start.offset < opening.stop.offset)
    (hle : opening.stop.offset ≤ c.position.offset) :
    Reader.Lands (blockEnd name.value) c fun close e => c.through? .endTag = some e ∧
      opening.combine close = ⟨opening.start, e.position⟩ := by
  have hname : Reader.Lands (closingName name.value) c fun _ d =>
      c.position.offset ≤ d.position.offset ∧ d.through? .endTag = c.through? .endTag := by
    refine (Reader.lands_closingName c name.value).mono fun _ d hd => ?_
    rcases hd with rfl | hd
    · exact ⟨Nat.le_refl _, rfl⟩
    · exact ⟨hd.offset_le, hd.through?_eq (by simp)⟩
  refine hname.bind fun _ d ⟨hcd, hd⟩ => (Reader.Lands.expectLexeme .endTag).mono
    fun close e he => ?_
  obtain ⟨hlo, hlt, -⟩ : d.Frames e close := Cursor.frames_of_next he (by simp)
  obtain ⟨-, hspan, rfl⟩ := Cursor.next_eq_ok he
  refine ⟨hd ▸ Cursor.through?_of_readsSymbol ⟨_, he⟩, ?_⟩
  change close = d.nextSpan true at hspan
  rw [Span.combine_eq (by omega) (by omega), hspan]
  rfl

theorem registers_blockTag (hb : body.Registers total)
    (hword : word.value = Keyword.blockWord.spelling)
    (hopening : opening.start.offset < opening.stop.offset) (hle : opening.stop.offset ≤ lo) :
    Registers total (Tallies total lo [] (Cursor.closingsInTag begun opening.start word))
      (blockTag body opening) fun _ => Tallies total lo [] (Cursor.closingsFrom begun) := by
  refine (registers_begin (.inr rfl) hword closes_blockHead tokenWise_blockHead fun c =>
    (Reader.lands_blockHead c).mono fun name _ ⟨e, he, _⟩ => ⟨e, he⟩).bind fun name => ?_
  refine (hb _ _ _).bind fun (scope, closing) => ?_
  let x (close : Span) : Definition := .ofBlock ⟨name, scope, opening.combine close⟩
  have hend : closing.keyword ∈ [Keyword.endBlock] → Registers total
      (Tallies total lo [] (Cursor.closingsInTag
        (⟨.blockWord, name.value, opening.start⟩ :: begun) closing.opening.start closing.word))
      (liftM (blockEnd name.value) : DraftM Span)
      fun close => Tallies total lo [(x close).designation] (Cursor.closingsFrom begun) := by
    intro hclosing
    have hkeyword : closing.keyword = .endBlock := by simpa using hclosing
    have hclose : closing.word.value = Keyword.endBlock.spelling := by rw [Closing.word, hkeyword]
    refine registers_close (.inr rfl) hclose (closes_blockEnd _) (Reader.failsInside_blockEnd _)
      (tokenWise_blockEnd _) fun c hc => ?_
    refine (lands_blockEnd_span c name hopening (Nat.le_trans hle hc)).mono fun close e he => ?_
    refine ⟨he.1, e.position, ?_, congrArg (Designation.mk _ _) he.2⟩
    rw [Begun.stop?, hclose, Keyword.ofSpelling?_spelling]
  refine Ensures.bind (Ensures.given hend) fun close => ?_
  exact (registers_define (x close)).bind fun _ => Ensures.pure fun d hd => hd

/-- A tag is read to its end with the tags that belong to it, or a fault is found. -/
theorem registers_tag (hb : body.Registers total) (name : Identifier)
    (hopening : opening.start.offset < opening.stop.offset) (hle : opening.stop.offset ≤ lo) :
    Registers total (Tallies total lo [] (Cursor.closingsInTag begun opening.start name))
      (tag n body opening name) fun _ => Tallies total lo [] (Cursor.closingsFrom begun) := by
  have hplain {γ : Type} {k : Keyword} (hk : Keyword.ofSpelling? name.value = some k)
      (h : k.IsPlain) {m : DraftM γ} {Q : γ → Draft → Prop}
      (hm : Registers total (Tallies total lo [] (Cursor.closingsBehind .endTag begun)) m Q) :
      Registers total (Tallies total lo [] (Cursor.closingsInTag begun opening.start name)) m Q :=
    hm.before fun d hd => hd.due_eq
      (Cursor.closingsInTag_of_plain (Keyword.ofSpelling?_eq_some_iff.mp hk) h).symm
  unfold tag
  split
  · next hk =>
    exact (hplain hk (by decide) (registers_ifTag hb)).bind registers_push
  · next hk =>
    exact (hplain hk (by decide) (registers_forTag hb)).bind registers_push
  · next hk =>
    exact (hplain hk (by decide)
      (registers_head closes_setTag tokenWise_setTag)).bind registers_push
  · next hk =>
    exact (hplain hk (by decide) (registers_callTag hb)).bind registers_push
  · next hk =>
    exact (hplain hk (by decide) (registers_filterTag hb)).bind registers_push
  · next hk =>
    exact (registers_blockTag hb (Keyword.ofSpelling?_eq_some_iff.mp hk) hopening hle).bind
      registers_push
  · next hk => exact registers_macroTag hb (Keyword.ofSpelling?_eq_some_iff.mp hk)
  · next hk => exact hplain hk (by decide) registers_extendsTag
  · exact Ensures.throw fun d hd =>
      hd.registered (r := d.reader) (Nat.le_refl _) fun x => Cursor.lt_of_mem_closingsInTag

end Tags

/-! ## Bodies -/

section Bodies
variable {n lo : Nat} {begun : List Begun} {body : BodyReader}

/-- What is known behind the token that opens a placeable or a tag. -/
def Tallies.Opened (total : List Ended) (lo : Nat) (begun : List Begun) (l : Lexeme) (d : Draft) :
    Prop :=
  l.token = .symbol .beginPut ∧ d.Tallies total lo [] (Cursor.closingsBehind .endPut begun) ∨
    l.token = .symbol .beginTag ∧ d.reader.cursor.Follows l.span ∧
      d.Tallies total lo [] (Cursor.closingsOfTag begun l.span.start)

theorem registers_opening : Registers total (Tallies total lo [] (Cursor.closingsFrom begun))
    Draft.opening fun found d => match found with
      | none => d.Tallies total lo [] fun _ => []
      | some l => Tallies.Opened total lo begun l d := by
  intro d hd
  have htext := d.reader.cursor.reaches_behindText
  have hbehind {r : Reader} {due : Cursor → List Ended} (hp : r.peeked = none)
      (hr : d.reader.cursor.behindText.Reaches r.cursor)
      (hdue : due r.cursor = d.reader.cursor.closingsFrom begun) :
      Tallies total lo [] due { d.behindText with reader := r } := by
    have hmoved := hd.move hp (htext.trans hr).offset_le hdue
    have hbooked : Booked { d.behindText with reader := r } := { hmoved.booked with }
    exact { hmoved with booked := hbooked }
  rcases opening_cases hd.peeked with ⟨hend, hr⟩ | ⟨s, l, r, hs, ho, hr, hl, hstart, hp⟩
  · rw [hr]
    refine hbehind (r := d.behindText.reader) hd.peeked (.refl _) ?_
    rw [Cursor.closingsFrom, Cursor.tags_of_end hend]
    rfl
  · have hnext := next_of_opening hd.peeked hr
    have hreaches := Cursor.reaches_of_next hnext
    rw [hr]
    rcases hs with rfl | rfl
    · refine .inl ⟨hl, hbehind hp hreaches ?_⟩
      rw [Cursor.closingsFrom, Cursor.tags_of_opens_put ho]
      rfl
    · obtain ⟨-, hframes⟩ := Cursor.frames_of_next hnext (by simp [hl])
      refine .inr ⟨hl, hframes, hbehind hp hreaches ?_⟩
      rw [Cursor.closingsFrom, Cursor.tags_of_opens_tag ho, hstart]
      rfl

/-- The word of a tag is read, or there is none. -/
theorem registers_word (l : Lexeme) :
    Registers total (fun d => d.reader.cursor.Follows l.span ∧
        d.Tallies total lo [] (Cursor.closingsOfTag begun l.span.start))
      (liftM Reader.expectName : DraftM Identifier)
      fun name d => d.reader.cursor.Follows l.span ∧
        d.Tallies total lo [] (Cursor.closingsInTag begun l.span.start name) := by
  rintro d ⟨hf, hd⟩
  have hat : d.reader.At d.reader.cursor := .inl ⟨hd.peeked, rfl⟩
  have hguards := Reader.Guards.expectName (d.reader.cursor.skipThrough .endTag) d.reader
    ⟨_, hat, rfl⟩
  have hname := Reader.ensures_expectName d.reader.cursor d.reader hat
  have hreaches := reaches_of_tokenWise .expectName d.reader
  rw [run_lift]
  cases hr : Reader.expectName d.reader with
  | ok name r =>
    rw [hr] at hname
    obtain ⟨hp, hnext⟩ := hname
    have hle := (Cursor.reaches_of_next hnext).offset_le
    exact ⟨⟨hf.1, Nat.le_trans hf.2 hle⟩, hd.move hp hle (Cursor.closingsOfTag_of_word hnext).symm⟩
  | error f r =>
    rw [hr] at hname hguards hreaches
    refine hd.registered hreaches.offset_le fun x hx => ?_
    rw [Cursor.closingsOfTag_of_no_word hname] at hx
    exact Cursor.lt_of_mem_closingsBehind hx hguards

/-- A tag that is noted closes nothing. -/
theorem Tallies.noted {due : Cursor → List Ended} {d : Draft} (h : d.Tallies total lo [] due)
    (name : String) (span : Span) :
    Tallies total lo [] due { d with log := d.log ++ [.tag name span] } := by
  refine { h with booked := h.booked.noted name span, accounted := ?_ }
  rw [logged_noted]
  exact h.accounted

/-- What is known when the pieces of a body have come to their end. -/
def Tallies.AtEnd (total : List Ended) (lo : Nat) (begun : List Begun) (closers : List Keyword) :
    Option Closing → Draft → Prop
  | none, d => d.Tallies total lo [] fun _ => []
  | some closing, d => Tallies.AtClosing total lo begun closers closing d

/-- One piece keeps the tally, or comes to the tag that closes the body. -/
theorem registers_piece (hb : body.Registers total) (closers : List Keyword) :
    Registers total (Tallies total lo [] (Cursor.closingsFrom begun)) (piece n body closers)
      (OnPass (Tallies.AtEnd total lo begun closers)
        fun _ => Tallies total lo [] (Cursor.closingsFrom begun)) := by
  refine registers_opening.bind fun found => ?_
  cases found with
  | none => exact Ensures.pure fun _ hd => hd
  | some l =>
    rintro d (⟨hl, hd⟩ | ⟨hl, hd⟩)
    · simp only [hl]
      refine Ensures.bind (registers_head closes_placeable tokenWise_placeable)
        (fun s => (registers_push s).bind fun _ => ?_) d hd
      exact Ensures.pure fun _ hd => hd
    · simp only [hl]
      refine Ensures.bind (registers_word l) (fun name t ⟨hf, ht⟩ => ?_) d hd
      have hnote : note (.tag name.value name.span) t =
          .ok () { t with log := t.log ++ [.tag name.value name.span] } := rfl
      have hnoted := ht.noted name.value name.span
      rw [run_bind_ok hnote]
      cases hk : closers.find? (·.spelling = name.value) with
      | some keyword =>
        have hword : keyword.spelling = name.value := by simpa using List.find?_some hk
        refine ⟨List.mem_of_find?_eq_some hk, ?_⟩
        rwa [Closing.word, hword]
      | none =>
        refine Ensures.bind (registers_tag hb name hf.1 hf.2) (fun _ u hu => ?_) _
          { hnoted with lo_le := Nat.le_refl _ }
        exact hu.above ht.lo_le

theorem registers_content (hb : body.Registers total) (hp : body.PieceWise)
    (closers : List Keyword) :
    Registers total (Tallies total lo [] (Cursor.closingsFrom begun)) (content n body closers)
      (Tallies.AtEnd total lo begun closers) :=
  Ensures.loop (descends_piece hp closers)
    (I := fun _ => Tallies total lo [] (Cursor.closingsFrom begun))
    (fun _ => registers_piece hb closers) none

/-- Where a body stands is no matter of the tally. -/
theorem registers_closeBody {due : Cursor → List Ended} (stop : Position) :
    Registers total (Tallies total lo [] due) (closeBody stop)
      fun _ => Tallies total lo [] due := by
  intro d hd
  rw [closeBody, run_modifyGet]
  dsimp only
  split
  · exact hd
  · exact { hd with booked := { hd.booked with } }

/-- Bodies are read in keeping with the tally, at every level. -/
theorem registers_body (n : Nat) : (Draft.body n).Registers total := by
  induction n with
  | zero =>
    intro lo begun closers d hd
    exact hd.registered (r := d.reader) (Nat.le_refl _) fun x => Cursor.lt_of_mem_closingsFrom
  | succ n ih =>
    intro lo begun closers d hd
    have hopen : openBody d = .ok () d.opened := rfl
    have hstart : d.opened.Tallies total lo [] (Cursor.closingsFrom begun) :=
      { hd with booked := { hd.booked with } }
    rw [Draft.body, run_bind_ok hopen]
    refine Ensures.bind (registers_content ih (pieceWise_body n) closers) (fun found t ht => ?_)
      _ hstart
    cases found with
    | none => exact ht.registered (r := t.reader) (Nat.le_refl _) (by simp)
    | some closing =>
      refine Ensures.bind (registers_closeBody closing.opening.start) (fun scope u hu => ?_) t ht.2
      exact ⟨ht.1, hu⟩

/-- What has been read of a source closes exactly the definitions that were noted. -/
theorem registers_readAll (text : String) :
    Registers (closedIn text) (· = ofText text) readAll fun _ => Registered (closedIn text) := by
  rintro d rfl
  have hstart : (ofText text).Tallies (closedIn text) 0 [] (Cursor.closingsFrom []) :=
    { booked := booked_ofText text
      peeked := rfl
      lo_le := Nat.zero_le _
      accounted := ⟨[], rfl, rfl, by simp⟩ }
  refine Ensures.bind (registers_content (registers_body depthLimit) (pieceWise_body _) [])
    (fun found => Ensures.pure fun t ht => ?_) _ hstart
  cases found with
  | none => exact Tallies.registered ht (r := t.reader) (Nat.le_refl _) (by simp)
  | some closing => exact absurd ht.1 (by simp)

end Bodies
end Draft

/-! ## Calls -/

/-- The message of the record of a definition. -/
def Designation.message (o : Designation) : String :=
  "registered " ++ o.kind.spelling ++ " " ++ quoted o.name

theorem Event.map_message_debug (log : List Event) :
    (log.filter (·.severity = .debug)).map Event.message =
      ((log.filterMap Event.defined?).map Definition.designation).map Designation.message := by
  induction log with
  | nil => rfl
  | cons e log ih =>
    cases e with
    | tag name span =>
      rw [List.filter_cons_of_neg (by simp [severity]), List.filterMap_cons_none rfl, ih]
    | redefined x =>
      rw [List.filter_cons_of_neg (by simp [severity]), List.filterMap_cons_none rfl, ih]
    | defined x =>
      have hx : (Event.defined x).defined? = some x := rfl
      rw [List.filter_cons_of_pos (by simp [severity]), List.filterMap_cons_some hx, List.map_cons,
        ih]
      cases x <;> rfl

/-- What a session tells of the definitions that its source has closed. -/
structure Session.Accounts (t : Session) (closed : List Ended) : Prop where
  /-- There is one record of each definition, in the order in which they are closed. -/
  records : (t.draft.log.filter (·.severity = .debug)).map Event.message =
    closed.map fun x => x.designation.message
  designations : t.draft.logged.map Definition.designation = closed.map Ended.designation
  ascending : closed.Pairwise fun x y => x.behind.offset < y.behind.offset
  /-- The keys are the names of these definitions. -/
  macros : ∀ key, key ∈ t.macros.names ↔
    ∃ x ∈ closed, x.designation.kind = .macroWord ∧ x.designation.name = key
  blocks : ∀ key, key ∈ t.blocks.names ↔
    ∃ x ∈ closed, x.designation.kind = .blockWord ∧ x.designation.name = key
  /-- Under each name stands the last definition of that name. -/
  keepsLast : t.draft.KeepsLast
  macro_named : ∀ key m, t.macros.find? key = some m → m.name.value = key
  block_named : ∀ key b, t.blocks.find? key = some b → b.name.value = key
  /-- A loss is reported right behind a record if an earlier one has its kind and name, so that the
  table held the name, and only then. -/
  warned : ∀ before x after, t.draft.log = before ++ .defined x :: after →
    (after.head? = some (.redefined x) ↔
      ∃ y ∈ before.filterMap Event.defined?, y.isOf x.kind x.name = true)
  warns : ∀ before x after, t.draft.log = before ++ .redefined x :: after →
    before.getLast? = some (.defined x)
  /-- Each definition has a key of its own, or one is lost for it. -/
  macro_count : closed.countP (·.designation.kind = .macroWord) =
    t.macros.names.length + t.draft.replacing.countP (·.kind = .macroWord)
  block_count : closed.countP (·.designation.kind = .blockWord) =
    t.blocks.names.length + t.draft.replacing.countP (·.kind = .blockWord)

namespace Draft
variable {total : List Ended} {d : Draft}

/-- The definitions that were noted are those that close before the cursor. -/
theorem Registered.designations (h : d.Registered total) :
    d.logged.map Definition.designation = (total.filter fun x =>
      x.behind.offset ≤ d.reader.cursor.position.offset).map Ended.designation := by
  obtain ⟨done, unread, rfl, hlogged, hdone, hunread⟩ := h.accounted
  have hall : done.filter (fun x => x.behind.offset ≤ d.reader.cursor.position.offset) = done :=
    List.filter_eq_self.mpr fun x hx => decide_eq_true (hdone x hx)
  have hnone : unread.filter (fun x => x.behind.offset ≤ d.reader.cursor.position.offset) = [] :=
    List.filter_eq_nil_iff.mpr fun x hx => by
      have hlt := hunread x hx
      simpa using hlt
  rw [List.filter_append, hall, hnone, List.append_nil, hlogged]

end Draft

namespace Session
variable {t : Session} {closed : List Ended}

/-- The names of a table are those of the definitions of its kind. -/
theorem mem_names_iff_of_designations (h : t.draft.KeepsLast)
    (hclosed : t.draft.logged.map Definition.designation = closed.map Ended.designation)
    (kind : Keyword) (key : String) : key ∈ t.draft.names kind ↔
      ∃ x ∈ closed, x.designation.kind = kind ∧ x.designation.name = key := by
  have hlogged : (∃ x ∈ t.draft.logged, x.isOf kind key = true) ↔
      ∃ o ∈ t.draft.logged.map Definition.designation, o.kind = kind ∧ o.name = key := by
    simp [Definition.isOf]
  rw [h.mem_names_iff, hlogged, hclosed]
  simp

/-- The definitions of a kind are as many as its names and the losses. -/
theorem countP_of_designations (h : t.draft.Booked)
    (hclosed : t.draft.logged.map Definition.designation = closed.map Ended.designation)
    (kind : Keyword) : closed.countP (·.designation.kind = kind) =
      (t.draft.names kind).length + t.draft.replacing.countP (·.kind = kind) := by
  have hmapped : closed.countP (·.designation.kind = kind) =
      (closed.map Ended.designation).countP (·.kind = kind) := by
    rw [List.countP_map]
    rfl
  rw [← h.counted, hmapped, ← hclosed, List.countP_map]
  exact List.countP_congr fun x _ => by simp

theorem accounts_of_booked (h : t.draft.Booked)
    (hdesignations : t.draft.logged.map Definition.designation = closed.map Ended.designation)
    (hclosed : closed.Pairwise fun x y => x.behind.offset < y.behind.offset) :
    t.Accounts closed := by
  have hnames := mem_names_iff_of_designations h.keepsLast hdesignations
  have hcount := countP_of_designations h hdesignations
  exact {
    records := by
      rw [Event.map_message_debug]
      change (t.draft.logged.map _).map _ = _
      rw [hdesignations, List.map_map]
      rfl
    designations := hdesignations
    ascending := hclosed
    macros := hnames .macroWord
    blocks := hnames .blockWord
    keepsLast := h.keepsLast
    macro_named := fun key m hm => by
      have hkept : t.draft.kept? .macroWord key = some (.ofMacro m) := congrArg (Option.map _) hm
      simpa [Definition.isOf, Definition.kind, Definition.name] using
        h.keepsLast.isOf_of_kept? hkept
    block_named := fun key b hb => by
      have hkept : t.draft.kept? .blockWord key = some (.ofBlock b) := congrArg (Option.map _) hb
      simpa [Definition.isOf, Definition.kind, Definition.name] using
        h.keepsLast.isOf_of_kept? hkept
    warned := fun before x after hlog => h.regular.head?_after hlog
    warns := fun before x after hlog => h.regular.getLast?_before hlog
    macro_count := hcount .macroWord
    block_count := hcount .blockWord }

/-- A session that has read its source, or as much of it as can be read, accounts for exactly those
definitions of which it has passed the last tag. -/
theorem process_accounts (text : String) (name : Option String) :
    let t := (start text name).process.2
    t.Accounts ((closedIn text).filter fun x => x.behind.offset ≤ t.cursor.position.offset) := by
  have hregistered : (start text name).process.2.draft.Registered (closedIn text) := by
    have hread := Draft.registers_readAll text _ rfl
    cases hr : Draft.readAll (start text name).draft with
    | ok a d =>
      rw [process_of_ok hr]
      change Ends _ _ (Draft.readAll (start text name).draft) at hread
      rw [hr] at hread
      exact hread
    | error f d =>
      rw [process_of_error hr]
      change Ends _ _ (Draft.readAll (start text name).draft) at hread
      rw [hr] at hread
      exact { hread with booked := { hread.booked with } }
  refine accounts_of_booked hregistered.booked hregistered.designations ?_
  exact (closings_ascending _ _).2.filter _

/-- A macro in a block, where the end of the block is at fault. -/
theorem process_accounts_unclosed :
    ((start ("\x7b% block a %\x7d\x7b% macro m() %\x7d\x7b% endmacro %\x7d" ++
      "\x7b% endblock b %\x7d")).process.2.draft.log.filter (·.severity = .debug)).map
        Event.message = ["registered macro `m`"] := by
  rw [(process_accounts _ _).records]
  decide +kernel

end Session
end TemplateSyntax
