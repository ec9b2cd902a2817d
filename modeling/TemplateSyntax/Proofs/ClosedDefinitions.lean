import TemplateSyntax.Proofs.Confinement

/-!
# Where definitions close

Which definitions a source closes, and in which order, can be told from its tags alone: the tag of a
macro or a block begins a definition, and a tag with the word that ends its kind closes the one that
was begun last, once the end of that tag is there. No expression is read for that, and no other tag
matters.
-/
namespace TemplateSyntax

namespace Cursor
variable {c d e : Cursor} {stop : Symbol} {t : Token}

/-- The cursor behind the next symbol of this kind, if there is one. Whatever stands before it is
skipped token by token, with strings as tokens. -/
def through? (stop : Symbol) (c : Cursor) : Option Cursor :=
  match _h : c.next true with
  | (.ok l, d) =>
    if l.token = .symbol stop then some d
    else if _hl : l.token = .endOfSource then none
    else d.through? stop
  | (.error _, d) => d.through? stop
termination_by c.rest.length
decreasing_by
  · refine length_lt_of_next _h fun l' hl => ?_
    cases hl
    exact _hl
  · exact length_lt_of_next _h fun l hl => by cases hl

theorem through?_of_next_ok {l : Lexeme} (h : c.next true = (.ok l, d)) :
    c.through? stop = if l.token = .symbol stop then some d
      else if l.token = .endOfSource then none else d.through? stop := by
  rw [through?.eq_def stop c]
  split
  · next hn =>
    rw [h] at hn
    cases hn
    rfl
  · next hn =>
    rw [h] at hn
    cases hn

theorem through?_of_readsSymbol (h : c.ReadsSymbol stop d) : c.through? stop = some d := by
  obtain ⟨span, h⟩ := h
  rw [through?_of_next_ok h, if_pos rfl]

theorem through?_of_rest_eq_nil (h : c.rest = []) : c.through? stop = none := by
  rw [through?_of_next_ok (next_of_rest_eq_nil h true), if_neg (by simp), if_pos rfl]

/-- Behind any other token than the symbol, the symbol stands where it stood before. -/
theorem Reads.through?_eq (h : c.Reads t d) (ht : t ≠ .symbol stop) :
    d.through? stop = c.through? stop := by
  obtain ⟨span, hn⟩ := h
  rw [through?_of_next_ok hn, if_neg ht]
  split
  · next hend =>
    obtain ⟨htoken, -, hd⟩ := next_eq_ok hn
    have hnil : d.rest = [] := by
      rw [hd]
      exact (c.skipBlanks_reaches_behindNext true).rest_eq_nil
        (nextPiece_eq_endOfSource_iff.mp (hend ▸ htoken))
    exact through?_of_rest_eq_nil hnil
  · rfl

theorem through?_of_error {f : Fault} (h : c.next true = (.error f, d)) :
    d.through? stop = c.through? stop := by
  rw [through?.eq_def stop c]
  split
  · next hn =>
    rw [h] at hn
    cases hn
  · next hn =>
    rw [h] at hn
    cases hn
    rfl

theorem skipThrough_of_through? (h : c.through? stop = some e) : c.skipThrough stop = e := by
  fun_induction through? stop c with
  | case1 c l d hn hl =>
    exact (skipThrough_of_reads_last ⟨_, hn⟩ (.inl hl)).trans (Option.some.inj h)
  | case2 c l d hn hl hend => cases h
  | case3 c l d hn hl hend ih => exact (skipThrough_of_reads ⟨_, hn⟩ hl hend).trans (ih h)
  | case4 c f d hn ih => exact (skipThrough_of_error hn).trans (ih h)

/-- The symbol takes some of the text. -/
theorem offset_lt_of_through? (h : c.through? stop = some e) :
    c.position.offset < e.position.offset := by
  fun_induction through? stop c with
  | case1 c l d hn hl =>
    obtain ⟨hlo, hlt, hhi⟩ := frames_of_next hn (by simp [hl])
    rw [← Option.some.inj h]
    omega
  | case2 c l d hn hl hend => cases h
  | case3 c l d hn hl hend ih => exact Nat.lt_of_le_of_lt (reaches_of_next hn).offset_le (ih h)
  | case4 c f d hn ih =>
    have hd := c.reaches_behindNext true
    rw [← c.next_snd true, hn] at hd
    exact Nat.lt_of_le_of_lt hd.offset_le (ih h)

end Cursor

/-! ## Tags -/

/-- A tag of a source. -/
structure Tag where
  /-- Where the tag opens. -/
  start : Position
  /-- Where it goes on behind the symbol that opens it. -/
  inside : Cursor

namespace Cursor
variable {c e : Cursor}

/-- The tags of what is left of a source. -/
def tags (c : Cursor) : List Tag :=
  let d := c.behindText
  match _h : d.next true with
  | (.ok ⟨.symbol .beginPut, _⟩, e) => (e.skipThrough .endPut).tags
  | (.ok ⟨.symbol .beginTag, _⟩, e) => ⟨d.position, e⟩ :: (e.skipThrough .endTag).tags
  | _ => []
termination_by c.rest.length
decreasing_by
  all_goals
    have hlt : e.rest.length < c.behindText.rest.length :=
      length_lt_of_next _h fun l hl => by cases hl; simp
    have htext := c.reaches_behindText.length_le
    have hskip := (e.reaches_skipThrough .endPut).length_le
    have hskip' := (e.reaches_skipThrough .endTag).length_le
    omega

theorem tags_of_end (h : c.behindText.rest = []) : c.tags = [] := by
  have hend := next_of_rest_eq_nil h true
  rw [tags]
  split
  · next hn => rw [hend] at hn; cases hn
  · next hn => rw [hend] at hn; cases hn
  · rfl

theorem tags_of_opens_put (h : c.behindText.Opens .beginPut e) :
    c.tags = (e.skipThrough .endPut).tags := by
  obtain ⟨-, span, h⟩ := h
  rw [tags]
  split
  · next hn => rw [h] at hn; cases hn; rfl
  · next hn => rw [h] at hn; cases hn
  · next hn _ => exact absurd h (hn _ _)

theorem tags_of_opens_tag (h : c.behindText.Opens .beginTag e) :
    c.tags = ⟨c.behindText.position, e⟩ :: (e.skipThrough .endTag).tags := by
  obtain ⟨-, span, h⟩ := h
  rw [tags]
  split
  · next hn => rw [h] at hn; cases hn
  · next hn => rw [h] at hn; cases hn; rfl
  · next hn => exact absurd h (hn _ _)

end Cursor

/-! ## Definitions -/

/-- What a definition can be told by. -/
structure Designation where
  kind : Keyword
  name : String
  span : Span
  deriving DecidableEq

/-- A definition that is begun. -/
structure Begun where
  kind : Keyword
  name : String
  start : Position
  deriving DecidableEq

/-- A definition that is closed. -/
structure Ended where
  designation : Designation
  /-- Where the source goes on behind the tag that closes it. -/
  behind : Position
  deriving DecidableEq

namespace Begun

/-- Where the definition is told to end, if the word ends its kind: a macro with the word, a block
behind the tag. -/
def stop? (b : Begun) (word : Identifier) (behind : Position) : Option Position :=
  match b.kind, Keyword.ofSpelling? word.value with
  | .macroWord, some .endMacro => some word.span.stop
  | .blockWord, some .endBlock => some behind
  | _, _ => none

/-- The definition as it is closed by a tag that begins with the word and goes on at the cursor. -/
def closed? (b : Begun) (word : Identifier) (c : Cursor) : Option Ended := do
  let e ← c.through? .endTag
  let stop ← b.stop? word e.position
  return ⟨⟨b.kind, b.name, ⟨b.start, stop⟩⟩, e.position⟩

end Begun

/-- What is begun behind a tag that opens at the position, begins with the word and goes on at the
cursor, and what the tag closes. The definition that was begun last is the first one. -/
def Cursor.turn (begun : List Begun) (start : Position) (word : Identifier) (c : Cursor) :
    List Begun × Option Ended :=
  match c.definedBy? word.value, begun with
  | some (kind, name), _ => (⟨kind, name, start⟩ :: begun, none)
  | none, b :: bs =>
    match b.closed? word c with
    | some x => (bs, some x)
    | none => (begun, none)
  | none, [] => ([], none)

/-- The same for the whole tag. Where no word begins the tag, nothing changes. -/
def Tag.turn (begun : List Begun) (tag : Tag) : List Begun × Option Ended :=
  match tag.inside.next true with
  | (.ok ⟨.identifier word, span⟩, c) => c.turn begun tag.start ⟨word, span⟩
  | _ => (begun, none)

/-- What tags close, in the order of the source. -/
def closings : List Begun → List Tag → List Ended
  | _, [] => []
  | begun, tag :: tags => (tag.turn begun).2.toList ++ closings (tag.turn begun).1 tags

/-- The definitions that a source closes, in the order in which they close. -/
def closedIn (text : String) : List Ended := closings [] (Cursor.ofText text).tags

namespace Cursor
variable {begun : List Begun} {b : Begun} {start : Position} {word : Identifier} {c d e : Cursor}

theorem closed?_eq_some_iff {x : Ended} : b.closed? word c = some x ↔ ∃ e stop,
    c.through? .endTag = some e ∧ b.stop? word e.position = some stop ∧
      ⟨⟨b.kind, b.name, ⟨b.start, stop⟩⟩, e.position⟩ = x := by
  simp [Begun.closed?, Option.bind_eq_some_iff]

/-- A definition is closed where the tag ends. -/
theorem behind_of_turn {x : Ended} (h : (c.turn begun start word).2 = some x) :
    ∃ e, c.through? .endTag = some e ∧ x.behind = e.position := by
  unfold turn at h
  split at h
  · cases h
  · split at h
    · next hx =>
      obtain rfl := Option.some.inj h
      obtain ⟨e, stop, he, -, rfl⟩ := closed?_eq_some_iff.mp hx
      exact ⟨e, he, rfl⟩
    · cases h
  · cases h

/-- Only the two words that end a kind close anything. -/
theorem closed?_eq_none {k : Keyword} (hword : word.value = k.spelling)
    (hclose : k ≠ .endMacro ∧ k ≠ .endBlock) : b.closed? word c = none := by
  rw [Option.eq_none_iff_forall_ne_some]
  intro x hx
  obtain ⟨e, stop, -, hstop, -⟩ := closed?_eq_some_iff.mp hx
  rw [Begun.stop?, hword, Keyword.ofSpelling?_spelling] at hstop
  split at hstop
  · next h => exact hclose.1 (Option.some.inj h)
  · next h => exact hclose.2 (Option.some.inj h)
  · cases hstop

theorem snd_turn_eq_none {k : Keyword} (hword : word.value = k.spelling)
    (hclose : k ≠ .endMacro ∧ k ≠ .endBlock) : (c.turn begun start word).2 = none := by
  unfold turn
  split
  · rfl
  · rw [closed?_eq_none hword hclose]
  · rfl

/-- A tag with any other word leaves the definitions as they are. -/
theorem turn_of_other {k : Keyword} (hword : word.value = k.spelling)
    (hbegin : k ≠ .macroWord ∧ k ≠ .blockWord) (hclose : k ≠ .endMacro ∧ k ≠ .endBlock) :
    c.turn begun start word = (begun, none) := by
  unfold turn
  rw [definedBy?_eq_none hword hbegin]
  cases begun with
  | nil => rfl
  | cons b bs => simp only [closed?_eq_none hword hclose]

theorem turn_of_begin {k : Keyword} {name : String} (hk : k = .macroWord ∨ k = .blockWord)
    (hword : word.value = k.spelling) (h : c.Reads (.identifier name) d) :
    c.turn begun start word = (⟨k, name, start⟩ :: begun, none) := by
  unfold turn
  rw [hword, definedBy?_of_reads h k hk]

theorem turn_of_close {k : Keyword} {stop : Position} (hk : k = .endMacro ∨ k = .endBlock)
    (hword : word.value = k.spelling) (he : c.through? .endTag = some e)
    (hstop : b.stop? word e.position = some stop) :
    c.turn (b :: begun) start word =
      (begun, some ⟨⟨b.kind, b.name, ⟨b.start, stop⟩⟩, e.position⟩) := by
  have hnone : c.definedBy? word.value = none :=
    definedBy?_eq_none hword (by rcases hk with rfl | rfl <;> simp) c
  unfold turn
  rw [hnone]
  simp only [closed?_eq_some_iff.mpr ⟨e, stop, he, hstop, rfl⟩]

/-- What is still closed when reading goes on in a tag, behind its word. -/
def closingsInTag (begun : List Begun) (start : Position) (word : Identifier) (c : Cursor) :
    List Ended :=
  (c.turn begun start word).2.toList ++
    closings (c.turn begun start word).1 (c.skipThrough .endTag).tags

/-- What is still closed when reading goes on in a tag, right behind its opening. -/
def closingsOfTag (begun : List Begun) (start : Position) (c : Cursor) : List Ended :=
  closings begun (⟨start, c⟩ :: (c.skipThrough .endTag).tags)

theorem closingsOfTag_of_word {span : Span} {word : String}
    (h : c.next true = (.ok ⟨.identifier word, span⟩, d)) :
    c.closingsOfTag begun start = d.closingsInTag begun start ⟨word, span⟩ := by
  have hturn : Tag.turn begun ⟨start, c⟩ = d.turn begun start ⟨word, span⟩ := by
    rw [Tag.turn, h]
  rw [closingsOfTag, closings, hturn, closingsInTag,
    skipThrough_of_reads ⟨_, h⟩ (by simp) (by simp)]

theorem closingsOfTag_of_no_word
    (h : ∀ word span d, c.next true ≠ (.ok ⟨.identifier word, span⟩, d)) :
    c.closingsOfTag begun start = closings begun (c.skipThrough .endTag).tags := by
  have hturn : Tag.turn begun ⟨start, c⟩ = (begun, none) := by
    unfold Tag.turn
    split
    · next hn => exact absurd hn (h _ _ _)
    · rfl
  rw [closingsOfTag, closings, hturn]
  rfl

end Cursor

/-- What a tag closes is closed in the tag, where the tag ends. -/
theorem Tag.behind_of_turn {begun : List Begun} {tag : Tag} {x : Ended}
    (h : (tag.turn begun).2 = some x) :
    tag.inside.position.offset < x.behind.offset ∧
      x.behind = (tag.inside.skipThrough .endTag).position := by
  unfold turn at h
  split at h
  · next hn =>
    obtain ⟨e, he, hx⟩ := Cursor.behind_of_turn h
    rw [Cursor.Reads.through?_eq ⟨_, hn⟩ (by simp)] at he
    rw [hx, Cursor.skipThrough_of_through? he]
    exact ⟨Cursor.offset_lt_of_through? he, rfl⟩
  · cases h

/-- Definitions are closed behind the cursor, one behind the other. -/
theorem closings_ascending (begun : List Begun) (c : Cursor) :
    (∀ x ∈ closings begun c.tags, c.position.offset < x.behind.offset) ∧
      (closings begun c.tags).Pairwise fun x y => x.behind.offset < y.behind.offset := by
  fun_induction Cursor.tags c generalizing begun with
  | case1 c d span e hn ih =>
    obtain ⟨hlt, hpairs⟩ := ih begun
    have hd : c.position.offset ≤ d.position.offset := c.reaches_behindText.offset_le
    have he := (Cursor.reaches_of_next hn).offset_le
    have hskip := (e.reaches_skipThrough .endPut).offset_le
    refine ⟨fun x hx => ?_, hpairs⟩
    have hx := hlt x hx
    omega
  | case2 c d span e hn ih =>
    have hd : c.position.offset ≤ d.position.offset := c.reaches_behindText.offset_le
    have he := (Cursor.reaches_of_next hn).offset_le
    have hskip := (e.reaches_skipThrough .endTag).offset_le
    rw [closings]
    generalize hturn : Tag.turn begun ⟨d.position, e⟩ = r
    obtain ⟨begun', closed⟩ := r
    obtain ⟨hlt, hpairs⟩ := ih begun'
    cases closed with
    | none =>
      refine ⟨fun x hx => ?_, hpairs⟩
      have hx := hlt x hx
      omega
    | some y =>
      obtain ⟨hy, hbehind⟩ := Tag.behind_of_turn (congrArg Prod.snd hturn)
      change e.position.offset < y.behind.offset at hy
      refine ⟨fun x hx => ?_, .cons (fun x hx => hbehind ▸ hlt x hx) hpairs⟩
      rcases List.mem_cons.mp hx with rfl | hx
      · omega
      · have hx := hlt x hx
        omega
  | case3 c d h => exact ⟨by simp [closings], .nil⟩

/-- In a tag, too, definitions are closed behind the cursor. -/
theorem Cursor.lt_of_mem_closingsInTag {begun : List Begun} {start : Position} {word : Identifier}
    {c : Cursor} {x : Ended} (h : x ∈ c.closingsInTag begun start word) :
    c.position.offset < x.behind.offset := by
  rcases List.mem_append.mp h with h | h
  · obtain ⟨e, he, hx⟩ := behind_of_turn (Option.mem_toList.mp h)
    rw [hx]
    exact offset_lt_of_through? he
  · have hskip := (c.reaches_skipThrough .endTag).offset_le
    have hx := (closings_ascending _ _).1 x h
    omega

end TemplateSyntax
