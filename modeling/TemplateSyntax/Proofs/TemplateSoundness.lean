import TemplateSyntax.Proofs.DraftLanding
import TemplateSyntax.Proofs.Session
import TemplateSyntax.Proofs.TagPhrases

/-!
# What is accepted is a template

Every tag that is read is a tag of the grammar, if the reader of bodies that it uses passes bodies
of the grammar. From that it follows for contents, by what one piece adds to them, and for bodies by
induction on the levels.
-/
namespace TemplateSyntax.Draft
open Passage Reader

/-- The reader passes bodies of the grammar, as far as the keyword that it answers. -/
def BodyReader.Sound (n : Nat) (body : BodyReader) : Prop :=
  ∀ closers c, Lands (body closers) c fun x k d =>
    x.2.keyword ∈ closers ∧ Derives (.body x.2.keyword) n k c d

theorem BodyReader.Sound.bind {n : Nat} {body : BodyReader} (hb : body.Sound n) {α : Type}
    {closer : Keyword} {f : Body × Closing → DraftM α} {c : Cursor} {H : α → Nat → Cursor → Prop}
    (hf : ∀ x j d, Derives (.body closer) n j c d → Lands (f x) d fun a k e => H a (j + k) e) :
    Lands (body [closer] >>= f) c H := by
  refine (hb [closer] c).bind fun x j d hx => ?_
  obtain ⟨hmem, hd⟩ := hx
  rw [List.mem_singleton.mp hmem] at hd
  exact hf x j d hd

section Tags
variable {n : Nat} {body : BodyReader} {opening : Span} {b c : Cursor}

/-- The last thing that is read of a tag is its end. -/
theorem lands_end {α : Type} {a : α} {H : α → Nat → Cursor → Prop}
    (h : ∀ d, c.ReadsSymbol .endTag d → H a 0 d) :
    Lands (do discard (liftM endTag : DraftM Span); return a) c H :=
  Lands.discard_lift_bind (lands_endTag c) settles_endTag fun _ d hd => Lands.pure (h d hd)

theorem lands_nextArm (hb : body.Sound n) {e : Cursor} {i : Nat}
    (x : List (Arm Statement) × Closing) {j : Nat} (hx : x.2.keyword ∈ armClosers)
    (h : Derives (.arms x.2.keyword) n (i + j) e c) :
    Lands (nextArm n body x) c fun y k d => OnPass
      (fun y d => y.2.keyword ∈ armClosers ∧ y.2.keyword ≠ .elifWord ∧
        Derives (.arms y.2.keyword) n (i + (j + k)) e d)
      (fun y d => y.2.keyword ∈ armClosers ∧ Derives (.arms y.2.keyword) n (i + (j + k)) e d)
      y d := by
  obtain ⟨arms, closing⟩ := x
  dsimp only at hx h
  unfold nextArm
  dsimp only
  split
  · next hk =>
    rw [hk] at h
    refine Lands.lift_bind (lands_lastExpression c) settles_lastExpression fun _ d hd => ?_
    refine (hb armClosers d).bind fun y k f hf => Lands.pure ⟨hf.1, ?_⟩
    have harm := Derives.elifArm h hd hf.2
    rwa [Nat.add_assoc] at harm
  · next hk => exact Lands.pure ⟨hx, hk, h⟩

/-- The arms behind the first one, as far as the keyword that ends them. -/
theorem lands_arms (hp : body.PieceWise) (hb : body.Sound n) {e : Cursor} {i : Nat}
    {x : List (Arm Statement) × Closing} (hx : x.2.keyword ∈ armClosers)
    (h : Derives (.body x.2.keyword) n i e c) :
    Lands (loop Draft.size (nextArm n body) x) c fun y j d => y.2.keyword ∈ armClosers ∧
      y.2.keyword ≠ .elifWord ∧ Derives (.arms y.2.keyword) n (i + j) e d :=
  Lands.loop (descends_nextArm hp) (I := fun y j d => y.2.keyword ∈ armClosers ∧
    Derives (.arms y.2.keyword) n (i + j) e d)
    (fun y _ _ hy => lands_nextArm hb y hy.1 hy.2) ⟨hx, .arm h⟩

theorem eq_endIf_of_mem {keyword : Keyword} (hmem : keyword ∈ armClosers)
    (helif : keyword ≠ .elifWord) (helse : keyword ≠ .elseWord) : keyword = .endIf := by
  simp only [armClosers, List.mem_cons, List.not_mem_nil, or_false] at hmem
  rcases hmem with h | h | h
  · exact absurd h helif
  · exact absurd h helse
  · exact h

theorem lands_ifTag (hp : body.PieceWise) (hb : body.Sound n) (hw : b.ReadsWord .ifWord c) :
    Lands (ifTag n body opening) c fun _ k d => Derives .tag n k b d := by
  refine Lands.lift_bind (lands_lastExpression c) settles_lastExpression fun condition e he => ?_
  refine (hb armClosers e).bind fun x i f hx => ?_
  obtain ⟨first, closing⟩ := x
  refine (lands_arms hp hb hx.1 hx.2).bind fun y j g hy => ?_
  obtain ⟨arms, closing⟩ := y
  obtain ⟨hmem, helif, hg⟩ := hy
  dsimp only at hmem helif hg ⊢
  split
  · next hk =>
    rw [hk] at hg
    refine Lands.discard_lift_bind (lands_endTag g) settles_endTag fun _ u hu => ?_
    refine hb.bind fun y k v hv => lands_end fun d hd => ?_
    have htag := Derives.ifElseTag hw he hg hu hv hd
    rwa [Nat.add_assoc] at htag
  · next hk =>
    rw [eq_endIf_of_mem hmem helif hk] at hg
    exact lands_end fun d hd => .ifTag hw he hg hd

theorem lands_forTag (hb : body.Sound n) (hw : b.ReadsWord .forWord c) :
    Lands (forTag n body opening) c fun _ k d => Derives .tag n k b d := by
  refine Lands.lift_bind (lands_loopHead c) settles_loopHead fun head e he => ?_
  obtain ⟨target, iterable, condition⟩ := head
  refine (hb [.elseWord, .endFor] e).bind fun x j f hx => ?_
  obtain ⟨main, closing⟩ := x
  obtain ⟨hmem, hf⟩ := hx
  dsimp only at hmem hf ⊢
  split
  · next hk =>
    rw [hk] at hf
    refine Lands.discard_lift_bind (lands_endTag f) settles_endTag fun _ g hg => ?_
    exact hb.bind fun y k h hh => lands_end fun d hd => .forElseTag hw he hf hg hh hd
  · next hk =>
    have hend : closing.keyword = .endFor := by
      simp only [List.mem_cons, List.not_mem_nil, or_false] at hmem
      exact hmem.resolve_left hk
    rw [hend] at hf
    exact lands_end fun d hd => .forTag hw he hf hd

theorem lands_callTag (hb : body.Sound n) (hw : b.ReadsWord .callWord c) :
    Lands (callTag n body opening) c fun _ k d => Derives .tag n k b d :=
  Lands.lift_bind (lands_callHead c) settles_callHead fun _ _ he => hb.bind fun _ _ _ hf =>
    lands_end fun _ hd => .callTag hw he hf hd

theorem lands_filterTag (hb : body.Sound n) (hw : b.ReadsWord .filterWord c) :
    Lands (filterTag n body opening) c fun _ k d => Derives .tag n k b d :=
  Lands.lift_bind (lands_lastExpression c) settles_lastExpression fun _ _ he =>
    hb.bind fun _ _ _ hf => lands_end fun _ hd => .filterTag hw he hf hd

theorem lands_blockTag (hb : body.Sound n) (hw : b.ReadsWord .blockWord c) :
    Lands (blockTag body opening) c fun _ k d => Derives .tag n k b d := by
  refine Lands.lift_bind (lands_blockHead c) settles_blockHead fun name e he => ?_
  refine hb.bind fun x k f hf => ?_
  refine Lands.lift_bind (lands_blockEnd f name.value) (settles_blockEnd _) fun close d hd => ?_
  exact Lands.silent_bind (silent_define _) fun _ => Lands.pure (.blockTag hw he hf hd)

theorem lands_macroTag (hb : body.Sound n) (hw : b.ReadsWord .macroWord c) :
    Lands (macroTag n body opening) c fun _ k d => Derives .tag n k b d := by
  refine Lands.lift_bind (lands_macroHead c) settles_macroHead fun head e he => ?_
  refine hb.bind fun x k f hf => ?_
  refine Lands.discard_lift_bind (lands_endTag f) settles_endTag fun _ d hd => ?_
  exact Lands.silent (silent_define _) fun _ => .macroTag hw he hf hd

/-- A draft that is not refused a parent had none. -/
theorem lands_extendsTag (hw : b.ReadsWord .extendsWord c) :
    Lands (extendsTag n) c fun _ k d => Derives .tag n k b d := by
  refine Lands.lift_bind (lands_lastExpression c) settles_lastExpression fun target d hd => ?_
  intro p s ⟨hs, hparents⟩
  rw [run_bind, run_setParent]
  by_cases hparent : s.parent.isSome
  · rw [if_pos hparent]
    trivial
  · rw [if_neg hparent]
    refine ⟨1, d, hs, ?_, .extendsTag hw hd⟩
    simp [parents, hparent, ← hparents]

/-- Every tag that is read is one of the grammar. -/
theorem lands_tag (hp : body.PieceWise) (hb : body.Sound n) {name : Identifier}
    (hw : b.Reads (.identifier name.value) c) :
    Lands (tag n body opening name) c fun _ k d => Derives .tag n k b d := by
  have hpush {x : Statement} {j : Nat} {d : Cursor} (hd : Derives .tag n j b d) :
      Lands (push x) d fun _ k d => Derives .tag n (j + k) b d :=
    Lands.silent (silent_push x) fun _ => hd
  have word {k : Keyword} (hk : Keyword.ofSpelling? name.value = some k) : b.ReadsWord k c := by
    rw [Keyword.ofSpelling?_eq_some_iff.mp hk] at hw
    exact hw
  unfold tag
  split
  · next hk => exact (lands_ifTag hp hb (word hk)).bind fun _ _ _ hd => hpush hd
  · next hk => exact (lands_forTag hb (word hk)).bind fun _ _ _ hd => hpush hd
  · next hk =>
    exact Lands.lift_bind (lands_setTag c opening) settles_setTag fun _ _ hd =>
      Lands.silent (silent_push _) fun _ => .setTag (word hk) hd
  · next hk => exact (lands_callTag hb (word hk)).bind fun _ _ _ hd => hpush hd
  · next hk => exact (lands_filterTag hb (word hk)).bind fun _ _ _ hd => hpush hd
  · next hk => exact (lands_blockTag hb (word hk)).bind fun _ _ _ hd => hpush hd
  · next hk => exact lands_macroTag hb (word hk)
  · next hk => exact lands_extendsTag (word hk)
  · exact Lands.throw _

end Tags

/-- Text, and the placeable or the tag behind it. -/
def SpansPiece (n k : Nat) (c e : Cursor) : Prop :=
  ∃ d, c.behindText.Opens .beginPut d ∧ SpansPlaceable n d e ∧ k = 0 ∨
    c.behindText.Opens .beginTag d ∧ Derives .tag n k d e

/-- What was read of a piece: text up to the end of the source, text and the keyword of a tag that
closes the contents, or a whole piece. -/
def PieceRead (n : Nat) (closers : List Keyword) (c : Cursor) :
    ForInStep (Option Closing) → Nat → Cursor → Prop
  | .done none, k, e => k = 0 ∧ e = c.behindText ∧ e.rest = []
  | .done (some closing), k, e => k = 0 ∧ closing.keyword ∈ closers ∧
    ∃ d, c.behindText.Opens .beginTag d ∧ d.ReadsWord closing.keyword e
  | .yield _, k, e => SpansPiece n k c e

/-- Contents that were read: up to the end of the text, or as far as a keyword that closes them. -/
def Contained (n : Nat) (closers : List Keyword) (c : Cursor) :
    Option Closing → Nat → Cursor → Prop
  | none, k, d => Derives .contents n k c d ∧ d.rest = []
  | some closing, k, d =>
    closing.keyword ∈ closers ∧ Derives (.body closing.keyword) (n + 1) k c d

section Bodies
variable {n : Nat} {body : BodyReader} {closers : List Keyword} {c : Cursor}

theorem lands_piece (hp : body.PieceWise) (hb : body.Sound n) :
    Lands (piece n body closers) c (PieceRead n closers c) := by
  refine Lands.opening_bind (fun hend => Lands.pure ⟨rfl, rfl, hend⟩) fun l s d hl ho => ?_
  dsimp only
  split
  · next hs =>
    rw [hl] at hs
    cases hs
    refine Lands.lift_bind (lands_placeable d l.span) settles_placeable fun x e he => ?_
    exact Lands.silent_bind (silent_push x) fun _ => Lands.pure ⟨d, .inl ⟨ho, he, rfl⟩⟩
  · next hs =>
    rw [hl] at hs
    cases hs
    refine Lands.lift_bind Reader.Lands.expectName Reader.Settles.expectName fun name e he => ?_
    refine Lands.silent_bind (silent_note _) fun _ => ?_
    split
    · next keyword hk =>
      have hmem := List.mem_of_find?_eq_some hk
      have hname : keyword.spelling = name.value := by simpa using List.find?_some hk
      rw [← hname] at he
      exact Lands.pure ⟨rfl, hmem, d, ho, he⟩
    · exact (lands_tag hp hb he).bind fun _ k f hf => Lands.pure ⟨d, .inr ⟨ho, hf⟩⟩
  · exact Lands.throw _

/-- A piece is added to the contents before it. -/
theorem PieceRead.onPass {j k : Nat} {d e : Cursor} (hd : Derives .contents n j c d)
    {x : ForInStep (Option Closing)} (h : PieceRead n closers d x k e) :
    OnPass (fun b => Contained n closers c b (j + k))
      (fun _ => Derives .contents n (j + k) c) x e := by
  have htext := Derives.text hd
  cases x with
  | done found =>
    cases found with
    | none =>
      obtain ⟨rfl, rfl, hend⟩ := h
      exact ⟨htext, hend⟩
    | some closing =>
      obtain ⟨rfl, hmem, f, ho, hw⟩ := h
      exact ⟨hmem, .body htext ho hw⟩
  | yield b =>
    obtain ⟨f, ⟨ho, hx, rfl⟩ | ⟨ho, ht⟩⟩ := h
    · exact .placeable htext ho hx
    · exact .tag htext ho ht

theorem lands_content (hp : body.PieceWise) (hb : body.Sound n) (closers : List Keyword)
    (c : Cursor) : Lands (content n body closers) c (Contained n closers c) :=
  Lands.loop (descends_piece hp closers) (I := fun _ k d => Derives .contents n k c d)
    (fun _ _ _ hd => (lands_piece hp hb).mono fun _ _ _ h => h.onPass hd) .nothing

/-- The readers of bodies pass bodies of the grammar at every level. -/
theorem sound_body (n : Nat) : (Draft.body n).Sound n := by
  induction n with
  | zero => exact fun closers c => Lands.silent_bind silent_position fun _ => Lands.throw _
  | succ n ih =>
    intro closers c
    have hopen : Lands openBody c fun _ k d => k = 0 ∧ d = c :=
      fun p s hs => ⟨0, c, hs.1, hs.2, rfl, rfl⟩
    refine hopen.bind fun _ k d hd => ?_
    obtain ⟨rfl, rfl⟩ := hd
    refine (lands_content (pieceWise_body n) ih closers d).bind fun found k e he => ?_
    cases found with
    | none => exact Lands.silent_bind silent_position fun _ => Lands.throw _
    | some closing =>
      have hclose : Lands (closeBody closing.opening.start) e fun _ k d => k = 0 ∧ d = e := by
        intro p s hs
        rw [closeBody, run_modifyGet]
        cases hb : s.enclosing with
        | nil => exact ⟨0, e, hs.1, hs.2, rfl, rfl⟩
        | cons outer others => exact ⟨0, e, hs.1, hs.2, rfl, rfl⟩
      refine hclose.bind fun scope j f hf => ?_
      obtain ⟨rfl, rfl⟩ := hf
      refine Lands.pure ?_
      simpa only [Contained, Nat.zero_add, Nat.add_zero] using he

theorem lands_readAll (c : Cursor) :
    Lands readAll c fun _ k d => Derives .contents depthLimit k c d ∧ d.rest = [] := by
  refine (lands_content (pieceWise_body _) (sound_body _) [] _).bind fun found k e he => ?_
  cases found with
  | none => exact Lands.pure he
  | some closing => exact absurd he.1 (by simp)

/-- Reading all leaves nothing. -/
theorem rest_of_readAll {s d : Draft} (hp : s.reader.peeked = none) (h : readAll s = .ok () d) :
    d.reader.cursor.rest = [] := by
  obtain ⟨k, e, ⟨-, rfl⟩, -, -, hrest⟩ :=
    (lands_readAll s.reader.cursor s.parents).ok ⟨⟨hp, rfl⟩, rfl⟩ h
  exact hrest

/-- A text that is read to its end is a template. -/
theorem isTemplate_of_readAll {text : String} {d : Draft}
    (h : readAll (.ofText text) = .ok () d) : IsTemplate text := by
  obtain ⟨k, e, -, hk, hd, hrest⟩ := (lands_readAll _ 0).ok ⟨⟨rfl, rfl⟩, rfl⟩ h
  refine ⟨k, e, hd, ?_, hrest⟩
  have hle := d.parents_le_one
  omega

end Bodies
end TemplateSyntax.Draft
