import TemplateSyntax.Proofs.Landing
import TemplateSyntax.Proofs.Lookahead

/-!
# Where drafts land

Between tags no token is kept back, so a draft stands at the cursor of its reader. `Lands` and
`Passes` say of drafts what they say of readers, and count the templates that are named to be
extended on the way: a draft holds at most one.
-/
namespace TemplateSyntax

namespace Cursor

/-- Where a tag or a placeable opens, its symbol stands right there. -/
theorem exists_opens {c : Cursor} (h : opensTag c.rest = true) :
    ∃ s d, Symbol.Opens s ∧ c.Opens s d := by
  obtain ⟨hskip, s, hs, hpiece⟩ := nextPiece_of_opensTag true h
  refine ⟨s, c.behindNext true, hs, ?_, c.nextSpan true, ?_⟩
  · have htaken := Piece.prefix_first true c.skipBlanks.rest
    have hp : Piece.first true c.skipBlanks.rest = c.nextPiece true := rfl
    rw [hp, hpiece, hskip] at htaken
    exact htaken
  · rw [next_eq, hpiece]

theorem Opens.opensTag {c d : Cursor} {s : Symbol} (hs : s.Opens) (h : c.Opens s d) :
    opensTag c.rest = true := by
  have hp := List.isPrefixOf_iff_prefix.mpr h.1
  rcases hs with rfl | rfl
  · simp [TemplateSyntax.opensTag, hp]
  · simp [TemplateSyntax.opensTag, hp]

/-- Behind the symbol that opens a tag or a placeable the rest begins at once. -/
theorem Opens.rest_eq {c d : Cursor} {s : Symbol} (hs : s.Opens) (h : c.Opens s d) :
    c.rest = s.spelling.toList ++ d.rest := by
  obtain ⟨hskip, s', -, hpiece⟩ := nextPiece_of_opensTag true (h.opensTag hs)
  obtain ⟨-, span, hnext⟩ := h
  obtain ⟨htoken, -, rfl⟩ := next_eq_ok hnext
  rw [hpiece] at htoken
  have hrest := c.skipBlanks_rest_eq true
  rw [hskip, hpiece, Token.symbol.inj (Except.ok.inj htoken)] at hrest
  exact hrest

theorem textRun_behindText (c : Cursor) : textRun c.behindText.rest = [] := by
  rcases c.behindText_rest with h | h
  · rw [h]
    rfl
  · cases hr : c.behindText.rest with
    | nil => rfl
    | cons a rest => rw [textRun, ← hr, if_pos h]

theorem behindText_of_textRun {c : Cursor} (h : textRun c.rest = []) : c.behindText = c := by
  rw [behindText, h]
  rfl

theorem behindText_behindText (c : Cursor) : c.behindText.behindText = c.behindText :=
  behindText_of_textRun c.textRun_behindText

theorem Opens.behindText {c d : Cursor} {s : Symbol} (hs : s.Opens) (h : c.Opens s d) :
    c.behindText = c := by
  refine behindText_of_textRun ?_
  cases hr : c.rest with
  | nil => rfl
  | cons a rest => rw [textRun, ← hr, if_pos (h.opensTag hs)]

end Cursor

namespace Draft
variable {α β : Type}

/-- The draft reads on from the cursor, and no token is kept back. -/
def At (s : Draft) (c : Cursor) : Prop := s.reader.peeked = none ∧ s.reader.cursor = c

/-- The number of templates that are extended. -/
def parents (s : Draft) : Nat := if s.parent.isSome then 1 else 0

theorem parents_le_one (s : Draft) : s.parents ≤ 1 := by
  unfold parents
  split <;> omega

theorem behindText_of_textRun {s : Draft} (h : textRun s.reader.cursor.rest = []) :
    s.behindText = s := by
  have hcursor := Cursor.behindText_of_textRun h
  simp [behindText, h, hcursor]

/-- Text that was read is not read again. -/
theorem behindText_behindText (s : Draft) : s.behindText.behindText = s.behindText :=
  behindText_of_textRun s.reader.cursor.textRun_behindText

theorem At.behindText {s : Draft} {c : Cursor} (h : s.At c) : s.behindText.At c.behindText := by
  obtain ⟨hp, rfl⟩ := h
  exact ⟨hp, rfl⟩

theorem opening_of_end {s : Draft} {c : Cursor} (hs : s.At c) (h : c.behindText.rest = []) :
    opening s = .ok none s.behindText := by
  obtain ⟨-, rfl⟩ := hs
  rw [run_opening, if_pos (by simp [Cursor.atEnd, h])]

theorem opening_of_opens {s : Draft} {c d : Cursor} {symbol : Symbol} (hs : s.At c)
    (hsym : symbol.Opens) (h : c.behindText.Opens symbol d) :
    ∃ l r, opening s = .ok (some l) { s.behindText with reader := r } ∧
      l.token = .symbol symbol ∧ r.peeked = none ∧ r.cursor = d := by
  have hend : c.behindText.atEnd = false := by
    have hopens := h.opensTag hsym
    cases hr : c.behindText.rest with
    | nil => simp [hr, opensTag, Symbol.spelling] at hopens
    | cons a rest => simp [Cursor.atEnd, hr]
  obtain ⟨-, span, hnext⟩ := h
  have hat : s.behindText.reader.At c.behindText := .inl hs.behindText
  obtain ⟨r, hr, hp, hd⟩ := hat.next hnext
  refine ⟨⟨.symbol symbol, span⟩, r, ?_, rfl, hp, hd⟩
  rw [run_opening, hs.2, hend, if_neg Bool.false_ne_true, hr]

/-- Where no token is looked at, text is read up to the end of the source, or up to a symbol that
opens a tag or a placeable right there. -/
theorem opening_cases {s : Draft} (hp : s.reader.peeked = none) :
    s.reader.cursor.behindText.rest = [] ∧ opening s = .ok none s.behindText ∨
    ∃ (symbol : Symbol) (l : Lexeme) (r : Reader), symbol.Opens ∧
      s.reader.cursor.behindText.Opens symbol r.cursor ∧
      opening s = .ok (some l) { s.behindText with reader := r } ∧ l.token = .symbol symbol ∧
      l.span.start = s.reader.cursor.behindText.position ∧ r.peeked = none := by
  rcases s.reader.cursor.behindText_rest with hnil | hopens
  · exact .inl ⟨hnil, opening_of_end ⟨hp, rfl⟩ hnil⟩
  · obtain ⟨symbol, d, hs, ho⟩ := Cursor.exists_opens hopens
    obtain ⟨l, r, hr, hl, hr', rfl⟩ := opening_of_opens ⟨hp, rfl⟩ hs ho
    refine .inr ⟨symbol, l, r, hs, ho, hr, hl, ?_, hr'⟩
    rw [run_opening] at hr
    split at hr
    · cases hr
    · cases hn : Reader.next s.behindText.reader with
      | error f t =>
        rw [hn] at hr
        cases hr
      | ok l' t =>
        rw [hn] at hr
        cases hr
        rcases Reader.next_eq_ok hn with ⟨hpeeked, -⟩ | ⟨-, hc, -⟩
        · exact absurd (hpeeked.symm.trans hp) (by simp)
        · rw [(Cursor.next_eq_ok hc).2.1]
          exact congrArg Cursor.position (Cursor.nextPiece_of_opensTag true hopens).1

theorem run_setParent (target : Expression) (s : Draft) :
    setParent target s =
      if s.parent.isSome then .ok false s else .ok true { s with parent := some target } := by
  rw [setParent, run_modifyGet]
  split <;> rfl

/-- If the computation succeeds for a draft at the cursor, then it comes to a place as stated, with
as many new parents as stated. -/
def Lands (m : DraftM α) (c : Cursor) (H : α → Nat → Cursor → Prop) : Prop :=
  ∀ p, Ensures (fun s => s.At c ∧ s.parents = p) m
    (fun a t => ∃ k d, t.At d ∧ t.parents = p + k ∧ H a k d) fun _ _ => True

/-- The computation succeeds for a draft at the first cursor that has room for the new parents. It
comes to the second cursor with a value as stated, and the same bodies are open around it. -/
def Passes (m : DraftM α) (c : Cursor) (k : Nat) (d : Cursor) (Q : α → Prop) : Prop :=
  ∀ s : Draft, s.At c → s.parents + k ≤ 1 → ∃ a t, m s = .ok a t ∧ Q a ∧ t.At d ∧
    t.parents = s.parents + k ∧ t.enclosing = s.enclosing

/-- The computation always succeeds, and only adds to what was read. -/
def Silent (m : DraftM α) : Prop :=
  ∀ s, ∃ a t, m s = .ok a t ∧ t.reader = s.reader ∧ t.parent = s.parent ∧
    t.enclosing = s.enclosing

theorem silent_note (e : Event) : Silent (note e) := fun _ => ⟨_, _, rfl, rfl, rfl, rfl⟩

theorem silent_push (x : Statement) : Silent (push x) := fun _ => ⟨_, _, rfl, rfl, rfl, rfl⟩

theorem silent_position : Silent position := fun _ => ⟨_, _, rfl, rfl, rfl, rfl⟩

theorem silent_define (x : Definition) : Silent (define x) := by
  intro s
  cases x with
  | ofMacro m => exact ⟨_, _, rfl, rfl, rfl, rfl⟩
  | ofBlock b => exact ⟨_, _, rfl, rfl, rfl, rfl⟩

namespace Lands
variable {m : DraftM α} {f : α → DraftM β} {c : Cursor} {G : α → Nat → Cursor → Prop}
  {H : β → Nat → Cursor → Prop}

theorem pure {b : β} (h : H b 0 c) : Lands (pure b) c H :=
  fun _ => Ensures.pure fun _ hs => ⟨0, c, hs.1, hs.2, h⟩

theorem throw (fault : Fault) : Lands (throw fault) c H :=
  fun _ => Ensures.throw fun _ _ => trivial

theorem bind (hm : Lands m c G)
    (hf : ∀ a j d, G a j d → Lands (f a) d fun b k e => H b (j + k) e) : Lands (m >>= f) c H := by
  intro p
  refine (hm p).bind fun a s hs => ?_
  obtain ⟨j, d, hd, hj, ha⟩ := hs
  have h := hf a j d ha (p + j) s ⟨hd, hj⟩
  cases hr : f a s with
  | error e t => trivial
  | ok b t =>
    rw [hr] at h
    obtain ⟨k, e, he, hk, hb⟩ := h
    exact ⟨j + k, e, he, by omega, hb⟩

theorem mono {G' : α → Nat → Cursor → Prop} (hm : Lands m c G)
    (h : ∀ a k d, G a k d → G' a k d) : Lands m c G' := by
  intro p
  refine (hm p).after fun a s hs => ?_
  obtain ⟨k, d, hd, hk, ha⟩ := hs
  exact ⟨k, d, hd, hk, h a k d ha⟩

/-- What only takes tokens names no parent. -/
theorem lift_bind {m : ReadM α} {f : α → DraftM β} {G : α → Cursor → Prop}
    (hm : Reader.Lands m c G) (hs : Reader.Settles m) (hf : ∀ a d, G a d → Lands (f a) d H) :
    Lands (liftM m >>= f) c H := by
  intro p s ⟨⟨hp, hc⟩, hparents⟩
  rw [run_bind, run_lift]
  cases hr : m s.reader with
  | error e r => trivial
  | ok a r =>
    obtain ⟨d, hd, ha⟩ := Ensures.ok hm (Or.inl ⟨hp, hc⟩) hr
    have hnone : r.peeked = none := hs _ _ _ hr
    exact hf a d ha p _ ⟨⟨hnone, hd.cursor_eq hnone⟩, hparents⟩

theorem discard_lift_bind {m : ReadM α} {f : DraftM β} {G : α → Cursor → Prop}
    (hm : Reader.Lands m c G) (hs : Reader.Settles m) (hf : ∀ a d, G a d → Lands f d H) :
    Lands (do Functor.discard (liftM m : DraftM α); f) c H := by
  rw [discard_bind]
  exact lift_bind hm hs hf

theorem silent {m : DraftM β} (hm : Silent m) (h : ∀ b, H b 0 c) : Lands m c H := by
  intro p s ⟨hs, hparents⟩
  obtain ⟨b, t, hr, hreader, hparent, -⟩ := hm s
  rw [hr]
  refine ⟨0, c, ?_, ?_, h b⟩
  · rw [At, hreader]
    exact hs
  · rw [parents, hparent]
    exact hparents

theorem silent_bind (hm : Silent m) (hf : ∀ a, Lands (f a) c H) : Lands (m >>= f) c H := by
  have h : Lands m c fun _ k d => k = 0 ∧ d = c := silent hm fun _ => ⟨rfl, rfl⟩
  refine h.bind fun a k d hd => ?_
  obtain ⟨rfl, rfl⟩ := hd
  simpa only [Nat.zero_add] using hf a

/-- Text, and the symbol that opens what stands behind it. -/
theorem opening_bind {f : Option Lexeme → DraftM β}
    (hend : c.behindText.rest = [] → Lands (f none) c.behindText H)
    (hopen : ∀ (l : Lexeme) (s : Symbol) d, l.token = .symbol s → c.behindText.Opens s d →
      Lands (f (some l)) d H) : Lands (opening >>= f) c H := by
  intro p s ⟨hs, hparents⟩
  rcases c.behindText_rest with hrest | hrest
  · rw [run_bind_ok (opening_of_end hs hrest)]
    exact hend hrest p _ ⟨hs.behindText, hparents⟩
  · obtain ⟨symbol, d, hsym, ho⟩ := Cursor.exists_opens hrest
    obtain ⟨l, r, hr, hl, hp, hd⟩ := opening_of_opens hs hsym ho
    rw [run_bind_ok hr]
    exact hopen l symbol d hl ho p _ ⟨⟨hp, hd⟩, hparents⟩

/-- What every pass of a loop preserves. -/
theorem loop {step : β → DraftM (ForInStep β)} (hs : Descends Draft.size step)
    {I : β → Nat → Cursor → Prop}
    (h : ∀ b j d, I b j d → Lands (step b) d fun x k e =>
      OnPass (fun b => H b (j + k)) (fun b => I b (j + k)) x e) {b : β} (hb : I b 0 c) :
    Lands (loop Draft.size step b) c H := by
  intro p
  have hloop := Ensures.loop hs (I := fun b s => ∃ k d, s.At d ∧ s.parents = p + k ∧ I b k d)
    (Q := fun b s => ∃ k d, s.At d ∧ s.parents = p + k ∧ H b k d) (E := fun _ _ => True) ?_ b
  · exact hloop.before fun s hs => ⟨0, c, hs.1, hs.2, hb⟩
  · rintro b s ⟨j, d, hd, hj, hI⟩
    have hstep := h b j d hI (p + j) s ⟨hd, hj⟩
    cases hr : step b s with
    | error f t => trivial
    | ok x t =>
      rw [hr] at hstep
      obtain ⟨k, e, he, hk, hx⟩ := hstep
      cases x with
      | done b' => exact ⟨j + k, e, he, by omega, hx⟩
      | yield b' => exact ⟨j + k, e, he, by omega, hx⟩

end Lands

namespace Passes
variable {m : DraftM α} {f : α → DraftM β} {c d e : Cursor} {j k : Nat} {P : α → Prop}
  {Q : β → Prop}

theorem pure {b : β} (h : Q b) : Passes (pure b) c 0 c Q :=
  fun s hs _ => ⟨b, s, rfl, h, hs, rfl, rfl⟩

theorem bind (hm : Passes m c j d P) (hf : ∀ a, P a → Passes (f a) d k e Q) :
    Passes (m >>= f) c (j + k) e Q := by
  intro s hs hroom
  obtain ⟨a, t, hr, ha, ht, hparents, henclosing⟩ := hm s hs (by omega)
  obtain ⟨b, u, hu, hb, hat, hparents', henclosing'⟩ := hf a ha t ht (by omega)
  exact ⟨b, u, by rw [run_bind_ok hr, hu], hb, hat, by omega, henclosing'.trans henclosing⟩

theorem lift_bind {m : ReadM α} {f : α → DraftM β} (hm : Reader.Passes m c d P)
    (hs : Reader.Settles m) (hf : ∀ a, P a → Passes (f a) d k e Q) :
    Passes (liftM m >>= f) c k e Q := by
  intro s ⟨hp, hc⟩ hroom
  obtain ⟨a, r, hr, ha, hat⟩ := hm s.reader (.inl ⟨hp, hc⟩)
  have hnone : r.peeked = none := hs _ _ _ hr
  have hlift : (liftM m : DraftM α) s = .ok a { s with reader := r } := by rw [run_lift, hr]
  rw [run_bind_ok hlift]
  exact hf a ha _ ⟨hnone, hat.cursor_eq hnone⟩ hroom

theorem discard_lift_bind {m : ReadM α} {f : DraftM β} (hm : Reader.Passes m c d P)
    (hs : Reader.Settles m) (hf : Passes f d k e Q) :
    Passes (do Functor.discard (liftM m : DraftM α); f) c k e Q := by
  rw [discard_bind]
  exact lift_bind hm hs fun _ _ => hf

theorem silent (hm : Silent m) : Passes m c 0 c fun _ => True := by
  intro s hs _
  obtain ⟨a, t, hr, hreader, hparent, henclosing⟩ := hm s
  refine ⟨a, t, hr, trivial, ?_, ?_, henclosing⟩
  · rw [At, hreader]
    exact hs
  · rw [parents, hparent, ← parents, Nat.add_zero]

theorem silent_bind (hm : Silent m) (hf : ∀ a, Passes (f a) c k e Q) :
    Passes (m >>= f) c k e Q := by
  have h : Passes (m >>= f) c (0 + k) e Q := (silent hm).bind fun a _ => hf a
  rwa [Nat.zero_add] at h

theorem opening_bind {f : Option Lexeme → DraftM β} {s : Symbol} (hs : s.Opens)
    (ho : c.Opens s d) (hf : ∀ l : Lexeme, l.token = .symbol s → Passes (f (some l)) d k e Q) :
    Passes (opening >>= f) c k e Q := by
  intro x hx hroom
  have htext : c.behindText = c := ho.behindText hs
  obtain ⟨l, r, hr, hl, hp, hd⟩ := opening_of_opens hx hs (htext.symm ▸ ho)
  rw [run_bind_ok hr]
  exact hf l hl _ ⟨hp, hd⟩ hroom

/-- A pass that asks for another one, and the loop from there. -/
theorem loop_yield {step : β → DraftM (ForInStep β)} (hs : Descends Draft.size step) {b : β}
    {P : β → Prop} (h : Passes (step b) c j d fun x => ∃ b', x = .yield b' ∧ P b')
    (hl : ∀ b', P b' → Passes (loop Draft.size step b') d k e Q) :
    Passes (loop Draft.size step b) c (j + k) e Q := by
  rw [loop_eq hs]
  refine h.bind fun x hx => ?_
  obtain ⟨b', rfl, hb'⟩ := hx
  exact hl b' hb'

/-- The last pass of a loop. -/
theorem loop_done {step : β → DraftM (ForInStep β)} (hs : Descends Draft.size step) {b : β}
    (h : Passes (step b) c k d fun x => ∃ b', x = .done b' ∧ Q b') :
    Passes (loop Draft.size step b) c k d Q := by
  rw [loop_eq hs]
  refine h.bind (k := 0) fun x hx => ?_
  obtain ⟨b', rfl, hb'⟩ := hx
  exact Passes.pure hb'

end Passes
end Draft
end TemplateSyntax
