import TemplateSyntax.Proofs.Grammar
import TemplateSyntax.Proofs.Progress

/-!
# Where readers land

A token that was looked at and not taken still belongs to what is left, so a reader is `At` a cursor
that may stand before its own. `Lands` says what holds of the place that a reader comes to if it
succeeds, and `Passes` that it does succeed and comes to a given place. Both are proved along the
parts of a reader.
-/
namespace TemplateSyntax

/-- There is only one next token. -/
theorem Cursor.Reads.unique {c d e : Cursor} {t u : Token} (ht : c.Reads t d) (hu : c.Reads u e) :
    t = u ∧ d = e := by
  obtain ⟨_, ht⟩ := ht
  obtain ⟨_, hu⟩ := hu
  rw [ht] at hu
  cases hu
  exact ⟨rfl, rfl⟩

namespace Reader

/-- The reader reads on from the cursor: it stands there, or has only looked at the next token. -/
def At (r : Reader) (c : Cursor) : Prop :=
  r.peeked = none ∧ r.cursor = c ∨ ∃ l, r.peeked = some l ∧ c.next true = (.ok l, r.cursor)

theorem At.next_eq_ok {r t : Reader} {c : Cursor} {l : Lexeme} (h : r.At c)
    (hn : next r = .ok l t) : c.next true = (.ok l, t.cursor) ∧ t.peeked = none := by
  rcases h with ⟨hp, rfl⟩ | ⟨l', hp, hc⟩
  · rcases Reader.next_eq_ok hn with ⟨hp', -⟩ | ⟨-, hc, rfl⟩
    · rw [hp] at hp'
      cases hp'
    · exact ⟨hc, hp⟩
  · rw [next_of_peeked hp] at hn
    cases hn
    exact ⟨hc, rfl⟩

theorem At.next {r : Reader} {c d : Cursor} {l : Lexeme} (h : r.At c)
    (hc : c.next true = (.ok l, d)) :
    ∃ t : Reader, Reader.next r = .ok l t ∧ t.peeked = none ∧ t.cursor = d := by
  rcases h with ⟨hp, rfl⟩ | ⟨l', hp, hc'⟩
  · have hd := Cursor.next_snd true r.cursor
    rw [hc] at hd
    refine ⟨r.fetched, ?_, hp, hd.symm⟩
    rw [next_of_not_peeked hp, hc]
  · rw [hc] at hc'
    cases hc'
    exact ⟨_, next_of_peeked hp, rfl, rfl⟩

theorem At.cursor_eq {r : Reader} {c : Cursor} (h : r.At c) (hp : r.peeked = none) :
    r.cursor = c := by
  rcases h with ⟨-, hc⟩ | ⟨l, hl, -⟩
  · exact hc
  · rw [hp] at hl
    cases hl

/-- A token that is looked at is kept back. -/
theorem peeked_of_peek {r t : Reader} {l : Lexeme} (h : peek r = .ok l t) : t.peeked = some l := by
  rw [run_peek] at h
  cases hn : Reader.next r with
  | error f u =>
    rw [hn] at h
    cases h
  | ok l' u =>
    rw [hn] at h
    cases h
    rfl

/-- A token that is kept back is found again by looking. -/
theorem peek_of_peeked {r : Reader} {l : Lexeme} (h : r.peeked = some l) : peek r = .ok l r := by
  rw [run_peek, next_of_peeked h]
  obtain ⟨cursor, peeked, fetches⟩ := r
  cases h
  rfl

theorem At.peek_eq_ok {r t : Reader} {c : Cursor} {l : Lexeme} (h : r.At c)
    (hp : peek r = .ok l t) : c.next true = (.ok l, t.cursor) := by
  rw [run_peek] at hp
  cases hn : Reader.next r with
  | error f u =>
    rw [hn] at hp
    cases hp
  | ok l' u =>
    rw [hn] at hp
    cases hp
    exact (h.next_eq_ok hn).1

/-- All places that a reader may be at have the same next token. -/
theorem At.next_unique {r : Reader} {c d : Cursor} (hc : r.At c) (hd : r.At d) :
    d.next true = c.next true := by
  rcases hc with ⟨hp, rfl⟩ | ⟨l, hp, hc⟩
  · rw [hd.cursor_eq hp]
  · rcases hd with ⟨hp', -⟩ | ⟨l', hp', hd⟩
    · rw [hp] at hp'
      cases hp'
    · rw [hp] at hp'
      cases hp'
      rw [hc, hd]

variable {α β : Type}

theorem atSymbol_bind_eq (s : Symbol) (f : Bool → ReadM β) :
    atSymbol s >>= f = peek >>= fun l => f (l.token == .symbol s) := by
  rw [atSymbol, bind_assoc]
  simp only [pure_bind]

theorem atKeyword_bind_eq (k : Keyword) (f : Bool → ReadM β) :
    atKeyword k >>= f = peek >>= fun l => f (l.token == .identifier k.spelling) := by
  rw [atKeyword, bind_assoc]
  simp only [pure_bind]

/-- If the computation succeeds for a reader at the cursor, then it comes to a place as stated. -/
def Lands (m : ReadM α) (c : Cursor) (H : α → Cursor → Prop) : Prop :=
  Ensures (fun r => r.At c) m (fun a t => ∃ d, t.At d ∧ H a d) fun _ _ => True

/-- The computation succeeds for a reader at the first cursor, and comes to the second one with a
value as stated. -/
def Passes (m : ReadM α) (c d : Cursor) (Q : α → Prop) : Prop :=
  ∀ r : Reader, r.At c → ∃ a t, m r = .ok a t ∧ Q a ∧ t.At d

namespace Lands
variable {m : ReadM α} {f : α → ReadM β} {c : Cursor} {G : α → Cursor → Prop}
  {H : β → Cursor → Prop}

theorem pure {b : β} (h : H b c) : Lands (pure b) c H :=
  Ensures.pure fun _ hr => ⟨c, hr, h⟩

theorem throw (fault : Fault) : Lands (throw fault) c H := Ensures.throw fun _ _ => trivial

theorem bind (hm : Lands m c G) (hf : ∀ a d, G a d → Lands (f a) d H) : Lands (m >>= f) c H :=
  Ensures.bind hm fun a r hr => by
    obtain ⟨d, hd, ha⟩ := hr
    exact hf a d ha r hd

theorem mono {G' : α → Cursor → Prop} (hm : Lands m c G) (h : ∀ a d, G a d → G' a d) :
    Lands m c G' :=
  Ensures.after hm fun a r hr => by
    obtain ⟨d, hd, ha⟩ := hr
    exact ⟨d, hd, h a d ha⟩

/-- What is known in two ways of where a computation comes to holds together, up to the place. -/
theorem both {G H : α → Cursor → Prop} (hG : Lands m c G) (hH : Lands m c H) :
    Lands m c fun a d => G a d ∧ ∃ e, e.next true = d.next true ∧ H a e := by
  intro r hr
  have hg := hG r hr
  have hh := hH r hr
  cases hm : m r with
  | error f t => trivial
  | ok a t =>
    rw [hm] at hg hh
    obtain ⟨d, hd, hg⟩ := hg
    obtain ⟨e, he, hh⟩ := hh
    exact ⟨d, hd, hg, e, hd.next_unique he, hh⟩

theorem discard {G : Cursor → Prop} (hm : Lands m c fun _ => G) :
    Lands (discard m) c fun _ => G :=
  hm.bind fun _ _ h => Lands.pure h

theorem next : Lands Reader.next c fun l d => c.Reads l.token d := by
  intro r hr
  cases hn : Reader.next r with
  | error f t => trivial
  | ok l t =>
    obtain ⟨hc, ht⟩ := hr.next_eq_ok hn
    exact ⟨t.cursor, .inl ⟨ht, rfl⟩, l.span, hc⟩

/-- Looking at a token stays at its place. -/
theorem peek_bind {f : Lexeme → ReadM β} (h : ∀ l d, c.Reads l.token d → Lands (f l) c H) :
    Lands (peek >>= f) c H := by
  refine Ensures.bind (Q := fun l t => t.At c ∧ ∃ d, c.Reads l.token d) ?_
    fun l r ⟨hr, d, hd⟩ => h l d hd r hr
  intro r hr
  rw [run_peek]
  cases hn : Reader.next r with
  | error f t => trivial
  | ok l t =>
    obtain ⟨hc, -⟩ := hr.next_eq_ok hn
    exact ⟨.inr ⟨l, rfl, hc⟩, t.cursor, l.span, hc⟩

/-- A token that is known is taken. -/
theorem next_of_reads {d : Cursor} {t : Token} (ht : c.Reads t d) :
    Lands Reader.next c fun _ e => e = d :=
  next.mono fun _ _ he => (he.unique ht).2

theorem skip {m : ReadM β} {d : Cursor} {t : Token} (ht : c.Reads t d) (hm : Lands m d H) :
    Lands (do Functor.discard Reader.next; m) c H := by
  refine (next_of_reads ht).discard.bind fun _ e he => ?_
  subst he
  exact hm

/-- Whether the next token is a given one. -/
theorem test_bind {t : Token} {f : Bool → ReadM β} (ht : ∀ d, c.Reads t d → Lands (f true) c H)
    (hf : (∀ d, ¬ c.Reads t d) → Lands (f false) c H) :
    Lands (peek >>= fun l => f (l.token == t)) c H := by
  refine peek_bind fun l d hl => ?_
  by_cases h : l.token = t
  · rw [beq_iff_eq.mpr h]
    exact ht d (h ▸ hl)
  · rw [beq_false_of_ne h]
    exact hf fun e he => h (hl.unique he).1

theorem atSymbol_bind {s : Symbol} {f : Bool → ReadM β}
    (ht : ∀ d, c.ReadsSymbol s d → Lands (f true) c H)
    (hf : (∀ d, ¬ c.ReadsSymbol s d) → Lands (f false) c H) : Lands (atSymbol s >>= f) c H := by
  rw [atSymbol_bind_eq]
  exact test_bind ht hf

theorem atKeyword_bind {k : Keyword} {f : Bool → ReadM β}
    (ht : ∀ d, c.ReadsWord k d → Lands (f true) c H) (hf : Lands (f false) c H) :
    Lands (atKeyword k >>= f) c H := by
  rw [atKeyword_bind_eq]
  exact test_bind ht fun _ => hf

theorem expectSymbol (s : Symbol) : Lands (expectSymbol s) c fun _ d => c.ReadsSymbol s d := by
  refine next.bind fun l d hl => ?_
  split
  · next hs =>
    rw [hs] at hl
    exact Lands.pure hl
  · exact Lands.throw _

theorem expectKeyword (k : Keyword) : Lands (expectKeyword k) c fun _ d => c.ReadsWord k d := by
  refine next.bind fun l d hl => ?_
  split
  · next hk =>
    rw [hk] at hl
    exact Lands.pure hl
  · exact Lands.throw _

theorem expectName : Lands expectName c fun name d => c.Reads (.identifier name.value) d := by
  refine next.bind fun l d hl => ?_
  split
  · next name hn => exact Lands.pure (hn ▸ hl)
  · exact Lands.throw _

theorem variableName : Lands variableName c fun _ d => c.ReadsName d :=
  expectName.bind fun name _ hd => Lands.pure ⟨name.value, hd⟩

/-- What every pass of a loop preserves. -/
theorem loop {step : β → ReadM (ForInStep β)} (hs : Descends Reader.size step)
    {I : β → Cursor → Prop} (h : ∀ b d, I b d → Lands (step b) d (OnPass H I)) {b : β}
    (hb : I b c) : Lands (loop Reader.size step b) c H := by
  have hloop := Ensures.loop hs (I := fun b r => ∃ d, r.At d ∧ I b d)
    (Q := fun b r => ∃ d, r.At d ∧ H b d) (E := fun _ _ => True) ?_ b
  · exact hloop.before fun r hr => ⟨c, hr, hb⟩
  · rintro b r ⟨d, hd, hI⟩
    have hstep := h b d hI r hd
    cases hr : step b r with
    | error f t => trivial
    | ok x t =>
      rw [hr] at hstep
      cases x with
      | done b' => exact hstep
      | yield b' => exact hstep

end Lands

namespace Passes
variable {m : ReadM α} {f : α → ReadM β} {c d e : Cursor} {P : α → Prop} {Q : β → Prop}

theorem pure {b : β} (h : Q b) : Passes (pure b) c c Q := fun r hr => ⟨b, r, rfl, h, hr⟩

theorem bind (hm : Passes m c d P) (hf : ∀ a, P a → Passes (f a) d e Q) :
    Passes (m >>= f) c e Q := by
  intro r hr
  obtain ⟨a, t, ht, ha, hat⟩ := hm r hr
  rw [run_bind_ok ht]
  exact hf a ha t hat

theorem mono {P' : α → Prop} (hm : Passes m c d P) (h : ∀ a, P a → P' a) : Passes m c d P' := by
  intro r hr
  obtain ⟨a, t, ht, ha, hat⟩ := hm r hr
  exact ⟨a, t, ht, h a ha, hat⟩

theorem discard (hm : Passes m c d P) : Passes (discard m) c d fun _ => True :=
  hm.bind fun _ _ => Passes.pure trivial

theorem next {t : Token} (h : c.Reads t d) : Passes Reader.next c d fun l => l.token = t := by
  intro r hr
  obtain ⟨span, hc⟩ := h
  obtain ⟨u, hu, hp, hd⟩ := hr.next hc
  exact ⟨_, u, hu, rfl, .inl ⟨hp, hd⟩⟩

theorem skip {m : ReadM β} {t : Token} (h : c.Reads t d) (hm : Passes m d e Q) :
    Passes (do Functor.discard Reader.next; m) c e Q :=
  (next h).discard.bind fun _ _ => hm

theorem peek_bind {f : Lexeme → ReadM β} {t : Token} (h : c.Reads t d)
    (hf : ∀ l : Lexeme, l.token = t → Passes (f l) c e Q) : Passes (peek >>= f) c e Q := by
  intro r hr
  obtain ⟨span, hc⟩ := h
  obtain ⟨u, hu, -, hd⟩ := hr.next hc
  have hpeek : peek r = .ok ⟨t, span⟩ { u with peeked := some ⟨t, span⟩ } := by
    rw [run_peek, hu]
  rw [run_bind_ok hpeek]
  subst hd
  exact hf _ rfl _ (.inr ⟨_, rfl, hc⟩)

theorem test_bind {t u : Token} {f : Bool → ReadM β} (h : c.Reads u d)
    (hf : Passes (f (u == t)) c e Q) : Passes (peek >>= fun l => f (l.token == t)) c e Q := by
  refine peek_bind h fun l hl => ?_
  rw [hl]
  exact hf

theorem atSymbol_true {s : Symbol} {f : Bool → ReadM β} (h : c.ReadsSymbol s d)
    (hf : Passes (f true) c e Q) : Passes (atSymbol s >>= f) c e Q := by
  rw [atSymbol_bind_eq]
  exact test_bind h (by rwa [beq_self_eq_true])

theorem atSymbol_false {s : Symbol} {f : Bool → ReadM β} {t : Token} (h : c.Reads t d)
    (ht : t ≠ .symbol s) (hf : Passes (f false) c e Q) : Passes (atSymbol s >>= f) c e Q := by
  rw [atSymbol_bind_eq]
  exact test_bind h (by rwa [beq_false_of_ne ht])

theorem atKeyword_true {k : Keyword} {f : Bool → ReadM β} (h : c.ReadsWord k d)
    (hf : Passes (f true) c e Q) : Passes (atKeyword k >>= f) c e Q := by
  rw [atKeyword_bind_eq]
  exact test_bind h (by rwa [beq_self_eq_true])

theorem atKeyword_false {k : Keyword} {f : Bool → ReadM β} {t : Token} (h : c.Reads t d)
    (ht : t ≠ .identifier k.spelling) (hf : Passes (f false) c e Q) :
    Passes (atKeyword k >>= f) c e Q := by
  rw [atKeyword_bind_eq]
  exact test_bind h (by rwa [beq_false_of_ne ht])

theorem expectSymbol {s : Symbol} (h : c.ReadsSymbol s d) :
    Passes (expectSymbol s) c d fun _ => True :=
  (next h).bind fun l hl => by
    rw [if_pos hl]
    exact Passes.pure trivial

theorem expectKeyword {k : Keyword} (h : c.ReadsWord k d) :
    Passes (expectKeyword k) c d fun _ => True :=
  (next h).bind fun l hl => by
    rw [if_pos hl]
    exact Passes.pure trivial

theorem expectName {name : String} (h : c.Reads (.identifier name) d) :
    Passes expectName c d fun x => x.value = name :=
  (next h).bind fun l hl => by
    simp only [hl]
    exact Passes.pure rfl

theorem variableName (h : c.ReadsName d) : Passes variableName c d fun _ => True := by
  obtain ⟨name, h⟩ := h
  exact (expectName h).bind fun _ _ => Passes.pure trivial

/-- A pass that asks for another one, and the loop from there. -/
theorem loop_step {step : β → ReadM (ForInStep β)} (hs : Descends Reader.size step) {b : β}
    {P : β → Prop} (h : Passes (step b) c d fun x => ∃ b', x = .yield b' ∧ P b')
    (hl : ∀ b', P b' → Passes (loop Reader.size step b') d e Q) :
    Passes (loop Reader.size step b) c e Q := by
  rw [loop_eq hs]
  refine h.bind fun x hx => ?_
  obtain ⟨b', rfl, hb⟩ := hx
  exact hl b' hb

theorem loop_yield {step : β → ReadM (ForInStep β)} (hs : Descends Reader.size step) {b : β}
    (h : Passes (step b) c d fun x => ∃ b', x = .yield b')
    (hl : ∀ b', Passes (loop Reader.size step b') d e Q) :
    Passes (loop Reader.size step b) c e Q := by
  refine loop_step hs (P := fun _ => True) (h.mono fun x hx => ?_) fun b' _ => hl b'
  obtain ⟨b', hb⟩ := hx
  exact ⟨b', hb, trivial⟩

/-- The last pass of a loop. -/
theorem loop_done {step : β → ReadM (ForInStep β)} (hs : Descends Reader.size step) {b : β}
    (h : Passes (step b) c d fun x => x = .done b) :
    Passes (loop Reader.size step b) c d fun b' => b' = b := by
  rw [loop_eq hs]
  refine h.bind fun x hx => ?_
  subst hx
  exact Passes.pure rfl

end Passes
end Reader
end TemplateSyntax
