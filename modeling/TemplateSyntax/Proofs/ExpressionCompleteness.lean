import TemplateSyntax.Proofs.ExpressionSoundness
import Mathlib.Data.List.TakeWhile

/-!
# Every expression is read

Where a phrase of the grammar reaches from one cursor to another, its reader succeeds and comes to
the same place, provided that the token there does not go on with the phrase. Loops are followed
backwards: if a loop gets from the end of a phrase to some place, then so does the reader of the
phrase.
-/
namespace TemplateSyntax

/-- The next token is no parenthesis that closes. -/
def Cursor.Starts (c : Cursor) : Prop := ∃ t d, c.Reads t d ∧ t ≠ .symbol .closeParen

/-- The next token is one of the stops. -/
def Cursor.EndsAt (stops : List String) (c : Cursor) : Prop :=
  ∃ t d, c.Reads t d ∧ t.isAnyOf stops = true

theorem Cursor.ReadsSymbol.endsAt {c d : Cursor} {s : Symbol} {stops : List String}
    (h : c.ReadsSymbol s d) (hs : s.spelling ∈ stops) : c.EndsAt stops :=
  ⟨_, d, h, by simpa [Token.isAnyOf] using hs⟩

theorem Cursor.ReadsWord.endsAt {c d : Cursor} {k : Keyword} {stops : List String}
    (h : c.ReadsWord k d) (hk : k.spelling ∈ stops) : c.EndsAt stops :=
  ⟨_, d, h, by simpa [Token.isAnyOf] using hk⟩

namespace Reader
variable {α : Type}

/-- Items are read if each of them is, up to the comma or the parenthesis behind it. -/
theorem Passes.items {item : ReadM α} {G : Cursor → Cursor → Prop}
    (hc : Consumes Reader.size item)
    (hi : ∀ c d, G c d → d.EndsAt [Symbol.comma.spelling, Symbol.closeParen.spelling] →
      c.Starts ∧ Passes item c d fun _ => True)
    {c d : Cursor} (h : Items G c d) : Passes (items item) c d fun _ => True := by
  have hs : Descends Reader.size (nextItem item) := descends_nextItem hc
  have close {c d : Cursor} (h : c.ReadsSymbol .closeParen d) (found : List α) :
      Passes (TemplateSyntax.loop Reader.size (nextItem item) found) c c fun _ => True :=
    (Passes.loop_done hs (Passes.atSymbol_true h (Passes.pure rfl))).mono fun _ _ => trivial
  have hloop : ∃ e, e.ReadsSymbol .closeParen d ∧
      ∀ found, Passes (TemplateSyntax.loop Reader.size (nextItem item) found) c e
        fun _ => True := by
    induction h with
    | close h => exact ⟨_, h, close h⟩
    | last hx h =>
      obtain ⟨⟨t, f, hr, ht⟩, hitem⟩ := hi _ _ hx (h.endsAt (by decide))
      refine ⟨_, h, fun found => Passes.loop_yield hs ?_ (close h)⟩
      refine Passes.atSymbol_false hr ht (hitem.bind fun x _ => ?_)
      exact Passes.atSymbol_true h (Passes.pure ⟨_, rfl⟩)
    | more hx hcomma _ ih =>
      obtain ⟨⟨t, f, hr, ht⟩, hitem⟩ := hi _ _ hx (hcomma.endsAt (by decide))
      obtain ⟨e, he, ih⟩ := ih
      refine ⟨e, he, fun found => Passes.loop_yield hs ?_ ih⟩
      refine Passes.atSymbol_false hr ht (hitem.bind fun x _ => ?_)
      refine Passes.atSymbol_false hcomma (by decide) ?_
      exact (Passes.expectSymbol hcomma).discard.bind fun _ _ => Passes.pure ⟨_, rfl⟩
  obtain ⟨e, he, hloop⟩ := hloop
  exact (hloop []).bind fun found _ => (Passes.expectSymbol he).bind fun _ _ => Passes.pure trivial

end Reader

namespace Phrase

/-- The operators of an operation bind tighter than a filter. -/
theorem Derives.one_lt_rightMinimum {bars : Bool} {pending : List Binding} {n : Nat} {c d : Cursor}
    (h : Derives (.operation bars pending) n c d) : ∀ o ∈ pending, 1 < o.rightMinimum := by
  generalize hp : Phrase.operation bars pending = p at h
  induction h generalizing pending with
  | operand => cases hp; simp
  | filter => cases hp; simp
  | binary hl _ _ hb _ ih _ =>
    cases hp
    intro o ho
    rcases List.mem_cons.mp ho with rfl | ho
    · exact Operator.one_lt_rightMinimum hb
    · exact ih rfl o ((List.dropWhile_sublist _).subset ho)
  | _ => cases hp

/-- The first token of a phrase. Only a sign is a minus, and only arguments begin with the
parenthesis that closes them. -/
def Begins : Phrase → Token → Prop
  | primary, t | term, t => t ≠ .symbol .minus ∧ t ≠ .symbol .closeParen
  | operand, t | operation _ _, t => t ≠ .symbol .closeParen
  | arguments, _ => True

theorem Derives.begins {p : Phrase} {n : Nat} {c d : Cursor} (h : Derives p n c d) :
    ∃ t e, c.Reads t e ∧ p.Begins t := by
  induction h with
  | number h => exact ⟨_, _, h, by simp [Begins]⟩
  | string h _ => exact ⟨_, _, h, by simp [Begins]⟩
  | name h =>
    obtain ⟨name, h⟩ := h
    exact ⟨_, _, h, by simp [Begins]⟩
  | parens ho => exact ⟨_, _, ho, by simp [Begins]⟩
  | primary _ ih => exact ih
  | member _ _ _ ih => exact ih
  | call _ _ _ ih _ => exact ih
  | term _ _ ih =>
    obtain ⟨t, e, hr, ht⟩ := ih
    exact ⟨t, e, hr, ht.2⟩
  | sign hs _ _ =>
    rcases hs with hs | hs
    · exact ⟨_, _, hs, by simp [Begins]⟩
    · exact ⟨_, _, hs, by simp [Begins]⟩
  | operand _ ih => exact ih
  | binary _ _ _ _ _ ih _ => exact ih
  | filter _ _ _ ih _ => exact ih
  | noArgument h => exact ⟨_, _, h, trivial⟩
  | lastArgument _ _ ih =>
    obtain ⟨t, e, hr, -⟩ := ih
    exact ⟨t, e, hr, trivial⟩
  | argument _ _ _ ih _ =>
    obtain ⟨t, e, hr, -⟩ := ih
    exact ⟨t, e, hr, trivial⟩

end Phrase

/-- The next token does not go on with a term. -/
def Cursor.EndsTerm (c : Cursor) : Prop :=
  ∃ t d, c.Reads t d ∧ t ≠ .symbol .dot ∧ t ≠ .symbol .openParen

namespace Expression
open Reader Phrase

section Operations
variable {bars : Bool} {stops : List String}

theorem StopsAt.endsTerm (hs : StopsAt bars stops) {c : Cursor} (h : c.EndsAt stops) :
    c.EndsTerm := by
  obtain ⟨t, d, hr, ht⟩ := h
  refine ⟨t, d, hr, ?_, ?_⟩
  · rintro rfl
    exact hs.suffixes.1 (by simpa [Token.isAnyOf] using ht)
  · rintro rfl
    exact hs.suffixes.2 (by simpa [Token.isAnyOf] using ht)

/-- The innermost right side of an operation goes on to a place. -/
def GoesOn (n : Nat) (stops : List String) (pending : List Binding) (c d : Cursor) : Prop :=
  ∀ left, Passes (loop Reader.size
    (nextJoint (descend (n - pending.length)) stops (minimum pending)) left) c d fun _ => True

/-- All open right sides of an operation go on, each from where the one inside it ends. -/
def Resumes (n : Nat) (stops : List String) : List Binding → Cursor → Cursor → Prop
  | [], c, d => GoesOn n stops [] c d
  | b :: pending, c, e => ∃ d, GoesOn n stops (b :: pending) c d ∧ Resumes n stops pending d e

variable {n : Nat} {pending : List Binding} {c d e f : Cursor}

/-- A right side ends where the token does not go on with it. -/
theorem goesOn_refl {t : Token} (hr : c.Reads t d) (ht : joint? stops (minimum pending) t = none) :
    GoesOn n stops pending c c := by
  intro left
  have hs := descends_nextJoint (tokenWise_descend (n - pending.length)) stops (minimum pending)
  refine (Passes.loop_done hs ?_).mono fun _ _ => trivial
  refine Passes.peek_bind hr fun l hl => ?_
  rw [hl, ht]
  exact Passes.pure rfl

theorem Resumes.of_goesOn (h : ∀ f, GoesOn n stops pending d f → GoesOn n stops pending c f)
    (hr : Resumes n stops pending d e) : Resumes n stops pending c e := by
  cases pending with
  | nil => exact h e hr
  | cons b pending =>
    obtain ⟨f, hf, hr⟩ := hr
    exact ⟨f, h f hf, hr⟩

/-- Right sides that the token does not go on with are done. -/
theorem Resumes.append {t : Token} (hr : c.Reads t d) {done : List Binding}
    (hd : ∀ o ∈ done, joint? stops o.rightMinimum t = none) (h : Resumes n stops pending c e) :
    Resumes n stops (done ++ pending) c e := by
  induction done with
  | nil => exact h
  | cons o done ih =>
    exact ⟨c, goesOn_refl hr (hd o (by simp)), ih fun o' ho' => hd o' (by simp [ho'])⟩

/-- An operator that binds tightly enough, its right side, and what follows. -/
theorem goesOn_binary {t : Token} {op : Operator} {b : Binding} (hs : StopsAt bars stops)
    (hr : c.Reads t d) (hop : op.WrittenAs t) (hb : op.binding? = some b)
    (hle : minimum pending ≤ b.power) (hn : (b :: pending).length ≤ n)
    (ho : Passes (operand (descend (n - (b :: pending).length))) d e fun _ => True)
    (hg : GoesOn n stops (b :: pending) e f) {g : Cursor} (h : GoesOn n stops pending f g) :
    GoesOn n stops pending c g := by
  intro left
  have hlevel : n - pending.length = n - (b :: pending).length + 1 := by
    rw [List.length_cons] at hn ⊢
    omega
  refine Passes.loop_yield (descends_nextJoint (tokenWise_descend _) _ _) ?_ h
  refine Passes.peek_bind hr fun l hl => ?_
  rw [hl, (joint?_eq_binary_iff hs).mpr ⟨hop, hb, hle⟩, hlevel]
  refine Passes.skip hr ?_
  rw [descend_succ_bind]
  exact (ho.bind fun left _ => hg left).bind fun right _ => Passes.pure ⟨_, rfl⟩

/-- A filter, and what follows. -/
theorem goesOn_filter (hs : StopsAt true stops) (hr : c.ReadsSymbol .bar d)
    (ht : Passes (term (descend n)) d e fun _ => True) (h : GoesOn n stops [] e f) :
    GoesOn n stops [] c f := by
  intro left
  refine Passes.loop_yield (descends_nextJoint (tokenWise_descend _) _ _) ?_ h
  refine Passes.peek_bind hr fun l hl => ?_
  rw [hl, (joint?_eq_filter_iff hs).mpr ⟨rfl, rfl, by decide, rfl⟩]
  exact Passes.skip hr (ht.bind fun _ _ => Passes.pure ⟨_, rfl⟩)

/-- A term ends where no property and no call follows. -/
theorem passes_suffixes_refl (h : c.EndsTerm) (e : Expression) :
    Passes (loop Reader.size (nextSuffix (descend n)) e) c c fun _ => True := by
  obtain ⟨t, d, hr, hdot, hopen⟩ := h
  refine (Passes.loop_done (descends_nextSuffix (tokenWise_descend n)) ?_).mono fun _ _ => trivial
  exact Passes.atSymbol_false hr hdot (Passes.atSymbol_false hr hopen (Passes.pure rfl))

/-- Arguments in parentheses, whose readers are those of the next level. -/
theorem passes_arguments {G : Cursor → Cursor → Prop}
    (hi : ∀ c d, G c d → d.EndsAt [Symbol.comma.spelling, Symbol.closeParen.spelling] →
      c.Starts ∧
        Passes (operation (descend n) [Symbol.comma.spelling, Symbol.closeParen.spelling] 0) c d
          fun _ => True)
    (ho : c.ReadsSymbol .openParen d) (h : Items G d e) :
    Passes (arguments (descend (n + 1))) c e fun _ => True := by
  refine (Passes.expectSymbol ho).bind fun span _ => ?_
  rw [descend_succ_bind]
  exact Passes.items (consumes_operation (tokenWise_descend n) _ _) hi h

/-- At a stop no right side goes on. -/
theorem resumes_refl (h : c.EndsAt stops) : Resumes n stops pending c c := by
  obtain ⟨t, d, hr, ht⟩ := h
  have hend : Resumes n stops [] c c := goesOn_refl hr (joint?_of_isAnyOf ht)
  have hall : Resumes n stops (pending ++ []) c c :=
    hend.append hr fun o _ => joint?_of_isAnyOf ht
  rwa [List.append_nil] at hall

end Operations

/-- What the reader of a phrase does: it passes the phrase, or it goes wherever the loop at its end
goes from there. -/
def Complete : Phrase → Nat → Cursor → Cursor → Prop
  | .primary, n, c, d => Passes (primary (descend n)) c d fun _ => True
  | .term, n, c, d => ∀ e,
    (∀ x, Passes (loop Reader.size (nextSuffix (descend n)) x) d e fun _ => True) →
    Passes (term (descend n)) c e fun _ => True
  | .operand, n, c, d => d.EndsTerm → Passes (operand (descend n)) c d fun _ => True
  | .operation bars pending, n, c, d => d.EndsTerm → ∀ stops, StopsAt bars stops → ∀ e,
    Resumes n stops pending d e → Passes (operation (descend n) stops 0) c e fun _ => True
  | .arguments, n, c, d => Items (fun c d =>
    d.EndsAt [Symbol.comma.spelling, Symbol.closeParen.spelling] → c.Starts ∧
      Passes (operation (descend n) [Symbol.comma.spelling, Symbol.closeParen.spelling] 0) c d
        fun _ => True) c d

section Cases
variable {n : Nat} {c d e f : Cursor} {bars : Bool} {pending : List Binding}

/-- An operation up to one of its stops. -/
theorem Complete.operation (h : Complete (.operation bars pending) n c d) {stops : List String}
    (hs : StopsAt bars stops) (hd : d.EndsAt stops) :
    Passes (operation (descend n) stops 0) c d fun _ => True :=
  h (hs.endsTerm hd) stops hs d (resumes_refl hd)

theorem complete_string {raw : String} (h : c.Reads (.string raw) d)
    (hl : Text.Quoted.IsLiteral raw) : Complete .primary n c d := by
  refine (Passes.next h).bind fun l ht => ?_
  unfold primaryFrom
  simp only [ht]
  rcases stringValue_isLiteral h l.span with ⟨⟨x, hx⟩, -⟩ | ⟨-, hno⟩
  · rw [hx]
    exact Passes.pure trivial
  · exact absurd hl hno

theorem complete_parens (ho : c.ReadsSymbol .openParen d)
    (h : Complete (.operation true pending) n d e) (hc : e.ReadsSymbol .closeParen f) :
    Complete .primary (n + 1) c f := by
  refine (Passes.next ho).bind fun l ht => ?_
  unfold primaryFrom
  simp only [ht]
  rw [descend_succ_bind]
  exact (h.operation stopsAt_parens (hc.endsAt (by decide))).bind fun _ _ =>
    (Passes.expectSymbol hc).discard.bind fun _ _ => Passes.pure trivial

theorem complete_member (h : Complete .term n c d) (hd : d.ReadsSymbol .dot e)
    (hn : e.ReadsName f) : Complete .term n c f := by
  intro z hz
  refine h z fun x => Passes.loop_yield (descends_nextSuffix (tokenWise_descend n)) ?_ hz
  refine Passes.atSymbol_true hd (Passes.skip hd ?_)
  exact (Passes.variableName hn).bind fun _ _ => Passes.pure ⟨_, rfl⟩

theorem complete_call (h : Complete .term (n + 1) c d) (ho : d.ReadsSymbol .openParen e)
    (ha : Complete .arguments n e f) : Complete .term (n + 1) c f := by
  intro z hz
  refine h z fun x => Passes.loop_yield (descends_nextSuffix (tokenWise_descend _)) ?_ hz
  refine Passes.atSymbol_false ho (by decide) (Passes.atSymbol_true ho ?_)
  exact (passes_arguments (fun _ _ h => h) ho ha).bind fun _ _ => Passes.pure ⟨_, rfl⟩

theorem complete_term (hn : ∀ e, ¬ c.ReadsWord .notWord e) (h : Derives .term n c d)
    (ih : Complete .term n c d) : Complete .operand n c d := by
  intro hd
  obtain ⟨t, e, hr, ht⟩ := h.begins
  have hsign : sign? t = none := by
    rw [← Option.not_isSome_iff_eq_none, sign?_isSome_iff]
    rintro (rfl | rfl)
    · exact ht.1 rfl
    · exact hn e hr
  refine Passes.peek_bind hr fun l hl => ?_
  rw [hl, hsign]
  exact ih d (passes_suffixes_refl hd)

theorem complete_sign (hs : c.ReadsSymbol .minus d ∨ c.ReadsWord .notWord d)
    (h : Complete .operand n d e) : Complete .operand (n + 1) c e := by
  intro he
  have hsign : ∃ t, c.Reads t d ∧ (sign? t).isSome := by
    rcases hs with hs | hs
    · exact ⟨_, hs, by decide⟩
    · exact ⟨_, hs, by decide⟩
  obtain ⟨t, hr, ht⟩ := hsign
  obtain ⟨op, hop⟩ := Option.isSome_iff_exists.mp ht
  refine Passes.peek_bind hr fun l hl => ?_
  rw [hl, hop]
  refine Passes.skip hr ?_
  rw [descend_succ_bind]
  exact (h he).bind fun _ _ => Passes.pure trivial

theorem complete_binary {token : Token} {op : Operator} {b : Binding}
    (hl : Complete (.operation bars pending) (n + (push b pending).length) c d)
    (ht : d.Reads token e) (hop : op.WrittenAs token) (hb : op.binding? = some b)
    (hr : Complete .operand n e f) :
    Complete (.operation bars (push b pending)) (n + (push b pending).length) c f := by
  intro hf stops hs z hz
  obtain ⟨g, hg, hz⟩ := hz
  refine hl ⟨token, e, ht, hop.ne_suffix⟩ stops hs z ?_
  have hlevel : n + (push b pending).length - (push b pending).length = n := Nat.add_sub_cancel _ _
  have hright : Passes (operand (descend (n + (push b pending).length - (push b pending).length)))
      e f fun _ => True := by
    rw [hlevel]
    exact hr hf
  have hopen := hz.of_goesOn fun z hz => goesOn_binary hs ht hop hb (minimum_dropWhile_le b pending)
    (Nat.le_add_left _ _) hright hg hz
  -- The operators that the new one ends stand before those that stay open.
  have hall : Resumes (n + (push b pending).length) stops
      (pending.takeWhile (fun o => b.power < o.rightMinimum) ++
        pending.dropWhile fun o => b.power < o.rightMinimum) d z := by
    refine hopen.append ht fun o ho => ?_
    have hlt := List.mem_takeWhile_imp ho
    exact joint?_eq_none_of_lt (Joint.ofToken?_eq_binary_iff.mpr hop) hb (by simpa using hlt)
  rwa [List.takeWhile_append_dropWhile] at hall

theorem complete_filter (h : Derives (.operation true pending) n c d)
    (hl : Complete (.operation true pending) n c d) (hb : d.ReadsSymbol .bar e)
    (ht : Complete .term n e f) : Complete (.operation true []) n c f := by
  intro hf stops hs z hz
  refine hl ⟨_, e, hb, by decide, by decide⟩ stops hs z ?_
  have hterm : Passes (term (descend n)) e f fun _ => True := ht f (passes_suffixes_refl hf)
  have hfirst : Resumes n stops [] d z := goesOn_filter hs hb hterm hz
  have hall : Resumes n stops (pending ++ []) d z := by
    refine hfirst.append hb fun o ho => ?_
    exact joint?_eq_none_of_lt (Joint.ofToken?_eq_filter_iff.mpr rfl) rfl
      (h.one_lt_rightMinimum o ho)
  rwa [List.append_nil] at hall

/-- An operation as an item of a list. -/
theorem complete_argument (h : Derives (.operation true pending) n c d)
    (hx : Complete (.operation true pending) n c d)
    (hd : d.EndsAt [Symbol.comma.spelling, Symbol.closeParen.spelling]) : c.Starts ∧
      Passes (operation (descend n) [Symbol.comma.spelling, Symbol.closeParen.spelling] 0) c d
        fun _ => True :=
  ⟨h.begins, hx.operation stopsAt_items hd⟩

end Cases

/-- The reader of every phrase passes it. -/
theorem complete {p : Phrase} {n : Nat} {c d : Cursor} (h : Derives p n c d) :
    Complete p n c d := by
  induction h with
  | number h =>
    refine (Passes.next h).bind fun l ht => ?_
    simp only [primaryFrom, ht]
    exact Passes.pure trivial
  | string h hl => exact complete_string h hl
  | name h =>
    obtain ⟨name, h⟩ := h
    refine (Passes.next h).bind fun l ht => ?_
    simp only [primaryFrom, ht]
    exact Passes.pure trivial
  | parens ho _ hc ih => exact complete_parens ho ih hc
  | primary _ ih => exact fun e he => Passes.bind ih fun x _ => he x
  | member _ hd hn ih => exact complete_member ih hd hn
  | call _ ho _ ih iha => exact complete_call ih ho iha
  | term hn h ih => exact complete_term hn h ih
  | sign hs _ ih => exact complete_sign hs ih
  | operand _ ih => exact fun hd stops hs e he => (ih hd).bind fun x _ => he x
  | binary _ ht hop hb _ ihl ihr => exact complete_binary ihl ht hop hb ihr
  | filter hl hb _ ihl iht => exact complete_filter hl ihl hb iht
  | noArgument h => exact .close h
  | lastArgument ha h ih => exact .last (complete_argument ha ih) h
  | argument ha hc _ ih ihs => exact .more (complete_argument ha ih) hc ihs

/-- Every expression is read up to a stop. -/
theorem passes_read {n : Nat} {c d : Cursor} {bars : Bool} {pending : List Binding}
    {stops : List String} (h : Derives (.operation bars pending) n c d) (hs : StopsAt bars stops)
    (hd : d.EndsAt stops) : Passes (read n stops) c d fun _ => True :=
  (complete h).operation hs hd

theorem passes_readFilter {n : Nat} {c d : Cursor} (h : Derives .term n c d) (hd : d.EndsTerm) :
    Passes (readFilter n) c d fun _ => True :=
  complete h d (passes_suffixes_refl hd)

theorem passes_spansArguments {n : Nat} {c d : Cursor} (h : SpansArguments n c d) :
    Passes (arguments (descend n)) c d fun _ => True := by
  obtain ⟨m, e, rfl, ho, ha⟩ := h
  exact passes_arguments (fun _ _ h => h) ho (complete ha)

end Expression
end TemplateSyntax
