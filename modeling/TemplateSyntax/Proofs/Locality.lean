import TemplateSyntax.Proofs.Lookahead
import TemplateSyntax.Proofs.Position
import TemplateSyntax.Proofs.Progress
import TemplateSyntax.Proofs.Session

/-!
# Reading depends on what was read

Two sources that agree up to a cut, and in the character behind it, are read alike for as long as
reading does not pass the cut. A run is `Local` if it passes the cut, or does the same on both
sources. That holds for taking a token and for reading text up to a tag, so it holds for all that is
built from these; a fault found before the cut is then found in both sources.
-/
namespace TemplateSyntax

section Runs
variable {ε σ α β : Type} {W E : σ → σ → Prop} {past : σ → Prop}

/-- Two runs end with the same value in states related by `W`, or with the same fault in states
related by `E`. -/
inductive SameEnd (W E : σ → σ → Prop) : EStateM.Result ε σ α → EStateM.Result ε σ α → Prop
  | ok (a : α) {t u : σ} (h : W t u) : SameEnd W E (.ok a t) (.ok a u)
  | error (e : ε) {t u : σ} (h : E t u) : SameEnd W E (.error e t) (.error e u)

/-- From related states the first run passes the cut, or both end the same. Once past the cut, a run
stays there. -/
structure Local (W E : σ → σ → Prop) (past : σ → Prop) (m : EStateM ε σ α) : Prop where
  keeps : Keeps past m
  same (s s' : σ) : W s s' → Ends (fun _ => past) (fun _ => past) (m s) ∨ SameEnd W E (m s) (m s')

namespace Local

theorem pure (a : α) : Local W E past (pure a : EStateM ε σ α) where
  keeps := Ensures.pure fun _ h => h
  same _ _ h := .inr (.ok a h)

theorem throw (hE : ∀ s s', W s s' → E s s') (e : ε) :
    Local W E past (throw e : EStateM ε σ α) where
  keeps := Ensures.throw fun _ h => h
  same s s' h := .inr (.error e (hE s s' h))

theorem bind {m : EStateM ε σ α} {f : α → EStateM ε σ β} (hm : Local W E past m)
    (hf : ∀ a, Local W E past (f a)) : Local W E past (m >>= f) where
  keeps := hm.keeps.bind fun a => (hf a).keeps
  same s s' h := by
    have hsame := hm.same s s' h
    rw [run_bind, run_bind]
    generalize m s = x, m s' = x' at hsame
    rcases hsame with hp | ⟨a, hW⟩ | ⟨e, hE⟩
    · left
      cases x with
      | ok a t => exact (hf a).keeps t hp
      | error e t => exact hp
    · exact (hf a).same _ _ hW
    · exact .inr (.error e hE)

/-- A loop is local if its passes are, and if they make related states smaller alike. -/
theorem loop {size : σ → Nat} {step : β → EStateM ε σ (ForInStep β)}
    (hstep : ∀ b, Local W E past (step b))
    (hsize : ∀ s s' t t', W s s' → W t t' → (size t' < size s' ↔ size t < size s)) (b : β) :
    Local W E past (loop size step b) := by
  have hkeeps (b : β) : Keeps past (TemplateSyntax.loop size step b) :=
    Keeps.loop (fun b => (hstep b).keeps) b
  refine ⟨hkeeps b, fun s s' h => ?_⟩
  induction hn : size s using Nat.strong_induction_on generalizing s s' b with
  | h n ih =>
    have hsame := (hstep b).same s s' h
    rw [TemplateSyntax.loop, TemplateSyntax.loop]
    generalize step b s = x, step b s' = x' at hsame
    rcases hsame with hp | ⟨r, hW⟩ | ⟨e, hE⟩
    · left
      cases x with
      | error e t => exact hp
      | ok r t =>
        cases r with
        | done b' => exact hp
        | yield b' =>
          dsimp only
          split
          · exact hkeeps b' t hp
          · exact hp
    · next t t' =>
      cases r with
      | done b' => exact .inr (.ok b' hW)
      | yield b' =>
        dsimp only
        rw [if_congr (hsize s s' t t' h hW) rfl rfl]
        split
        · next hlt => exact ih (size t) (hn ▸ hlt) b' t t' hW rfl
        · exact .inr (.ok b' hW)
    · exact .inr (.error e hE)

end Local
end Runs

/-! ## Sources with a cut -/

section Cut
variable {v v' : List Char}

/-- The same reader before another text. -/
def Reader.before (r : Reader) (rest : List Char) : Reader :=
  { r with cursor := r.cursor.before rest }

/-- The readers differ only in what stands behind the cut. -/
def Reader.Agree (v v' : List Char) (r r' : Reader) : Prop :=
  ∃ w, r.cursor.rest = w ++ v ∧ r' = r.before (w ++ v')

/-- Reading has passed the cut. -/
def Reader.Past (v : List Char) (r : Reader) : Prop := r.cursor.rest.length < v.length

namespace Reader

/-- Taking tokens and looking at them does not lead back over the cut. -/
theorem stable_past (v : List Char) : Stable (Past v) :=
  stable_of_reaches (P := fun c => c.rest.length < v.length) fun _ _ h hc =>
    Nat.lt_of_le_of_lt h.length_le hc

/-- Behind the cut there is a different number of characters, before it the same. -/
theorem Agree.size_eq {r r' : Reader} (h : Agree v v' r r') :
    r'.size + v.length = r.size + v'.length := by
  obtain ⟨w, hw, rfl⟩ := h
  simp only [size, before, Cursor.before, hw, List.length_append]
  omega

theorem local_next (hv : Continues v v') : Local (Agree v v') (Agree v v') (Past v) next where
  keeps := (stable_past v).next
  same := by
    rintro r _ ⟨w, hw, rfl⟩
    cases hp : r.peeked with
    | some l =>
      rw [next_of_peeked hp, next_of_peeked (r := r.before (w ++ v')) hp]
      exact .inr (.ok l ⟨w, hw, rfl⟩)
    | none =>
      rw [next_of_not_peeked hp, next_of_not_peeked (r := r.before (w ++ v')) hp]
      by_cases hle : v.length ≤ (r.cursor.behindNext true).rest.length
      · obtain ⟨x, hx, hnext⟩ := Cursor.next_append hw hv hle
        have hfirst : ((r.before (w ++ v')).cursor.next true).1 = (r.cursor.next true).1 := by
          change ((r.cursor.before (w ++ v')).next true).1 = _
          rw [hnext]
        have hbehind : (r.before (w ++ v')).cursor.behindNext true =
            (r.cursor.behindNext true).before (x ++ v') := by
          rw [← Cursor.next_snd]
          exact congrArg Prod.snd hnext
        have hagree : Agree v v' r.fetched (r.before (w ++ v')).fetched := by
          refine ⟨x, hx, ?_⟩
          rw [fetched, hbehind]
          rfl
        rw [hfirst]
        cases (r.cursor.next true).1 with
        | ok l => exact .inr (.ok l hagree)
        | error f => exact .inr (.error f hagree)
      · have hpast : r.fetched.Past v := Nat.lt_of_not_le hle
        left
        cases (r.cursor.next true).1 with
        | ok l => exact hpast
        | error f => exact hpast

theorem local_peek (hv : Continues v v') : Local (Agree v v') (Agree v v') (Past v) peek where
  keeps := (stable_past v).peek
  same r r' h := by
    have hnext := (local_next hv).same r r' h
    rw [run_peek, run_peek]
    generalize next r = x, next r' = x' at hnext
    rcases hnext with hp | ⟨l, w, hw, rfl⟩ | ⟨f, hE⟩
    · left
      cases x with
      | ok l t => exact hp
      | error f t => exact hp
    · exact .inr (.ok l ⟨w, hw, rfl⟩)
    · exact .inr (.error f hE)

end Reader

/-- What meets the text only by tokens does the same on both sources, or passes the cut. -/
theorem TokenWise.isLocal {α : Type} {m : ReadM α} (h : TokenWise m) (hv : Continues v v') :
    Local (Reader.Agree v v') (Reader.Agree v v') (Reader.Past v) m := by
  induction h with
  | pure a => exact .pure a
  | throw f => exact .throw (fun _ _ h => h) f
  | next => exact Reader.local_next hv
  | peek => exact Reader.local_peek hv
  | bind _ _ ihm ihf => exact ihm.bind ihf
  | loop _ b ih =>
    refine .loop ih (fun s s' t t' hs ht => ?_) b
    have := hs.size_eq
    have := ht.size_eq
    omega

namespace Draft

/-- The drafts differ only in what stands behind the cut. -/
def Agree (v v' : List Char) (d d' : Draft) : Prop :=
  ∃ r, Reader.Agree v v' d.reader r ∧ d' = { d with reader := r }

/-- The same, and no token was looked at and not taken. -/
def Settled (v v' : List Char) (d d' : Draft) : Prop := d.reader.peeked = none ∧ Agree v v' d d'

/-- Reading has passed the cut. -/
def Past (v : List Char) (d : Draft) : Prop := d.reader.Past v

theorem local_lift {α : Type} {m : ReadM α} (h : TokenWise m) (hs : Reader.Settles m)
    (hv : Continues v v') :
    Local (Settled v v') (Agree v v') (Past v) (liftM m : DraftM α) where
  keeps := (h.isLocal hv).keeps.lift
  same := by
    rintro d _ ⟨-, r, hr, rfl⟩
    have hsame := (h.isLocal hv).same _ _ hr
    have hsettles := hs d.reader
    rw [run_lift, run_lift]
    generalize m d.reader = x, m r = x' at hsame hsettles
    rcases hsame with hp | ⟨a, hW⟩ | ⟨f, hE⟩
    · left
      cases x with
      | ok a t => exact hp
      | error f t => exact hp
    · exact .inr (.ok a ⟨hsettles a _ rfl, _, hW, rfl⟩)
    · exact .inr (.error f ⟨_, hE, rfl⟩)

theorem local_aside {α : Type} {m : DraftM α} (h : Aside m) :
    Local (Settled v v') (Agree v v') (Past v) m := by
  obtain ⟨g, hg, rfl⟩ := h
  have hreader (d : Draft) : (g d).2.reader = d.reader :=
    congrArg (fun x => x.2.reader) (hg d d.reader rfl)
  refine ⟨fun d hd => ?_, ?_⟩
  · change (g d).2.reader.Past v
    rwa [hreader]
  · rintro d _ ⟨hp, r, hr, rfl⟩
    have hposition : r.cursor.position = d.reader.cursor.position := by
      obtain ⟨w, -, rfl⟩ := hr
      rfl
    right
    rw [run_modifyGet, run_modifyGet, hg d r hposition]
    refine .ok _ ⟨?_, r, ?_, rfl⟩
    · rwa [hreader]
    · rwa [hreader]

/-- Behind text that ends well before the cut the drafts still differ only behind the cut. -/
theorem agree_behindText {d : Draft} {w : List Char} (hw : d.reader.cursor.rest = w ++ v)
    (hne : v ≠ [])
    (hle : v.length ≤ (d.reader.cursor.behindText.behindNext true).rest.length) (v' : List Char) :
    ∃ y ≠ [], d.reader.cursor.behindText.rest = y ++ v ∧
      ({ d with reader := d.reader.before (w ++ v') } : Draft).behindText =
        { d.behindText with reader := d.behindText.reader.before (y ++ v') } := by
  obtain ⟨y, hy, hrest, htext⟩ := Cursor.text_append hw hne hle
  obtain ⟨hrun, hbehind⟩ := htext v'
  refine ⟨y, hy, hrest, ?_⟩
  simp only [behindText, Reader.before, Cursor.before_rest, hrun, hbehind, Cursor.before_position]

/-- Where no token is looked at, text is read up to the end of the source, or up to a symbol that
opens a tag or a placeable, which is then taken. -/
theorem opening_of_settled {d : Draft} (hp : d.reader.peeked = none) :
    d.reader.cursor.behindText.rest = [] ∧ opening d = .ok none d.behindText ∨
    ∃ s : Symbol, s.Opens ∧ opensTag d.reader.cursor.behindText.rest = true ∧
      opening d = .ok (some ⟨.symbol s, d.reader.cursor.behindText.nextSpan true⟩)
        { d.behindText with reader := d.behindText.reader.fetched } := by
  rw [run_opening]
  rcases d.reader.cursor.behindText_rest with hnil | hopens
  · left
    refine ⟨hnil, ?_⟩
    rw [if_pos (by simp [Cursor.atEnd, hnil])]
  · right
    obtain ⟨-, s, hs, hpiece⟩ := Cursor.nextPiece_of_opensTag true hopens
    refine ⟨s, hs, hopens, ?_⟩
    have hend : d.reader.cursor.behindText.atEnd = false := by
      cases hrest : d.reader.cursor.behindText.rest with
      | nil => simp [hrest, opensTag, Symbol.spelling] at hopens
      | cons a rest => simp [Cursor.atEnd, hrest]
    have hpeeked : d.behindText.reader.peeked = none := hp
    have hcursor : d.behindText.reader.cursor = d.reader.cursor.behindText := rfl
    rw [hend, if_neg Bool.false_ne_true, Reader.next_of_not_peeked hpeeked, hcursor,
      Cursor.next_eq, hpiece]

/-- Text and what opens behind it are read alike, unless reading passes the cut. -/
theorem local_opening (hv : Continues v v') (hne : v ≠ []) :
    Local (Settled v v') (Agree v v') (Past v) opening where
  keeps := PieceWise.opening.keeps (Reader.stable_past v) fun r hr =>
    Nat.lt_of_le_of_lt r.cursor.reaches_behindText.length_le hr
  same := by
    rintro d _ ⟨hp, _, ⟨w, hw, rfl⟩, rfl⟩
    have hpeeked : d.behindText.reader.peeked = none := hp
    rw [run_opening, run_opening]
    by_cases hle : v.length ≤ (d.reader.cursor.behindText.behindNext true).rest.length
    · obtain ⟨y, hy, hrest, hbehind⟩ := agree_behindText hw hne hle v'
      have hend : d.reader.cursor.behindText.atEnd = false := by
        simp [Cursor.atEnd, hrest, hne]
      have hend' : (d.reader.before (w ++ v')).cursor.behindText.atEnd = false := by
        have hrest' := congrArg (fun e : Draft => e.reader.cursor.rest) hbehind
        change (d.reader.before (w ++ v')).cursor.behindText.rest = y ++ v' at hrest'
        simp [Cursor.atEnd, hrest', hy]
      have hsame := (Reader.local_next hv).same d.behindText.reader
        (d.behindText.reader.before (y ++ v')) ⟨y, hrest, rfl⟩
      have hsettles := Reader.Settles.next d.behindText.reader
      simp only [hend, hend', hbehind, Bool.false_eq_true, if_false]
      generalize Reader.next d.behindText.reader = x,
        Reader.next (d.behindText.reader.before (y ++ v')) = x' at hsame hsettles
      rcases hsame with hp | ⟨l, hW⟩ | ⟨f, hE⟩
      · left
        cases x with
        | ok l t => exact hp
        | error f t => exact hp
      · exact .inr (.ok (some l) ⟨hsettles l _ rfl, _, hW, rfl⟩)
      · exact .inr (.error f ⟨_, hE, rfl⟩)
    · left
      have hpast : d.behindText.reader.fetched.Past v := Nat.lt_of_not_le hle
      split
      · next hend =>
        have hnil : d.reader.cursor.behindText.rest = [] := by simpa [Cursor.atEnd] using hend
        change d.reader.cursor.behindText.rest.length < v.length
        rw [hnil]
        exact List.length_pos_iff.mpr hne
      · rw [Reader.next_of_not_peeked hpeeked]
        cases (d.behindText.reader.cursor.next true).1 with
        | ok l => exact hpast
        | error f => exact hpast

end Draft

/-- What meets the text by tokens and text does the same on both sources, or passes the cut. -/
theorem PieceWise.isLocal {α : Type} {m : DraftM α} (h : PieceWise m) (hv : Continues v v')
    (hne : v ≠ []) : Local (Draft.Settled v v') (Draft.Agree v v') (Draft.Past v) m := by
  induction h with
  | pure a => exact .pure a
  | throw f => exact .throw (fun _ _ h => h.2) f
  | lift h hs => exact Draft.local_lift h hs hv
  | opening => exact Draft.local_opening hv hne
  | aside h => exact Draft.local_aside h
  | bind _ _ ihm ihf => exact ihm.bind ihf
  | loop _ b ih =>
    refine .loop ih (fun s s' t t' hs ht => ?_) b
    obtain ⟨-, r, hr, rfl⟩ := hs
    obtain ⟨-, u, hu, rfl⟩ := ht
    have := hr.size_eq
    have := hu.size_eq
    change u.size < r.size ↔ t.reader.size < s.reader.size
    omega

end Cut

/-! ## Faults -/

/-- Wherever a run has come to is reached from where it started. -/
theorem PieceWise.reaches {α : Type} {m : DraftM α} (h : PieceWise m) (c : Cursor) :
    Keeps (fun d : Draft => c.Reaches d.reader.cursor) m :=
  h.keeps (Reader.stable_of_reaches (P := fun e => c.Reaches e) fun _ _ hde hd => hd.trans hde)
    fun r hr => hr.trans r.cursor.reaches_behindText

/-- A fault before the end of a source is one of all sources that agree up to where reading has
stopped, and in the character there. -/
theorem Draft.readAll_error_of_agree {pre v v' : List Char} (hv : Continues v v') (hne : v ≠ [])
    {text text' : String} (htext : text.toList = pre ++ v) (htext' : text'.toList = pre ++ v')
    {f : Fault} {d : Draft} (hrun : readAll (.ofText text) = .error f d)
    (hrest : d.reader.cursor.rest = v) :
    readAll (.ofText text') =
      .error f { d with reader := d.reader.before v' } := by
  have hstart : Settled v v' (.ofText text) (.ofText text') := by
    refine ⟨rfl, _, ⟨pre, htext, rfl⟩, ?_⟩
    simp only [ofText, Cursor.ofText, htext', Reader.before, Cursor.before]
  have hsame := (pieceWise_readAll.isLocal hv hne).same _ _ hstart
  rw [hrun] at hsame
  rcases hsame with hpast | hsame
  · have : d.reader.cursor.rest.length < v.length := hpast
    rw [hrest] at this
    omega
  · generalize hr' : readAll (.ofText text') = x' at hsame
    cases hsame with
    | error _ hagree =>
      obtain ⟨r, ⟨w, hw, rfl⟩, rfl⟩ := hagree
      obtain rfl : w = [] := List.append_left_eq_self.mp (hw.symm.trans hrest)
      rfl

/-- A fault depends only on what was read: any source that agrees up to the place where reading
stopped, and in the character there, has the same fault and leaves the same behind. -/
theorem process_error_of_agree {text text' : String} {name : Option String} {e : Diagnostic}
    {s : Session} (hrun : (Session.start text name).process = (.error e, s))
    (hbefore : s.cursor.position.offset < text.utf8ByteSize)
    (hbytes : Text.takeBytes? s.cursor.position.offset text'.toList =
      Text.takeBytes? s.cursor.position.offset text.toList)
    (hchar : (Text.dropBytes? s.cursor.position.offset text'.toList).bind List.head? =
      (Text.dropBytes? s.cursor.position.offset text.toList).bind List.head?) :
    ∃ e' s', (Session.start text' name).process = (.error e', s') ∧ e.agrees e' = true ∧
      s'.cursor.position = s.cursor.position ∧ s'.context = s.context ∧ s'.macros = s.macros ∧
      s'.blocks = s.blocks := by
  obtain ⟨f, d, hfail, rfl, hs⟩ := Session.process_eq_error hrun
  have hcursor : s.cursor = d.reader.cursor := by
    rw [hs]
    rfl
  rw [hcursor] at hbefore hbytes hchar
  obtain ⟨pre, htext, hposition⟩ := Ensures.error
    (Draft.pieceWise_readAll.reaches (.ofText text)) (.refl _) hfail
  change text.toList = pre ++ d.reader.cursor.rest at htext
  have hoffset : d.reader.cursor.position.offset = String.utf8Len pre := by
    rw [hposition, Position.offset_advanceBy]
    exact Nat.zero_add _
  have hne : d.reader.cursor.rest ≠ [] := by
    intro hnil
    rw [hoffset, ← String.utf8Len_toList, htext, hnil, List.append_nil] at hbefore
    exact Nat.lt_irrefl _ hbefore
  -- The other source starts with the same characters and goes on with the same one.
  rw [hoffset, htext, Text.takeBytes?_append] at hbytes
  obtain ⟨-, v', htext'⟩ := Text.exists_of_takeBytes? hbytes
  rw [hoffset, htext, htext', Text.dropBytes?_append, Text.dropBytes?_append] at hchar
  have hv : Continues d.reader.cursor.rest v' := .inr hchar
  have hfail' := Draft.readAll_error_of_agree hv hne htext htext' hfail rfl
  subst hs
  exact ⟨_, _, Session.process_of_error (s := .start text' name) hfail',
    f.report_agrees text text' name, rfl, rfl, rfl, rfl⟩

/-- A name where a placeable should end is at fault, whatever comes behind it. -/
theorem process_error_of_agree_name :
    ∃ e s, (Session.start "a\x7b\x7b b c \x7d\x7d").process = (.error e, s) ∧
      s.cursor.position.offset = 7 ∧
      ∃ e' s', (Session.start "a\x7b\x7b b c \x7b%\n").process = (.error e', s') ∧
        e.agrees e' = true ∧ s'.cursor.position = s.cursor.position ∧ s'.context = s.context ∧
        s'.macros = s.macros ∧ s'.blocks = s.blocks := by
  cases hrun : (Session.start "a\x7b\x7b b c \x7d\x7d").process with
  | mk result s =>
    cases result with
    | ok u =>
      have hfails : (Session.start "a\x7b\x7b b c \x7d\x7d").process.1.isOk = false := by
        decide +kernel
      rw [hrun] at hfails
      cases hfails
    | error e =>
      have hoffset : s.cursor.position.offset = 7 := by
        have : (Session.start "a\x7b\x7b b c \x7d\x7d").process.2.cursor.position.offset = 7 := by
          decide +kernel
        rwa [hrun] at this
      refine ⟨e, s, rfl, hoffset, process_error_of_agree hrun ?_ ?_ ?_⟩
      · rw [hoffset]
        decide
      · rw [hoffset]
        decide +kernel
      · rw [hoffset]
        decide +kernel

end TemplateSyntax
