import TemplateSyntax.Proofs.FaultReports
import TemplateSyntax.Proofs.Scripts
import TemplateSyntax.Proofs.Tokenization

/-!
# Tokens are pulled in the order of the text

Reading tokens one by one, with strings, cuts a text into a row of entries, tokens and faults, that
ends with the end of the source for ever. A session that is asked for tokens and expressions takes
these entries in order, none twice and none left out, whatever it is asked for and whatever fails:
it answers what it would answer if the row was there before it began. At most one entry is read
ahead, and none behind a fault.
-/
namespace TemplateSyntax

/-! ## Entries -/

namespace Cursor
variable {c : Cursor}

/-- The cursor behind the first entries. -/
def behindEntries (c : Cursor) : Nat → Cursor
  | 0 => c
  | n + 1 => (c.behindEntries n).behindNext true

/-- What is found when a token is read, behind as many entries. -/
def entry (c : Cursor) (n : Nat) : Except Fault Lexeme := ((c.behindEntries n).next true).1

theorem next_behindEntries (c : Cursor) (n : Nat) :
    (c.behindEntries n).next true = (c.entry n, c.behindEntries (n + 1)) :=
  Prod.ext rfl (next_snd _ _)

/-- Behind an entry the cursor stands at its end. -/
theorem position_behindEntries (c : Cursor) (n : Nat) :
    (c.behindEntries (n + 1)).position = (resultSpan (c.entry n)).stop := by
  rw [entry, resultSpan_next]
  rfl

/-- Behind the end of the source there is nothing else. -/
theorem entry_succ_of_endOfSource {n : Nat} {l : Lexeme} (h : c.entry n = .ok l)
    (hl : l.token = .endOfSource) : c.entry (n + 1) = .ok l := by
  have hnext := c.next_behindEntries n
  rw [h] at hnext
  obtain ⟨htoken, hspan, -⟩ := next_eq_ok hnext
  rw [hl] at htoken
  have hskip := nextPiece_eq_endOfSource_iff.mp htoken
  have hrest := ((c.behindEntries n).skipBlanks_reaches_behindNext true).rest_eq_nil hskip
  have hbehind := next_of_rest_eq_nil hrest true
  have hl : l = ⟨.endOfSource, l.span⟩ := by rw [← hl]
  have hempty : (c.behindEntries n).nextSpan true =
      .empty ((c.behindEntries n).behindNext true).position := by
    have htaken : ((c.behindEntries n).nextPiece true).taken = [] := by
      rw [nextPiece, hskip]
      rfl
    rw [nextSpan, behindNext, htaken]
    rfl
  rw [entry, behindEntries, hbehind, hl, hspan, hempty]

end Cursor

/-- A reader stands behind entries of the text, of which the first ones are left out. -/
def Trail.entries (text : String) (first : Nat) : Trail where
  Stands n c := first ≤ n ∧ c = (Cursor.ofText text).behindEntries n
  onward h := ⟨Nat.le_succ_of_le h.1, by rw [h.2]; rfl⟩

namespace Reader
variable {text : String} {k j : Nat} {r : Reader}

/-- The first entries of the text were taken, and nothing else. The next one may have been looked
at. -/
def Pulled (text : String) (k : Nat) (r : Reader) : Prop :=
  (r.peeked = none ∧ r.fetches = k ∧ r.cursor = (Cursor.ofText text).behindEntries k) ∨
    ∃ l, r.peeked = some l ∧ (Cursor.ofText text).entry k = .ok l ∧ r.fetches = k + 1 ∧
      r.cursor = (Cursor.ofText text).behindEntries (k + 1)

/-- Nothing is kept back behind the fault, and the last entry that was taken, which is none of the
first ones, is the fault or is to blame for it. -/
def FailedIn (text : String) (first taken : Nat) (f : Fault) (r : Reader) : Prop :=
  r.peeked = none ∧ ∃ i, first ≤ i ∧ taken = i + 1 ∧
    ((Cursor.ofText text).entry i = .error f ∨
      ∃ l, (Cursor.ofText text).entry i = .ok l ∧ f.span = l.span)

/-- How many entries were taken can be told from the reader. -/
theorem Pulled.unique (hk : r.Pulled text k) (hj : r.Pulled text j) : k = j := by
  rcases hk with ⟨hp, hk, -⟩ | ⟨l, hp, -, hk, -⟩ <;>
    rcases hj with ⟨hp', hj, -⟩ | ⟨l', hp', -, hj, -⟩ <;> rw [hp] at hp'
  · omega
  · cases hp'
  · cases hp'
  · omega

theorem Pulled.on (h : r.Pulled text k) : (Trail.entries text k).On r := by
  rcases h with ⟨hp, hfetches, hcursor⟩ | ⟨l, hp, hl, hfetches, hcursor⟩
  · exact .inl ⟨hp, by omega, by rw [hfetches, hcursor]⟩
  · refine .inr ⟨l, hp, k, _, ⟨Nat.le_refl _, rfl⟩, hfetches, ?_⟩
    rw [Cursor.next_behindEntries, hl, hcursor]

theorem pulls_next (k : Nat) : Ensures (Pulled text k) next
    (fun l t => (Cursor.ofText text).entry k = .ok l ∧ t.peeked = none ∧ t.Pulled text (k + 1))
    (fun f t => (Cursor.ofText text).entry k = .error f ∧ t.peeked = none ∧
      t.Pulled text (k + 1)) := by
  intro r hr
  rcases hr with ⟨hp, hfetches, hcursor⟩ | ⟨l, hp, hl, hfetches, hcursor⟩
  · have hfetched : r.fetched.Pulled text (k + 1) :=
      .inl ⟨hp, congrArg (· + 1) hfetches, congrArg (·.behindNext true) hcursor⟩
    have hentry : (r.cursor.next true).1 = (Cursor.ofText text).entry k := by rw [hcursor]; rfl
    rw [next_of_not_peeked hp, hentry]
    cases he : (Cursor.ofText text).entry k with
    | ok l => exact ⟨rfl, hp, hfetched⟩
    | error f => exact ⟨rfl, hp, hfetched⟩
  · rw [next_of_peeked hp]
    exact ⟨hl, rfl, .inl ⟨rfl, hfetches, hcursor⟩⟩

theorem pulls_peek (k : Nat) : Ensures (Pulled text k) peek
    (fun l t => (Cursor.ofText text).entry k = .ok l ∧ t.Pulled text k)
    (fun f t => (Cursor.ofText text).entry k = .error f ∧ t.Pulled text (k + 1)) := by
  intro r hr
  have hnext := pulls_next k r hr
  rw [run_peek]
  cases hn : next r with
  | ok l t =>
    rw [hn] at hnext
    obtain ⟨hl, hp, ⟨-, hfetches, hcursor⟩ | ⟨l', hp', -⟩⟩ := hnext
    · exact ⟨hl, .inr ⟨l, rfl, hl, hfetches, hcursor⟩⟩
    · rw [hp] at hp'
      cases hp'
  | error f t =>
    rw [hn] at hnext
    exact ⟨hnext.1, hnext.2.2⟩

end Reader

/-- What is rejected is the last entry that was taken. -/
theorem Trail.Rejects.failedIn {text : String} {k j : Nat} {f : Fault} {r : Reader}
    (h : (Trail.entries text k).Rejects f r) (hj : r.Pulled text j) : r.FailedIn text k j f := by
  obtain ⟨hp, hblames⟩ := h
  refine ⟨hp, ?_⟩
  have hfetches : r.fetches = j := by
    rcases hj with ⟨-, hj, -⟩ | ⟨l, hl, -⟩
    · exact hj
    · rw [hp] at hl
      cases hl
  have of_found {x : Except Fault Lexeme} (hx : (Trail.entries text k).Found x r) :
      ∃ i, k ≤ i ∧ j = i + 1 ∧ (Cursor.ofText text).entry i = x := by
    obtain ⟨i, c, ⟨hi, rfl⟩, hi', hnext⟩ := hx
    exact ⟨i, hi, by omega, congrArg Prod.fst hnext⟩
  rcases hblames with hx | ⟨l, hx, hl, -⟩
  · obtain ⟨i, hi, hj, he⟩ := of_found hx
    exact ⟨i, hi, hj, .inl he⟩
  · obtain ⟨i, hi, hj, he⟩ := of_found hx
    exact ⟨i, hi, hj, .inr ⟨l, he, hl⟩⟩

/-! ## Scripts along entries -/

/-- A script that is run comes to what it comes to along the entries of the text. -/
theorem Script.ensures_follows {text : String} {α : Type} (p : Script α) (hp : p.Descending)
    (k : Nat) :
    Ensures (Reader.Pulled text k) p.read
      (fun a t => ∃ j, Follows (Cursor.ofText text).entry p k (.ok a) j ∧ t.Pulled text j)
      (fun f t => ∃ j, Follows (Cursor.ofText text).entry p k (.error f) j ∧ t.Pulled text j) := by
  induction p generalizing k with
  | pure a => exact Ensures.pure fun r hr => ⟨k, .pure, hr⟩
  | throw f => exact Ensures.throw fun r hr => ⟨k, .throw, hr⟩
  | next =>
    refine (Reader.pulls_next k).mono (fun _ h => h) (fun l t h => ?_) fun f t h => ?_
    · exact ⟨k + 1, h.1 ▸ .next, h.2.2⟩
    · exact ⟨k + 1, h.1 ▸ .next, h.2.2⟩
  | peek =>
    exact (Reader.pulls_peek k).mono (fun _ h => h) (fun l t h => ⟨k, .peek h.1, h.2⟩)
      fun f t h => ⟨k + 1, .peekFault h.1, h.2⟩
  | bind m f ihm ihf =>
    refine Ensures.bind ((ihm hp.1 k).mono (fun _ h => h) (fun _ _ h => h) fun e t h => ?_)
      fun a r hr => ?_
    · obtain ⟨j, hj, ht⟩ := h
      exact ⟨j, .bindFault hj, ht⟩
    · obtain ⟨j, hj, hr⟩ := hr
      refine ((ihf a (hp.2 a) j).mono (fun _ h => h) (fun b t h => ?_) fun e t h => ?_) r hr
      · obtain ⟨i, hi, ht⟩ := h
        exact ⟨i, .bind hj hi, ht⟩
      · obtain ⟨i, hi, ht⟩ := h
        exact ⟨i, .bind hj hi, ht⟩
  | loop step b ih =>
    -- What is still to come of the loop, from before each pass, ends as the whole loop does.
    refine (Ensures.loop hp.2
      (I := fun b' t => ∃ j, t.Pulled text j ∧ ∀ x i,
        Follows (Cursor.ofText text).entry (.loop step b') j x i →
          Follows (Cursor.ofText text).entry (.loop step b) k x i)
      (fun b' r hr => ?_) b).before fun r hr => ⟨k, hr, fun _ _ h => h⟩
    obtain ⟨j, hr, hrest⟩ := hr
    refine ((ih b' (hp.1 b') j).mono (fun _ h => h) (fun x t h => ?_) fun e t h => ?_) r hr
    · obtain ⟨i, hi, ht⟩ := h
      cases x with
      | done b'' => exact ⟨i, hrest _ _ (.done hi), ht⟩
      | yield b'' => exact ⟨i, ht, fun x i' h => hrest x i' (.yield hi h)⟩
    · obtain ⟨i, hi, ht⟩ := h
      exact ⟨i, hrest _ _ (.loopFault hi), ht⟩

/-! ## Sessions -/

/-- What is known of a run twice is known of it at once. -/
theorem Ensures.both {ε σ α : Type} {P : σ → Prop} {m : EStateM ε σ α} {Q Q' : α → σ → Prop}
    {E E' : ε → σ → Prop} (h : Ensures P m Q E) (h' : Ensures P m Q' E') :
    Ensures P m (fun a s => Q a s ∧ Q' a s) fun e s => E e s ∧ E' e s := by
  intro s hs
  have hm := h s hs
  have hm' := h' s hs
  cases hr : m s with
  | ok a t =>
    rw [hr] at hm hm'
    exact ⟨hm, hm'⟩
  | error e t =>
    rw [hr] at hm hm'
    exact ⟨hm, hm'⟩

namespace Session
variable {text : String} {s : Session} {k : Nat}

/-- The calls that ask for a token or an expression. -/
inductive Pull where
  | next
  | expression (stops : List String)
  deriving DecidableEq

def Pull.call : Pull → Call
  | .next => .next
  | .expression stops => .expression stops

/-- Run by a session, a reader of tokens gives what it gives by itself. -/
theorem run_lift_of {α : Type} {m : ReadM α} {P : Reader → Prop} {Q : α → Reader → Prop}
    {E : Fault → Reader → Prop} (h : Ensures P m Q E) (hs : P s.draft.reader) :
    (∃ a, (s.run (liftM m)).1 = .ok a ∧ Q a (s.run (liftM m)).2.draft.reader) ∨
      ∃ f, (s.run (liftM m)).1 = .error (s.report f) ∧
        E f (s.run (liftM m)).2.draft.reader := by
  have hend := h s.draft.reader hs
  unfold run
  rw [run_lift]
  cases hr : m s.draft.reader with
  | ok a r =>
    rw [hr] at hend
    exact .inl ⟨a, rfl, hend⟩
  | error f r =>
    rw [hr] at hend
    exact .inr ⟨f, rfl, hend⟩

theorem next_pulls (hs : s.draft.reader.Pulled text k) :
    s.next.1 = ((Cursor.ofText text).entry k).mapError s.report ∧
      s.next.2.draft.reader.peeked = none ∧ s.next.2.draft.reader.Pulled text (k + 1) := by
  rcases run_lift_of (Reader.pulls_next k) hs with ⟨l, hl, he, ht⟩ | ⟨f, hf, he, ht⟩
  · exact ⟨by rw [he]; exact hl, ht⟩
  · exact ⟨by rw [he]; exact hf, ht⟩

/-- An expression is read as along the entries. -/
theorem expression_pulls (hs : s.draft.reader.Pulled text k) {stops : List String}
    {p : Script Expression} (hp : p.Descending)
    (hread : p.read = Expression.read depthLimit stops) :
    ∃ x j, p.Follows (Cursor.ofText text).entry k x j ∧
      (s.expression stops).1 = x.mapError s.report ∧
      (s.expression stops).2.draft.reader.Pulled text j ∧
      ∀ f, x = .error f → (s.expression stops).2.draft.reader.FailedIn text k j f := by
  have hfollows : Ensures (Reader.Pulled text k) p.read _ _ := p.ensures_follows hp k
  rw [hread] at hfollows
  have hrejects : Ensures (Reader.Pulled text k) (Expression.read depthLimit stops)
      (fun _ _ => True) (Trail.entries text k).Rejects :=
    Ensures.mono (Expression.truthful_read depthLimit stops) (fun _ h => h.on)
      (fun _ _ _ => trivial) fun _ _ h => h
  rcases run_lift_of (hfollows.both hrejects) hs with
    ⟨e, he, ⟨j, hj, ht⟩, -⟩ | ⟨f, hf, ⟨j, hj, ht⟩, hr⟩
  · exact ⟨.ok e, j, hj, he, ht, fun f hf => by cases hf⟩
  · refine ⟨.error f, j, hj, hf, ht, fun f' hf' => ?_⟩
    cases hf'
    exact hr.failedIn ht

/-- Where a session stands that was only asked for tokens and expressions, and how it goes on. -/
structure FollowsEntries (script : List String → Script Expression) (text : String) (k : Nat)
    (s : Session) : Prop where
  /-- The number of entries that were taken. -/
  pulled : ∀ j, s.draft.reader.Pulled text j ↔ j = k
  next : s.next.1 = ((Cursor.ofText text).entry k).mapError s.report ∧
    s.next.2.draft.reader.peeked = none ∧ s.next.2.draft.reader.Pulled text (k + 1)
  /-- The script comes to one end only, and so does the session. -/
  expression (stops : List String) : ∃ x j,
    (∀ y i, (script stops).Follows (Cursor.ofText text).entry k y i ↔ y = x ∧ i = j) ∧
    (s.expression stops).1 = x.mapError s.report ∧
    (s.expression stops).2.draft.reader.Pulled text j ∧
    ∀ f, x = .error f → (s.expression stops).2.draft.reader.FailedIn text k j f

theorem exists_pulled (text : String) (name : Option String) (pulls : List Pull) :
    ∃ k, ((start text name).after (pulls.map Pull.call)).draft.reader.Pulled text k := by
  suffices go : ∀ (s : Session) k, s.draft.reader.Pulled text k →
      ∃ j, (s.after (pulls.map Pull.call)).draft.reader.Pulled text j from
    go _ 0 (.inl ⟨rfl, rfl, rfl⟩)
  induction pulls with
  | nil => exact fun s k hs => ⟨k, hs⟩
  | cons p pulls ih =>
    intro s k hs
    cases p with
    | next => exact ih _ _ (next_pulls hs).2.2
    | expression stops =>
      obtain ⟨p, hp, hread⟩ := Expression.scripted_read depthLimit stops
      obtain ⟨-, j, -, -, ht, -⟩ := expression_pulls hs hp hread
      exact ih _ j ht

end Session

/-- Tokens and expressions are read alike from a text and from the row of entries that it is cut
into. For the reader of expressions there is a script. Whatever tokens and expressions a session was
asked for, some number of entries were taken from the text, all of them in order and no others, and
at most the next one was looked at. The next token is the next entry, and an expression is what the
script comes to along the entries from there on, of which it takes as many as the script. Behind a
fault nothing is kept back, and the last entry that was taken is the fault or is to blame for it.
The position behind an entry is the end of it, and the end of the source comes for ever. -/
theorem Session.pulls_follow_entries :
    ∃ script : List String → Script Expression,
      (∀ stops, (script stops).read = Expression.read depthLimit stops) ∧
      ∀ text : String, let c := Cursor.ofText text
        (∀ n, (c.behindEntries (n + 1)).position = (Cursor.resultSpan (c.entry n)).stop) ∧
        (∀ n l, c.entry n = .ok l → l.token = .endOfSource → c.entry (n + 1) = .ok l) ∧
        ∀ (name : Option String) (pulls : List Pull), ∃ k,
          ((start text name).after (pulls.map Pull.call)).FollowsEntries script text k := by
  choose script hscript hread using Expression.scripted_read depthLimit
  refine ⟨script, hread, fun text => ⟨Cursor.position_behindEntries _, fun n l =>
    Cursor.entry_succ_of_endOfSource, fun name pulls => ?_⟩⟩
  obtain ⟨k, hk⟩ := exists_pulled text name pulls
  refine ⟨k, fun j => ⟨fun hj => hj.unique hk, fun hj => hj ▸ hk⟩, next_pulls hk, fun stops => ?_⟩
  obtain ⟨x, j, hfollows, hanswer⟩ := expression_pulls hk (hscript stops) (hread stops)
  refine ⟨x, j, fun y i => ⟨fun h => h.unique hfollows, ?_⟩, hanswer⟩
  rintro ⟨rfl, rfl⟩
  exact hfollows

end TemplateSyntax
