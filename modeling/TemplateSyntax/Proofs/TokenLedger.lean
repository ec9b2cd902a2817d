import TemplateSyntax.Proofs.Progress

/-!
# A ledger of tokens

Of every reader two numbers are kept: how many tokens have been taken, and how many may be left. A
token that is taken is no longer left, so their sum never grows. The one exception is the end of the
source, which can be read from the text when nothing is left; every reader refuses it as soon as it
takes it. So the number of tokens read from the text exceeds the sum by one at most.
-/
namespace TemplateSyntax
namespace Reader

/-- How many tokens have been taken: those read from the text, without one that was only looked
at. -/
def taken (r : Reader) : Int := r.fetches - if r.peeked.isSome then 1 else 0

/-- At least `n` tokens are taken, and with those that may be left they are at most `k`. -/
structure Ledger (n k : Int) (r : Reader) : Prop where
  lower : n ≤ r.taken
  upper : r.taken + r.size ≤ k

/-- No more than `k` tokens were read from the text, the end of the source apart. -/
def Capped (k : Int) (r : Reader) : Prop := r.fetches ≤ k + 1

section Numbers
variable {r : Reader} {l : Lexeme} {n m k : Int}

theorem taken_of_not_peeked (h : r.peeked = none) : r.taken = r.fetches := by
  simp [taken, h]

theorem taken_of_peeked (h : r.peeked = some l) : r.taken = r.fetches - 1 := by
  simp [taken, h]

theorem fetches_le_taken (r : Reader) : (r.fetches : Int) ≤ r.taken + 1 := by
  rw [taken]
  split <;> omega

theorem size_of_peeked (h : r.peeked = some l) :
    r.size = r.cursor.rest.length + if l.token = .endOfSource then 0 else 1 := by
  simp [size, h]

/-- What is taken and what is left were read from the text, or can still be. -/
theorem taken_add_size_le (r : Reader) :
    r.taken + r.size ≤ r.fetches + r.cursor.rest.length := by
  cases hp : r.peeked with
  | none =>
    rw [taken_of_not_peeked hp, size_of_not_peeked hp]
  | some l =>
    rw [taken_of_peeked hp, size_of_peeked hp]
    split <;> omega

theorem Ledger.start (r : Reader) : r.Ledger r.taken (r.taken + r.size) := ⟨le_rfl, le_rfl⟩

theorem Ledger.weaken (h : r.Ledger n k) (hm : m ≤ n) : r.Ledger m k := ⟨hm.trans h.lower, h.upper⟩

theorem Ledger.earlier (h : r.Ledger (n + 1) k) : r.Ledger n k := h.weaken (by omega)

theorem Ledger.capped (h : r.Ledger n k) : r.Capped k := by
  have hu := h.upper
  have hf := r.fetches_le_taken
  unfold Capped
  omega

theorem Capped.trans {t : Reader} (h : r.Ledger n k) (ht : t.Capped (r.taken + r.size)) :
    t.Capped k := by
  have hu := h.upper
  unfold Capped at ht ⊢
  omega

end Numbers

/-! ## Taking tokens and looking at them -/

section Steps
variable {n k : Int}

/-- A token that is taken counts, unless it is the end of the source. -/
theorem ledger_next : Ensures (Ledger n k) next
    (fun l t => t.Capped k ∧ (l.token ≠ .endOfSource → t.Ledger (n + 1) k))
    (fun _ => Capped k) := by
  intro r hr
  have hlower := hr.lower
  have hupper := hr.upper
  cases h : next r with
  | ok l t =>
    rcases next_eq_ok h with ⟨hp, rfl⟩ | ⟨hp, hc, rfl⟩
    · have htaken : ({ r with peeked := none } : Reader).taken = r.taken + 1 := by
        rw [taken_of_not_peeked rfl, taken_of_peeked hp]
        exact (Int.sub_add_cancel _ 1).symm
      have hsize : ({ r with peeked := none } : Reader).size = r.cursor.rest.length :=
        size_of_not_peeked rfl
      refine ⟨hr.capped, fun hl => ⟨by omega, ?_⟩⟩
      rw [size_of_peeked hp, if_neg hl] at hupper
      rw [htaken, hsize]
      omega
    · have htaken : r.fetched.taken = r.taken + 1 := by
        rw [taken_of_not_peeked (r := r.fetched) hp, taken_of_not_peeked hp]
        rfl
      rw [size_of_not_peeked hp] at hupper
      refine ⟨?_, fun hl => ⟨by omega, ?_⟩⟩
      · rw [taken_of_not_peeked hp] at hupper
        change ((r.fetches + 1 : Nat) : Int) ≤ k + 1
        omega
      · have hlt : (r.cursor.behindNext true).rest.length < r.cursor.skipBlanks.rest.length := by
          refine Cursor.length_behindNext_lt ?_
          rw [(Cursor.next_eq_ok hc).1]
          simpa using hl
        have hle := r.cursor.reaches_skipBlanks.length_le
        rw [htaken, size_fetched hp]
        omega
  | error f t =>
    obtain ⟨hp, -, rfl⟩ := next_eq_error h
    rw [size_of_not_peeked hp, taken_of_not_peeked hp] at hupper
    change ((r.fetches + 1 : Nat) : Int) ≤ k + 1
    omega

/-- Looking at a token takes none. -/
theorem ledger_peek : Ensures (Ledger n k) peek
    (fun l t => t.Ledger n k ∧ t.peeked = some l) (fun _ => Capped k) := by
  intro r hr
  have hnext := ledger_next r hr
  have hlower := hr.lower
  have hupper := hr.upper
  rw [run_peek]
  cases h : next r with
  | error f t => rwa [h] at hnext
  | ok l t =>
    refine ⟨?_, rfl⟩
    have hpeeked : ({ t with peeked := some l } : Reader).peeked = some l := rfl
    rcases next_eq_ok h with ⟨hp, rfl⟩ | ⟨hp, hc, rfl⟩
    · rwa [show ({ r with peeked := some l } : Reader) = r by rw [← hp]]
    · have htaken : ({ r.fetched with peeked := some l } : Reader).taken = r.taken := by
        rw [taken_of_peeked hpeeked, taken_of_not_peeked hp]
        exact Int.add_sub_cancel (r.fetches : Int) 1
      have hsize := size_of_peeked hpeeked
      have hle := (r.cursor.reaches_behindNext true).length_le
      rw [size_of_not_peeked hp] at hupper
      refine ⟨htaken ▸ hlower, ?_⟩
      rw [htaken, hsize]
      change r.taken + ((r.cursor.behindNext true).rest.length + _ : Nat) ≤ k
      split
      · omega
      · next hl =>
        rw [h] at hnext
        have hcounted := (hnext.2 hl).upper
        have hfetched : r.fetched.taken = r.taken + 1 := by
          rw [taken_of_not_peeked (r := r.fetched) hp, taken_of_not_peeked hp]
          rfl
        rw [hfetched, size_fetched hp] at hcounted
        omega

/-- A token that was looked at and can be taken is taken. -/
theorem ledger_next_pending : Ensures (fun r => r.Ledger n k ∧ r.Pending) next
    (fun _ => Ledger (n + 1) k) (fun _ => Capped k) := by
  rintro r ⟨hr, l, hp, hl⟩
  have hnext := ledger_next r hr
  rw [next_of_peeked hp] at hnext ⊢
  exact hnext.2 hl

theorem ledger_atSymbol (s : Symbol) : Ensures (Ledger n k) (atSymbol s)
    (fun b t => t.Ledger n k ∧ (b = true → t.Pending)) (fun _ => Capped k) := by
  refine ledger_peek.bind fun l => Ensures.pure fun t ht => ⟨ht.1, fun hb => ⟨l, ht.2, ?_⟩⟩
  intro hl
  simp [hl] at hb

theorem ledger_atKeyword (w : Keyword) : Ensures (Ledger n k) (atKeyword w)
    (fun b t => t.Ledger n k ∧ (b = true → t.Pending)) (fun _ => Capped k) := by
  refine ledger_peek.bind fun l => Ensures.pure fun t ht => ⟨ht.1, fun hb => ⟨l, ht.2, ?_⟩⟩
  intro hl
  simp [hl] at hb

/-- A token is taken and then accepted or refused; the end of the source is refused. -/
theorem ledger_next_bind {α : Type} {f : Lexeme → ReadM α}
    (hend : ∀ l, l.token = .endOfSource → ∃ fault, f l = throw fault)
    (hf : ∀ l, (∃ a, f l = pure a) ∨ ∃ fault, f l = throw fault) :
    Ensures (Ledger n k) (next >>= f) (fun _ => Ledger (n + 1) k) (fun _ => Capped k) := by
  refine ledger_next.bind fun l => ?_
  rcases hf l with ⟨a, ha⟩ | ⟨fault, hfault⟩
  · have hl : l.token ≠ .endOfSource := by
      intro hl
      obtain ⟨fault, he⟩ := hend l hl
      rw [ha] at he
      exact absurd (congrFun he ⟨⟨.start, []⟩, none, 0⟩) nofun
    exact ha ▸ Ensures.pure fun t ht => ht.2 hl
  · exact hfault ▸ Ensures.throw fun t ht => ht.1

theorem ledger_expectSymbol (s : Symbol) : Ensures (Ledger n k) (expectSymbol s)
    (fun _ => Ledger (n + 1) k) (fun _ => Capped k) := by
  refine ledger_next_bind (fun l hl => ⟨.unexpected (.symbol s) l, by simp [hl]⟩) fun l => ?_
  split
  · exact .inl ⟨_, rfl⟩
  · exact .inr ⟨_, rfl⟩

theorem ledger_expectKeyword (w : Keyword) : Ensures (Ledger n k) (expectKeyword w)
    (fun _ => Ledger (n + 1) k) (fun _ => Capped k) := by
  refine ledger_next_bind (fun l hl => ⟨.unexpected (.keyword w) l, by simp [hl]⟩) fun l => ?_
  split
  · exact .inl ⟨_, rfl⟩
  · exact .inr ⟨_, rfl⟩

theorem ledger_expectName : Ensures (Ledger n k) expectName
    (fun _ => Ledger (n + 1) k) (fun _ => Capped k) := by
  refine ledger_next_bind (fun l hl => ⟨.unexpected .name l, by simp [hl]⟩) fun l => ?_
  split
  · exact .inl ⟨_, rfl⟩
  · exact .inr ⟨_, rfl⟩

theorem ledger_variableName : Ensures (Ledger n k) variableName
    (fun _ => Ledger (n + 1) k) (fun _ => Capped k) :=
  ledger_expectName.bind fun _ => Ensures.pure fun _ h => h

theorem ledger_stringValue (raw : String) (span : Span) :
    Ensures (Ledger n k) (Expression.stringValue raw span) (fun _ => Ledger n k)
      (fun _ => Capped k) := by
  unfold Expression.stringValue
  split
  · exact Ensures.throw fun _ h => h.capped
  · split
    · exact Ensures.pure fun _ h => h
    · exact Ensures.throw fun _ h => h.capped
    · exact Ensures.throw fun _ h => h.capped

end Steps
end Reader

namespace Draft
open Reader
variable {n k : Int}

/-- The ledger of the reader of a draft. -/
def Ledger (n k : Int) (d : Draft) : Prop := d.reader.Ledger n k

def Capped (k : Int) (d : Draft) : Prop := d.reader.Capped k

theorem ledger_lift {α : Type} {P : Reader → Prop} {Q : α → Reader → Prop} {m : ReadM α}
    (h : Ensures P m Q fun _ => Reader.Capped k) :
    Ensures (fun d => P d.reader) (liftM m : DraftM α) (fun a d => Q a d.reader)
      (fun _ => Capped k) := by
  intro d hd
  have hm := h d.reader hd
  rw [run_lift]
  cases hr : m d.reader with
  | ok a t => rwa [hr] at hm
  | error f t => rwa [hr] at hm

theorem ledger_aside {α : Type} {m : DraftM α} (h : Aside m) :
    Ensures (Ledger n k) m (fun _ => Ledger n k) (fun _ => Capped k) :=
  h.keeps (P := Reader.Ledger n k)

theorem ledger_behindText {d : Draft} (h : d.Ledger n k) : d.behindText.Ledger n k :=
  ⟨h.lower, (Int.add_le_add_left (Int.ofNat_le.mpr d.reader.size_behindText_le) _).trans h.upper⟩

/-- What opens a tag or a placeable counts, unless it is the end of the source. -/
theorem ledger_opening : Ensures (Ledger n k) opening
    (fun found d => d.Capped k ∧ match found with
      | none => d.Ledger n k
      | some l => l.token ≠ .endOfSource → d.Ledger (n + 1) k)
    (fun _ => Capped k) := by
  intro d hd
  have htext := ledger_behindText hd
  rw [run_opening]
  split
  · exact ⟨htext.capped, htext⟩
  · have hnext := ledger_next _ htext
    cases hr : Reader.next d.behindText.reader with
    | ok l t => rwa [hr] at hnext
    | error f t => rwa [hr] at hnext

theorem ledger_blockHead : Ensures (Reader.Ledger n k) blockHead
    (fun _ => Reader.Ledger (n + 1) k) (fun _ => Reader.Capped k) :=
  ledger_expectName.bind fun _ => (ledger_expectSymbol _).discard.bind fun _ =>
    Ensures.pure fun _ h => h.earlier

theorem ledger_closingName (name : String) : Ensures (Reader.Ledger n k) (closingName name)
    (fun _ => Reader.Ledger n k) (fun _ => Reader.Capped k) := by
  refine ledger_peek.bind fun l => ?_
  split
  · next closing hl =>
    split
    · refine (Ensures.before ledger_next_pending fun t ht => ⟨ht.1, l, ht.2, by simp [hl]⟩).after
        (fun _ t ht => ht.earlier) |>.discard
    · exact Ensures.throw fun t ht => ht.1.capped
  · exact Ensures.pure fun t ht => ht.1

theorem ledger_blockEnd (name : String) : Ensures (Reader.Ledger n k) (blockEnd name)
    (fun _ => Reader.Ledger (n + 1) k) (fun _ => Reader.Capped k) :=
  (ledger_closingName name).bind fun _ => ledger_expectSymbol _

end Draft
end TemplateSyntax
