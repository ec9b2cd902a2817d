import TemplateSyntax.Proofs.ExpressionCompleteness
import TemplateSyntax.Proofs.Levels
import TemplateSyntax.Proofs.OrderedReading
import TemplateSyntax.Proofs.Session

/-!
# Chains of operators

Where operands are joined by operators and nothing else, the tree can be told without reading from
left to right: the operator that binds most loosely is applied last, with all that stands before it
on its left and all that stands behind it on its right. Among operators that bind alike this is the
last one, or the first one if they group from the right. The reader of operations comes to the same
tree: it takes the operators that bind tightly enough for it, and each new one joins what was read
before it to a right side that ends where the operators become looser again.
-/
namespace TemplateSyntax

/-! ## Splitting a chain -/

/-- An operator in a chain, and the operand behind it. -/
structure Link where
  op : WrittenOperator
  operand : Expression
  deriving DecidableEq

namespace Operator

/-- A chain with both operators is split at the second one: it binds more loosely, or as loosely and
its kind groups from the left. -/
def SplitsBehind (first second : Operator) : Prop :=
  ∃ b b', first.binding? = some b ∧ second.binding? = some b' ∧
    (b'.power < b.power ∨ b'.power = b.power ∧ b'.fromRight = false)

/-- A chain with both operators is split at the first one: it binds more loosely, or as loosely and
its kind groups from the right. -/
def SplitsBefore (first second : Operator) : Prop :=
  ∃ b b', first.binding? = some b ∧ second.binding? = some b' ∧
    (b.power < b'.power ∨ b.power = b'.power ∧ b.fromRight = true)

/-- Operators of one power all group from the same side. -/
theorem fromRight_eq {op op' : Operator} {b b' : Binding} (hb : op.binding? = some b)
    (hb' : op'.binding? = some b') (h : b.power = b'.power) : b.fromRight = b'.fromRight := by
  cases op <;> cases op' <;> cases hb <;> cases hb' <;> first | rfl | cases h

theorem SplitsBehind.not_splitsBefore {first second : Operator} (h : first.SplitsBehind second) :
    ¬ first.SplitsBefore second := by
  obtain ⟨b, b', hb, hb', h⟩ := h
  rintro ⟨a, a', ha, ha', h'⟩
  cases hb.symm.trans ha
  cases hb'.symm.trans ha'
  rcases h with h | ⟨h, hleft⟩
  · omega
  · have hside := fromRight_eq hb hb' h.symm
    rcases h' with h' | ⟨-, hright⟩
    · omega
    · rw [hside, hleft] at hright
      cases hright

/-- The right side of an operator holds those behind which the operator is applied. -/
theorem splitsBefore_of_rightMinimum_le {op op' : Operator} {b : Binding}
    (hb : op.binding? = some b) (h : ∃ b', op'.binding? = some b' ∧ b.rightMinimum ≤ b'.power) :
    op.SplitsBefore op' := by
  obtain ⟨b', hb', hle⟩ := h
  refine ⟨b, b', hb, hb', ?_⟩
  unfold Binding.rightMinimum at hle
  split at hle
  · next hright =>
    rcases Nat.eq_or_lt_of_le hle with heq | hlt
    · exact .inr ⟨heq, hright⟩
    · exact .inl hlt
  · exact .inl hle

/-- An operator that ends the right side of another one is applied behind it. -/
theorem splitsBehind_of_lt_rightMinimum {op op' : Operator} {b b' : Binding}
    (hb : op.binding? = some b) (hb' : op'.binding? = some b') (h : b'.power < b.rightMinimum) :
    op.SplitsBehind op' := by
  refine ⟨b, b', hb, hb', ?_⟩
  unfold Binding.rightMinimum at h
  split at h
  · exact .inl h
  · next hleft =>
    rcases Nat.eq_or_lt_of_le (Nat.le_of_lt_succ h) with heq | hlt
    · exact .inr ⟨heq, by rw [fromRight_eq hb' hb heq]; simpa using hleft⟩
    · exact .inl hlt

theorem SplitsBehind.trans {first second third : Operator} (h : first.SplitsBehind second)
    (h' : second.SplitsBehind third) : first.SplitsBehind third := by
  obtain ⟨b, b', hb, hb', h⟩ := h
  obtain ⟨a', a, ha', ha, h'⟩ := h'
  cases hb'.symm.trans ha'
  refine ⟨b, a, hb, ha, ?_⟩
  rcases h' with h' | ⟨h', hleft⟩
  · left
    omega
  · rcases h with h | ⟨h, -⟩
    · left
      omega
    · exact .inr ⟨h'.trans h, hleft⟩

/-- What is written like an operator between two operands binds them. -/
theorem WrittenAs.exists_binding {op : Operator} {t : Token} (h : op.WrittenAs t) :
    ∃ b, op.binding? = some b := by
  cases op <;> first | exact ⟨_, rfl⟩ | skip
  cases h with
  | @symbol s h => cases s <;> exact absurd h (by decide)
  | word h => rcases h with h | h <;> cases h

end Operator

namespace Expression

/-- The operand that a chain ends with. -/
def lastOperand (u : Expression) : List Link → Expression
  | [] => u
  | x :: links => lastOperand x.operand links

/-- The tree of a chain is its only operand, or it is split at one operator: whatever stands before
it comes to its left side, and whatever stands behind it to its right side. -/
inductive Groups : Expression → List Link → Expression → Prop
  | single (u : Expression) : Groups u [] u
  | split {u left right : Expression} {before behind : List Link} {x : Link}
    (hbefore : ∀ y ∈ before, y.op.value.SplitsBehind x.op.value)
    (hbehind : ∀ y ∈ behind, x.op.value.SplitsBefore y.op.value)
    (hl : Groups u before left) (hr : Groups x.operand behind right) :
    Groups u (before ++ x :: behind)
      (.binary x.op left right ⟨u.span.start, (lastOperand x.operand behind).span.stop⟩)

namespace Groups
variable {u e e' : Expression} {links : List Link}

theorem span_start (h : Groups u links e) : e.span.start = u.span.start := by
  cases h <;> rfl

theorem lastOperand_append (u : Expression) (before behind : List Link) (x : Link) :
    lastOperand u (before ++ x :: behind) = lastOperand x.operand behind := by
  induction before generalizing u with
  | nil => rfl
  | cons y before ih => exact ih y.operand

theorem span_stop (h : Groups u links e) : e.span.stop = (lastOperand u links).span.stop := by
  cases h with
  | single => rfl
  | split => rw [lastOperand_append]; rfl

/-- There is only one operator at which a chain may be split. -/
theorem split_unique {before behind before' behind' : List Link} {x x' : Link}
    (h : before ++ x :: behind = before' ++ x' :: behind')
    (hbefore : ∀ y ∈ before', y.op.value.SplitsBehind x'.op.value)
    (hbehind : ∀ y ∈ behind, x.op.value.SplitsBefore y.op.value) :
    before'.length ≤ before.length := by
  rcases List.append_eq_append_iff.mp h with ⟨middle, rfl, htail⟩ | ⟨middle, rfl, -⟩
  · cases middle with
    | nil => simp
    | cons y middle =>
      -- Each operator would stand on the side of the other on which it is applied first.
      obtain ⟨rfl, rfl⟩ := List.cons.inj htail
      have hsplit := hbefore x (by simp)
      exact absurd (hbehind x' (by simp)) hsplit.not_splitsBefore
  · simp

/-- A chain has no other tree. -/
theorem unique (h : Groups u links e) (h' : Groups u links e') : e' = e := by
  induction h generalizing e' with
  | single =>
    generalize hlinks : ([] : List Link) = links at h'
    cases h' with
    | single => rfl
    | split => simp at hlinks
  | @split u left right before behind x hbefore hbehind hl hr ihl ihr =>
    generalize hlinks : before ++ x :: behind = links at h'
    cases h' with
    | single => simp at hlinks
    | @split _ left' right' before' behind' x' hbefore' hbehind' hl' hr' =>
      have hlength : before.length = before'.length :=
        Nat.le_antisymm (split_unique hlinks.symm hbefore hbehind')
          (split_unique hlinks hbefore' hbehind)
      obtain ⟨rfl, hcons⟩ := List.append_inj hlinks hlength
      cases hcons
      rw [ihl hl', ihr hr']

end Groups
end Expression

/-! ## Chains in a text -/

/-- A run that ends in the same state, up to the number of tokens fetched. -/
def recounted {α : Type} (k : Nat) :
    EStateM.Result Fault Reader α → EStateM.Result Fault Reader α
  | .ok a r => .ok a { r with fetches := k }
  | .error f r => .error f { r with fetches := k }

theorem Reader.next_recounted (r : Reader) (k : Nat) :
    ∃ j, next { r with fetches := k } = recounted j (next r) := by
  obtain ⟨cursor, peeked, fetches⟩ := r
  cases peeked with
  | some l => exact ⟨k, rfl⟩
  | none =>
    refine ⟨k + 1, ?_⟩
    rw [next_of_not_peeked rfl, next_of_not_peeked rfl]
    cases (cursor.next true).1 <;> rfl

/-- What is read does not depend on how many tokens have been fetched before. -/
theorem TokenWise.run_recounted {α : Type} {m : ReadM α} (h : TokenWise m) (r : Reader) (k : Nat) :
    ∃ j, m { r with fetches := k } = recounted j (m r) := by
  induction h generalizing r k with
  | pure a => exact ⟨k, rfl⟩
  | throw f => exact ⟨k, rfl⟩
  | next => exact Reader.next_recounted r k
  | peek =>
    obtain ⟨j, hj⟩ := Reader.next_recounted r k
    refine ⟨j, ?_⟩
    rw [Reader.run_peek, Reader.run_peek, hj]
    cases Reader.next r <;> rfl
  | @bind _ _ m f _ _ ihm ihf =>
    obtain ⟨j, hj⟩ := ihm r k
    simp only [run_bind, hj]
    cases m r with
    | ok a t => exact ihf a t j
    | error e t => exact ⟨j, rfl⟩
  | @loop β step _ b ih =>
    induction hn : r.size using Nat.strong_induction_on generalizing r k b with
    | h n ihn =>
      obtain ⟨j, hj⟩ := ih b r k
      simp only [TemplateSyntax.loop.eq_def Reader.size step b, hj]
      cases step b r with
      | error e t => exact ⟨j, rfl⟩
      | ok x t =>
        cases x with
        | done b' => exact ⟨j, rfl⟩
        | yield b' =>
          have hsize (r : Reader) (k : Nat) : Reader.size { r with fetches := k } = r.size := rfl
          simp only [recounted, hsize]
          split
          · next hlt => exact ihn _ (by omega) b' t j rfl
          · exact ⟨j, rfl⟩

namespace Cursor
open Expression

/-- An operand is read at the first cursor and up to the second one, if enough levels may be
opened. -/
def ReadsOperand (c : Cursor) (u : Expression) (d : Cursor) : Prop :=
  ∃ n t, operand (descend n) { cursor := c } = .ok u t ∧ t.At d

/-- Operators, each with an operand behind it, up to the end of the source. -/
inductive ReadsLinks : Cursor → List Link → Prop
  | nil {c d : Cursor} (h : c.Reads .endOfSource d) : ReadsLinks c []
  | cons {c d e : Cursor} {l : Lexeme} {op : Operator} {u : Expression} {links : List Link}
    (h : c.next true = (.ok l, d)) (hop : op.WrittenAs l.token) (hu : d.ReadsOperand u e)
    (hl : ReadsLinks e links) : ReadsLinks c (⟨⟨op, l.span⟩, u⟩ :: links)

/-- A chain up to the end of the source: an operand, and operators with operands behind it. -/
def ReadsChain (c : Cursor) (u : Expression) (links : List Link) : Prop :=
  ∃ d, c.ReadsOperand u d ∧ d.ReadsLinks links

theorem ReadsLinks.congr {c d : Cursor} {links : List Link} (h : c.ReadsLinks links)
    (hcd : c.next true = d.next true) : d.ReadsLinks links := by
  cases h with
  | nil h =>
    obtain ⟨span, h⟩ := h
    exact .nil ⟨span, hcd ▸ h⟩
  | cons h hop hu hl => exact .cons (hcd ▸ h) hop hu hl

end Cursor

/-! ## Operands -/

namespace Expression
open Reader

section Operands
variable {c d : Cursor} {u : Expression}

/-- A signed or plain operand is read alike before and after its first token is looked at. -/
theorem operand_of_peek {deeper : Descent} {r t : Reader} {l : Lexeme} (hp : peek r = .ok l t) :
    operand deeper r = operand deeper t := by
  unfold operand
  rw [run_bind_ok hp, run_bind_ok (peek_of_peeked (peeked_of_peek hp))]

/-- All readers at a cursor read the same operand there. -/
theorem operand_of_at {n : Nat} {r t : Reader} {e : Expression} (hr : r.At c)
    (h : operand (descend n) r = .ok e t) :
    ∃ j, operand (descend n) { cursor := c } = .ok e { t with fetches := j } := by
  obtain ⟨l, v, hp, -⟩ := bind_eq_ok h
  have hnext := hr.peek_eq_ok hp
  have hstart : peek { cursor := c } = .ok l { v with fetches := 1 } := by
    obtain ⟨cursor, peeked, fetches⟩ := v
    obtain rfl : peeked = some l := peeked_of_peek hp
    rw [run_peek, next]
    simp only [hnext]
  rw [operand_of_peek hp] at h
  obtain ⟨j, hj⟩ := (tokenWise_operand (tokenWise_descend n)).run_recounted v 1
  rw [operand_of_peek hstart, hj, h]
  exact ⟨j, rfl⟩

/-- More levels than enough make no difference. -/
theorem within_operand_le {m n : Nat} (h : m ≤ n) :
    Within (operand (descend m)) (operand (descend n)) := by
  induction h with
  | refl => exact .refl _
  | step _ ih => exact ih.trans (within_operand (within_descend _))

theorem operand_unique {m n : Nat} {r s t : Reader} {e e' : Expression}
    (h : operand (descend m) r = .ok e s) (h' : operand (descend n) r = .ok e' t) :
    e = e' ∧ s = t := by
  have hle {m n : Nat} {s t : Reader} {e e' : Expression} (hmn : m ≤ n)
      (h : operand (descend m) r = .ok e s) (h' : operand (descend n) r = .ok e' t) :
      e = e' ∧ s = t := by
    rcases within_operand_le hmn r with ⟨f, v, hf, -⟩ | heq
    · rw [h] at hf
      cases hf
    · rw [heq, h'] at h
      cases h
      exact ⟨rfl, rfl⟩
  rcases Nat.le_total m n with hmn | hnm
  · exact hle hmn h h'
  · obtain ⟨he, hs⟩ := hle hnm h' h
    exact ⟨he.symm, hs.symm⟩

/-- An operand that can be read at a cursor is the one that is read there, wherever it is read
successfully. -/
theorem lands_operand_of_reads (h : c.ReadsOperand u d) (n : Nat) :
    Lands (operand (descend n)) c fun e f => e = u ∧ f.next true = d.next true := by
  intro r hr
  cases hrun : operand (descend n) r with
  | error f t => trivial
  | ok e t =>
    obtain ⟨m, s, hm, hs⟩ := h
    obtain ⟨j, hj⟩ := operand_of_at hr hrun
    obtain ⟨rfl, rfl⟩ := operand_unique hj hm
    exact ⟨d, hs, rfl, rfl⟩

/-- Every operand of the grammar is read, if no property and no call follows. -/
theorem readsOperand_of_derives {n : Nat} (h : Phrase.Derives .operand n c d) (hd : d.EndsTerm) :
    ∃ u, c.ReadsOperand u d := by
  obtain ⟨u, t, ht, -, hat⟩ := complete h hd { cursor := c } (.inl ⟨rfl, rfl⟩)
  exact ⟨u, n, t, ht, hat⟩

end Operands

/-! ## The tree that is read -/

/-- An operation that began at the first cursor has come to the second one: it has grouped the first
links of a chain, with operators of at least the minimum, and the operator of the next link, if any,
is outside of them. -/
structure ChainRead (minimum : Nat) (c : Cursor) (u : Expression) (taken rest : List Link)
    (e : Expression) (d : Cursor) : Prop where
  row : c.Row [.expression e] d
  ahead : d.ReadsLinks rest
  groups : Groups u taken e
  tight : ∀ x ∈ taken, ∃ b, x.op.value.binding? = some b ∧ minimum ≤ b.power
  outside : ∀ y ∈ rest.head?, ∀ x ∈ taken, x.op.value.SplitsBehind y.op.value

/-- The next operator of a chain, if any, is looser than the minimum. -/
def EndsChain (minimum : Nat) (rest : List Link) : Prop :=
  ∀ y ∈ rest.head?, ∃ b, y.op.value.binding? = some b ∧ b.power < minimum

/-- What the readers of operations of a level give for a chain: the tree of its first links, up to an
operator that is too loose. -/
def GroupsChains (n : Nat) : Prop :=
  ∀ (minimum : Nat) (c : Cursor) (u : Expression) (links : List Link), c.ReadsChain u links →
    Lands (operation (descend n) [] minimum) c fun e d => ∃ taken rest,
      links = taken ++ rest ∧ ChainRead minimum c u taken rest e d ∧ EndsChain minimum rest

section Steps
variable {minimum : Nat} {c d f g : Cursor} {u v left right : Expression} {x : Link}
  {taken taken' rest rest' : List Link}

/-- An operator behind what was read, and its right side. -/
theorem ChainRead.join {op : WrittenOperator} {b : Binding}
    (hl : ChainRead minimum c u taken (⟨op, v⟩ :: rest) left d)
    (hop : d.Row [.operator op] f) (hb : op.value.binding? = some b) (hle : minimum ≤ b.power)
    (hr : ChainRead b.rightMinimum f v taken' rest' right g)
    (hends : EndsChain b.rightMinimum rest') :
    ChainRead minimum c u (taken ++ ⟨op, v⟩ :: taken') rest'
      (.binary op left right (left.span.combine right.span)) g := by
  have hrow := (hl.row.append hop).append hr.row
  have hspan : left.span.combine right.span =
      ⟨u.span.start, (lastOperand v taken').span.stop⟩ := by
    rw [← hl.groups.span_start, ← hr.groups.span_stop]
    exact Node.Row.combine [.operator op] hrow (by simp)
  refine ⟨Node.row_binary hrow, hr.ahead, ?_, ?_, ?_⟩
  · rw [hspan]
    exact .split (x := ⟨op, v⟩) (hl.outside _ rfl)
      (fun y hy => Operator.splitsBefore_of_rightMinimum_le hb (hr.tight y hy)) hl.groups hr.groups
  · intro x hx
    rcases List.mem_append.mp hx with hx | hx
    · exact hl.tight x hx
    · rcases List.mem_cons.mp hx with rfl | hx
      · exact ⟨b, hb, hle⟩
      · obtain ⟨b', hb', hle'⟩ := hr.tight x hx
        have hright : b.power ≤ b.rightMinimum := by
          unfold Binding.rightMinimum
          split <;> omega
        exact ⟨b', hb', by omega⟩
  · intro y hy x hx
    obtain ⟨a, ha, hlt⟩ := hends y hy
    have hop : op.value.SplitsBehind y.op.value :=
      Operator.splitsBehind_of_lt_rightMinimum hb ha hlt
    rcases List.mem_append.mp hx with hx | hx
    · exact (hl.outside _ rfl x hx).trans hop
    · rcases List.mem_cons.mp hx with rfl | hx
      · exact hop
      · exact hr.outside y hy x hx

end Steps

theorem stopsAt_none : StopsAt true [] := ⟨fun _ => by simp, by simp, by simp⟩

section Readers
variable {n minimum : Nat} {c d : Cursor} {u left : Expression} {links : List Link}

/-- One more operator of the chain and its right side, or the end of the operation. -/
theorem lands_nextJoint_chain (hn : ∀ m, n = m + 1 → GroupsChains m) {taken rest : List Link}
    (hlinks : links = taken ++ rest) (hl : ChainRead minimum c u taken rest left d) :
    Lands (nextJoint (descend n) [] minimum left) d (OnPass
      (fun e d => ∃ taken rest, links = taken ++ rest ∧ ChainRead minimum c u taken rest e d ∧
        EndsChain minimum rest)
      fun e d => ∃ taken rest, links = taken ++ rest ∧ ChainRead minimum c u taken rest e d) := by
  refine Lands.peek_lexeme_bind fun l f hf => ?_
  cases hl.ahead with
  | nil h =>
    obtain ⟨span, h⟩ := h
    cases hf.symm.trans h
    rw [joint?_endOfSource]
    exact Lands.pure ⟨taken, [], hlinks, hl, by simp [EndsChain]⟩
  | @cons _ _ g l' op v rest h hop hv hrest =>
    cases hf.symm.trans h
    obtain ⟨b, hb⟩ := hop.exists_binding
    by_cases hle : minimum ≤ b.power
    · rw [(joint?_eq_binary_iff stopsAt_none).mpr ⟨hop, hb, hle⟩]
      refine Lands.skip ⟨l.span, hf⟩ (lands_descend fun m hm => ?_)
      refine (hn m hm b.rightMinimum f v rest ⟨g, hv, hrest⟩).bind fun right k hk => ?_
      obtain ⟨taken', rest', rfl, hr, hends⟩ := hk
      have hend : l.token ≠ .endOfSource := by
        intro hend
        rw [hend] at hop
        cases hop
      have hrow : d.Row [.operator ⟨op, l.span⟩] f := (Cursor.frames_of_next hf hend).row rfl rfl
      exact Lands.pure ⟨_, rest', by simp [hlinks], hl.join hrow hb hle hr hends⟩
    · have hlt : b.power < minimum := Nat.lt_of_not_le hle
      rw [joint?_eq_none_of_lt (Joint.ofToken?_eq_binary_iff.mpr hop) hb hlt]
      exact Lands.pure ⟨taken, _, hlinks, hl, fun y hy => by cases hy; exact ⟨b, hb, hlt⟩⟩

theorem groupsChains_of_deeper (hn : ∀ m, n = m + 1 → GroupsChains m) : GroupsChains n := by
  rintro minimum c u links ⟨d, hu, hlinks⟩
  have hoperand := (row_operand (fun m _ => inOrder m) c).both (lands_operand_of_reads hu n)
  refine hoperand.bind fun e f hf => ?_
  obtain ⟨hrow, g, hg, rfl, hnext⟩ := hf
  have hfirst : ChainRead minimum c e [] links e f :=
    ⟨hrow, hlinks.congr (hnext.symm.trans hg), .single e, by simp, by simp⟩
  refine Lands.loop (descends_nextJoint (tokenWise_descend n) _ _)
    (I := fun left d => ∃ taken rest, links = taken ++ rest ∧
      ChainRead minimum c e taken rest left d) (fun left d hl => ?_) ⟨[], links, rfl, hfirst⟩
  obtain ⟨taken, rest, hsplit, hl⟩ := hl
  exact lands_nextJoint_chain hn hsplit hl

theorem groupsChains (n : Nat) : GroupsChains n := by
  induction n using levels_induction with
  | level n hn => exact groupsChains_of_deeper hn

end Readers

end Expression

/-- **An operation is the tree of its chain.** If a text is a chain of operands with operators between
them and an expression is read from it, then that is the one tree that the chain has when it is split
at the loosest operator, and both sides in the same way: at the last of equally loose operators, or
at the first one if they group from the right. Each node has the operator with the span of its token,
and spans from where its first operand starts to where its last one stops. -/
theorem Session.expression_chain {text : String} {name : Option String} {u e : Expression}
    {links : List Link} {s : Session} (hc : (Cursor.ofText text).ReadsChain u links)
    (h : (start text name).expression [] = (.ok e, s)) (x : Expression) :
    Expression.Groups u links x ↔ x = e := by
  obtain ⟨r, hr, -⟩ := run_lift_eq_ok.mp h
  obtain ⟨d, -, taken, rest, rfl, hread, hends⟩ :=
    (Expression.groupsChains depthLimit 0 _ u links hc).ok
      (s := { cursor := .ofText text }) (.inl ⟨rfl, rfl⟩) hr
  -- No operator is too loose for an operation that is no right side.
  have hrest : rest = [] := by
    cases rest with
    | nil => rfl
    | cons y rest =>
      obtain ⟨b, -, hlt⟩ := hends y rfl
      exact absurd hlt (Nat.not_lt_zero _)
  subst hrest
  rw [List.append_nil]
  constructor
  · exact fun hx => hread.groups.unique hx
  · rintro rfl
    exact hread.groups

/-- Differences group from the left, and from the left only. -/
theorem Session.expression_chain_differences :
    Expression.Groups (.name ⟨"a", ⟨⟨0, 1, 0⟩, ⟨1, 1, 1⟩⟩⟩)
        [⟨⟨.subtract, ⟨⟨1, 1, 1⟩, ⟨2, 1, 2⟩⟩⟩, .name ⟨"b", ⟨⟨2, 1, 2⟩, ⟨3, 1, 3⟩⟩⟩⟩,
          ⟨⟨.subtract, ⟨⟨3, 1, 3⟩, ⟨4, 1, 4⟩⟩⟩, .name ⟨"c", ⟨⟨4, 1, 4⟩, ⟨5, 1, 5⟩⟩⟩⟩]
        (.binary ⟨.subtract, ⟨⟨3, 1, 3⟩, ⟨4, 1, 4⟩⟩⟩
          (.binary ⟨.subtract, ⟨⟨1, 1, 1⟩, ⟨2, 1, 2⟩⟩⟩ (.name ⟨"a", ⟨⟨0, 1, 0⟩, ⟨1, 1, 1⟩⟩⟩)
            (.name ⟨"b", ⟨⟨2, 1, 2⟩, ⟨3, 1, 3⟩⟩⟩) ⟨⟨0, 1, 0⟩, ⟨3, 1, 3⟩⟩)
          (.name ⟨"c", ⟨⟨4, 1, 4⟩, ⟨5, 1, 5⟩⟩⟩) ⟨⟨0, 1, 0⟩, ⟨5, 1, 5⟩⟩) ∧
      ¬ Expression.Groups (.name ⟨"a", ⟨⟨0, 1, 0⟩, ⟨1, 1, 1⟩⟩⟩)
        [⟨⟨.subtract, ⟨⟨1, 1, 1⟩, ⟨2, 1, 2⟩⟩⟩, .name ⟨"b", ⟨⟨2, 1, 2⟩, ⟨3, 1, 3⟩⟩⟩⟩,
          ⟨⟨.subtract, ⟨⟨3, 1, 3⟩, ⟨4, 1, 4⟩⟩⟩, .name ⟨"c", ⟨⟨4, 1, 4⟩, ⟨5, 1, 5⟩⟩⟩⟩]
        (.binary ⟨.subtract, ⟨⟨1, 1, 1⟩, ⟨2, 1, 2⟩⟩⟩ (.name ⟨"a", ⟨⟨0, 1, 0⟩, ⟨1, 1, 1⟩⟩⟩)
          (.binary ⟨.subtract, ⟨⟨3, 1, 3⟩, ⟨4, 1, 4⟩⟩⟩ (.name ⟨"b", ⟨⟨2, 1, 2⟩, ⟨3, 1, 3⟩⟩⟩)
            (.name ⟨"c", ⟨⟨4, 1, 4⟩, ⟨5, 1, 5⟩⟩⟩) ⟨⟨2, 1, 2⟩, ⟨5, 1, 5⟩⟩)
          ⟨⟨0, 1, 0⟩, ⟨5, 1, 5⟩⟩) := by
  have operand {c d e : Cursor} {u : Expression} (l : Lexeme)
      (h : Expression.operand (Expression.descend 0) { cursor := c } = .ok u ⟨e, some l, 2⟩)
      (hd : d.next true = (.ok l, e)) : c.ReadsOperand u d := ⟨0, _, h, .inr ⟨l, rfl, hd⟩⟩
  have hend : Cursor.ReadsLinks ⟨⟨5, 1, 5⟩, []⟩ [] := .nil ⟨_, rfl⟩
  have hlast : Cursor.ReadsLinks ⟨⟨3, 1, 3⟩, "-c".toList⟩
      [⟨⟨.subtract, ⟨⟨3, 1, 3⟩, ⟨4, 1, 4⟩⟩⟩, .name ⟨"c", ⟨⟨4, 1, 4⟩, ⟨5, 1, 5⟩⟩⟩⟩] :=
    .cons (d := ⟨⟨4, 1, 4⟩, "c".toList⟩) (l := ⟨.symbol .minus, ⟨⟨3, 1, 3⟩, ⟨4, 1, 4⟩⟩⟩)
      (by decide +kernel) (.symbol rfl)
      (operand (e := ⟨⟨5, 1, 5⟩, []⟩) ⟨.endOfSource, .empty ⟨5, 1, 5⟩⟩ (by decide +kernel)
        (by decide +kernel)) hend
  have hboth : Cursor.ReadsLinks ⟨⟨1, 1, 1⟩, "-b-c".toList⟩
      [⟨⟨.subtract, ⟨⟨1, 1, 1⟩, ⟨2, 1, 2⟩⟩⟩, .name ⟨"b", ⟨⟨2, 1, 2⟩, ⟨3, 1, 3⟩⟩⟩⟩,
        ⟨⟨.subtract, ⟨⟨3, 1, 3⟩, ⟨4, 1, 4⟩⟩⟩, .name ⟨"c", ⟨⟨4, 1, 4⟩, ⟨5, 1, 5⟩⟩⟩⟩] :=
    .cons (d := ⟨⟨2, 1, 2⟩, "b-c".toList⟩) (l := ⟨.symbol .minus, ⟨⟨1, 1, 1⟩, ⟨2, 1, 2⟩⟩⟩)
      (by decide +kernel) (.symbol rfl)
      (operand (e := ⟨⟨4, 1, 4⟩, "c".toList⟩) ⟨.symbol .minus, ⟨⟨3, 1, 3⟩, ⟨4, 1, 4⟩⟩⟩
        (by decide +kernel) (by decide +kernel)) hlast
  have hfirst : (Cursor.ofText "a-b-c").ReadsOperand (.name ⟨"a", ⟨⟨0, 1, 0⟩, ⟨1, 1, 1⟩⟩⟩)
      ⟨⟨1, 1, 1⟩, "-b-c".toList⟩ :=
    operand (e := ⟨⟨2, 1, 2⟩, "b-c".toList⟩) ⟨.symbol .minus, ⟨⟨1, 1, 1⟩, ⟨2, 1, 2⟩⟩⟩
      (by decide +kernel) (by decide +kernel)
  have hread : ((start "a-b-c").expression []).1 =
      .ok (.binary ⟨.subtract, ⟨⟨3, 1, 3⟩, ⟨4, 1, 4⟩⟩⟩
        (.binary ⟨.subtract, ⟨⟨1, 1, 1⟩, ⟨2, 1, 2⟩⟩⟩ (.name ⟨"a", ⟨⟨0, 1, 0⟩, ⟨1, 1, 1⟩⟩⟩)
          (.name ⟨"b", ⟨⟨2, 1, 2⟩, ⟨3, 1, 3⟩⟩⟩) ⟨⟨0, 1, 0⟩, ⟨3, 1, 3⟩⟩)
        (.name ⟨"c", ⟨⟨4, 1, 4⟩, ⟨5, 1, 5⟩⟩⟩) ⟨⟨0, 1, 0⟩, ⟨5, 1, 5⟩⟩) := by decide +kernel
  have hgroups := expression_chain ⟨_, hfirst, hboth⟩ (Prod.ext hread rfl)
  exact ⟨(hgroups _).mpr rfl, fun h => nomatch (hgroups _).mp h⟩

end TemplateSyntax
