import TemplateSyntax.Proofs.OrderedReading
import TemplateSyntax.Proofs.Session

/-!
# The filters of a placeable, nested

A placeable keeps its filters in a list, where an expression that may hold bars nests them. A filter
binds more loosely than any operator, so the right side of an operator ends at a bar whether the bar
is a stop or not. Only the outermost operation of the expression goes on there, and it takes the
same filters that the placeable takes one by one.
-/
namespace TemplateSyntax

namespace Expression
open Reader

/-- The value passed through filters, of which the first one is applied first. -/
def through (value : Expression) (filters : List Expression) : Expression :=
  filters.foldl (fun e f => .filter e f ⟨value.span.start, f.span.stop⟩) value

theorem span_start_through (value : Expression) (filters : List Expression) :
    (value.through filters).span.start = value.span.start := by
  rcases filters.eq_nil_or_concat with rfl | ⟨filters, f, rfl⟩
  · rfl
  · simp [through, span]

theorem through_concat (value : Expression) (filters : List Expression) (f : Expression) :
    value.through (filters ++ [f]) =
      .filter (value.through filters) f ⟨value.span.start, f.span.stop⟩ := by
  simp [through]

section Bars
variable {n minimum : Nat} {stops : List String}

/-- Only where a filter may be added does it matter that the bar is a stop. -/
theorem joint?_cons_bar {t : Token} (h : 1 < minimum ∨ t ≠ .symbol .bar) :
    joint? (Symbol.bar.spelling :: stops) minimum t = joint? stops minimum t := by
  by_cases hstop : t.isAnyOf stops = true
  · have hmore : t.isAnyOf (Symbol.bar.spelling :: stops) = true := by
      cases t <;> simp_all [Token.isAnyOf]
    rw [joint?_of_isAnyOf hstop, joint?_of_isAnyOf hmore]
  by_cases hbar : t = .symbol .bar
  · subst hbar
    have hlt : 1 < minimum := h.resolve_right fun h => h rfl
    have hfilter : Joint.ofToken? (.symbol .bar) = some .filter := rfl
    have hbinding : Joint.filter.binding? = some ⟨1, false⟩ := rfl
    rw [joint?_of_isAnyOf (by simp [Token.isAnyOf]), joint?_eq_none_of_lt hfilter hbinding hlt]
  cases hmore : t.isAnyOf (Symbol.bar.spelling :: stops) with
  | false => simp only [joint?, hmore, Bool.not_eq_true _ ▸ hstop]
  | true =>
    -- No token but the bar is a joint that is written like a bar.
    have hnone : Joint.ofToken? t = none := by
      cases t with
      | symbol s =>
        have hs : s.spelling = Symbol.bar.spelling := by simp_all [Token.isAnyOf]
        cases s <;> first | exact absurd hs (by decide) | exact absurd rfl hbar
      | identifier word =>
        have hs : word = Symbol.bar.spelling := by simp_all [Token.isAnyOf]
        subst hs
        decide
      | _ => rfl
    rw [joint?_of_isAnyOf hmore, joint?, hnone]
    simp

/-- A pass is the same whether the bar is a stop or not, unless it would add a filter, and if this
holds of the right sides of its operators. -/
theorem nextJoint_cons_bar_of_deeper {s : Reader}
    (hn : ∀ m, n = m + 1 → ∀ least, 1 < least →
      operation (descend m) (Symbol.bar.spelling :: stops) least = operation (descend m) stops least)
    (h : 1 < minimum ∨ ∀ l t, peek s = .ok l t → l.token ≠ .symbol .bar) (left : Expression) :
    nextJoint (descend n) (Symbol.bar.spelling :: stops) minimum left s =
      nextJoint (descend n) stops minimum left s := by
  unfold nextJoint
  rw [run_bind, run_bind]
  cases hp : peek s with
  | error f t => rfl
  | ok l t =>
    dsimp only
    rw [joint?_cons_bar (h.imp id fun h => h l t hp)]
    refine congrFun ?_ t
    split
    · rfl
    · rfl
    · next op binding hj =>
      obtain ⟨-, -, hb, -⟩ := joint?_eq_some_iff.mp hj
      cases n with
      | zero => rfl
      | succ m =>
        simp only [descend_succ_bind, hn m rfl _ (Operator.one_lt_rightMinimum hb)]
        rfl

/-- The right side of an operator is read alike, whether a bar is a stop or not. -/
theorem operation_cons_bar (h : 1 < minimum) :
    operation (descend n) (Symbol.bar.spelling :: stops) minimum =
      operation (descend n) stops minimum := by
  induction n using levels_induction generalizing minimum with
  | level n hn =>
    have hpass : nextJoint (descend n) (Symbol.bar.spelling :: stops) minimum =
        nextJoint (descend n) stops minimum :=
      funext fun left => funext fun _ => nextJoint_cons_bar_of_deeper
        (fun m hm _ hl => hn m hm hl) (.inl h) left
    rw [operation, operation, hpass]

variable {s t : Reader} {l : Lexeme} {left value : Expression}

/-- The pass that ends an operation only looks at the next token. -/
theorem nextJoint_eq_done
    (h : nextJoint (descend n) stops minimum left s = .ok (.done value) t) :
    value = left ∧ ∃ l, peek s = .ok l t := by
  obtain ⟨l, u, hp, hpass⟩ := bind_eq_ok h
  match hj : joint? stops minimum l.token with
  | none =>
    simp only [hj] at hpass
    cases hpass
    exact ⟨rfl, l, hp⟩
  | some (.filter, _) =>
    simp only [hj] at hpass
    obtain ⟨_, _, -, hpass⟩ := bind_eq_ok hpass
    obtain ⟨_, _, -, hpass⟩ := bind_eq_ok hpass
    cases hpass
  | some (.binary _, _) =>
    simp only [hj] at hpass
    obtain ⟨_, _, -, hpass⟩ := bind_eq_ok hpass
    obtain ⟨_, _, -, hpass⟩ := bind_eq_ok hpass
    obtain ⟨_, _, -, hpass⟩ := bind_eq_ok hpass
    cases hpass

/-- No joint is taken at a stop. -/
theorem nextJoint_of_stop (hp : peek s = .ok l t) (hl : l.token.isAnyOf stops = true) :
    nextJoint (descend n) stops minimum left s = .ok (.done left) t := by
  unfold nextJoint
  rw [run_bind_ok hp, joint?_of_isAnyOf hl]
  rfl

/-- Operators and filters are taken alike before and after the next token is looked at. -/
theorem joints_of_peek (hp : peek s = .ok l t) (left : Expression) :
    loop Reader.size (nextJoint (descend n) stops minimum) left s =
      loop Reader.size (nextJoint (descend n) stops minimum) left t := by
  have hpass : nextJoint (descend n) stops minimum left s =
      nextJoint (descend n) stops minimum left t := by
    unfold nextJoint
    rw [run_bind_ok hp, run_bind_ok (peek_of_peeked (peeked_of_peek hp))]
  rw [loop_eq (descends_nextJoint (tokenWise_descend n) _ _), run_bind, run_bind, hpass]

/-- An operation that ends at bars is the beginning of one that goes on there. -/
theorem joints_of_joints_cons_bar
    (h : loop Reader.size (nextJoint (descend n) (Symbol.bar.spelling :: stops) minimum) left s =
      .ok value t) :
    loop Reader.size (nextJoint (descend n) stops minimum) left s =
      loop Reader.size (nextJoint (descend n) stops minimum) value t := by
  have hd (stops : List String) := descends_nextJoint (tokenWise_descend n) stops minimum
  induction hsize : s.size using Nat.strong_induction_on generalizing s left with
  | h size ih =>
    rw [loop_eq (hd _)] at h
    obtain ⟨x, u, hpass, h⟩ := bind_eq_ok h
    cases x with
    | done e =>
      cases h
      obtain ⟨rfl, l, hp⟩ := nextJoint_eq_done hpass
      exact joints_of_peek hp _
    | yield e =>
      have hbar : ∀ l w, peek s = .ok l w → l.token ≠ .symbol .bar := by
        intro l w hp hl
        rw [nextJoint_of_stop hp (by simp [hl, Token.isAnyOf])] at hpass
        cases hpass
      rw [nextJoint_cons_bar_of_deeper (fun _ _ _ => operation_cons_bar) (.inr hbar)] at hpass
      rw [loop_eq (hd _), run_bind_ok hpass]
      exact ih _ (hsize ▸ hd _ _ _ _ _ hpass) h rfl

end Bars

/-! ## From the first bar on -/

section Filters
variable {n : Nat} {stops : List String} {s t : Reader} {c d : Cursor} {value : Expression}

/-- At a bar, the pass of the placeable and the pass of the expression take the same filter. -/
theorem nextJoint_of_nextFilter {filters filters' : List Expression} (hs : StopsAt true stops)
    (hat : s.At d) (hrow : c.Row [.expression (value.through filters)] d)
    (h : Draft.nextFilter n filters s = .ok (.yield filters') t) :
    nextJoint (descend n) stops 0 (value.through filters) s =
        .ok (.yield (value.through filters')) t ∧
      ∃ e, t.At e ∧ c.Row [.expression (value.through filters')] e := by
  rw [Draft.nextFilter, atSymbol_bind_eq] at h
  obtain ⟨l, u, hp, h⟩ := bind_eq_ok h
  have hnext := hat.peek_eq_ok hp
  have hu : u.At d := .inr ⟨l, peeked_of_peek hp, hnext⟩
  have hd' : d.Reads l.token u.cursor := ⟨l.span, hnext⟩
  by_cases hl : l.token = .symbol .bar
  · simp only [hl, beq_self_eq_true, if_true] at h
    obtain ⟨_, v, hskip, h⟩ := bind_eq_ok h
    obtain ⟨f, w, hf, h⟩ := bind_eq_ok h
    cases h
    have hterm : Lands (do Functor.discard Reader.next; term (descend n)) d
        fun f e => d.Row [.expression f] e :=
      Lands.skip hd' ((row_term (fun m _ => inOrder m) _).mono fun _ _ hr => .of_skip hd' hr)
    obtain ⟨e, he, hrow'⟩ := hterm.ok hu (by rw [run_bind_ok hskip]; exact hf)
    have hrow' := hrow.append hrow'
    have hspan : (value.through filters).span.combine f.span = ⟨value.span.start, f.span.stop⟩ := by
      rw [← span_start_through value filters]
      exact Node.Row.combine [] hrow' (by simp)
    have hfilter := Node.row_filter hrow'
    rw [hspan, ← through_concat] at hfilter
    refine ⟨?_, e, he, hfilter⟩
    have hjoint : joint? stops 0 l.token = some (.filter, ⟨1, false⟩) :=
      (joint?_eq_filter_iff hs).mpr ⟨hl, rfl, Nat.zero_le _, rfl⟩
    have hterm : term (descend n) v = .ok f t := hf
    unfold nextJoint
    rw [run_bind_ok hp]
    simp only [hjoint]
    rw [run_bind_ok hskip, run_bind_ok hterm, through_concat, hspan]
    rfl
  · simp only [beq_false_of_ne hl] at h
    cases h

/-- The last pass of the placeable finds no bar. -/
theorem nextFilter_eq_done {filters filters' : List Expression}
    (h : Draft.nextFilter n filters s = .ok (.done filters') t) :
    filters' = filters ∧ ∃ l, peek s = .ok l t := by
  rw [Draft.nextFilter, atSymbol_bind_eq] at h
  obtain ⟨l, u, hp, h⟩ := bind_eq_ok h
  by_cases hl : l.token = .symbol .bar
  · simp only [hl, beq_self_eq_true, if_true] at h
    obtain ⟨_, _, -, h⟩ := bind_eq_ok h
    obtain ⟨_, _, -, h⟩ := bind_eq_ok h
    cases h
  · simp only [beq_false_of_ne hl] at h
    cases h
    exact ⟨rfl, l, hp⟩

/-- The filters that a placeable reads are those that the expression goes on with, if the token
behind them is a stop. -/
theorem joints_of_filters {filters filters' : List Expression} (hs : StopsAt true stops)
    (hat : s.At d) (hrow : c.Row [.expression (value.through filters)] d)
    (h : loop Reader.size (Draft.nextFilter n) filters s = .ok filters' t)
    (hstop : ∀ l, t.peeked = some l → l.token.isAnyOf stops = true) :
    loop Reader.size (nextJoint (descend n) stops 0) (value.through filters) s =
        .ok (value.through filters') t ∧
      ∃ l, t.peeked = some l := by
  have hd : Descends Reader.size (Draft.nextFilter n) := Draft.descends_nextFilter
  induction hsize : s.size using Nat.strong_induction_on generalizing s d filters with
  | h size ih =>
    rw [loop_eq hd] at h
    rw [loop_eq (descends_nextJoint (tokenWise_descend n) _ _)]
    obtain ⟨x, u, hpass, h⟩ := bind_eq_ok h
    cases x with
    | done found =>
      cases h
      obtain ⟨rfl, l, hp⟩ := nextFilter_eq_done hpass
      have hkept := peeked_of_peek hp
      rw [run_bind_ok (nextJoint_of_stop hp (hstop l hkept))]
      exact ⟨rfl, l, hkept⟩
    | yield found =>
      obtain ⟨hjoint, e, he, hrow'⟩ := nextJoint_of_nextFilter hs hat hrow hpass
      rw [run_bind_ok hjoint]
      exact ih _ (hsize ▸ hd _ _ _ _ hpass) he hrow' h rfl

end Filters

/-- A symbol that was looked at is expected. -/
theorem expectSymbol_of_peeked {s t : Reader} {x : Symbol} {span : Span} {l : Lexeme}
    (h : expectSymbol x s = .ok span t) (hl : s.peeked = some l) :
    l = ⟨.symbol x, span⟩ ∧ t = { s with peeked := none } := by
  obtain ⟨l', u, hn, h⟩ := bind_eq_ok h
  rw [next_of_peeked hl] at hn
  cases hn
  split at h
  · next ht =>
    cases h
    exact ⟨by rw [← ht], rfl⟩
  · cases h

/-- Where a placeable is read, an expression up to its end is read as well, and stops before the
symbol that closes the placeable. -/
theorem read_of_placeable {n : Nat} {c : Cursor} {opening span : Span} {s t : Reader}
    {value : Expression} {filters : List Expression} (hs : s.At c)
    (h : Draft.placeable n opening s = .ok (.put value filters span) t) :
    ∃ u close, read n [Symbol.endPut.spelling] s = .ok (value.through filters) u ∧
      next u = .ok ⟨.symbol .endPut, close⟩ t ∧ span = opening.combine close := by
  obtain ⟨v, w, hv, h⟩ := bind_eq_ok h
  obtain ⟨fs, u, hfs, h⟩ := bind_eq_ok h
  obtain ⟨close, w', hclose, h⟩ := bind_eq_ok h
  cases h
  obtain ⟨d, hd, hrow⟩ := (row_read n _ c).ok hs hv
  have hstops : StopsAt true [Symbol.endPut.spelling] :=
    ⟨fun op => by cases op <;> decide, by decide, by decide⟩
  obtain ⟨hjoints, l, hl⟩ := joints_of_filters hstops hd hrow hfs fun l hl => by
    obtain ⟨rfl, -⟩ := expectSymbol_of_peeked hclose hl
    simp [Token.isAnyOf]
  obtain ⟨rfl, rfl⟩ := expectSymbol_of_peeked hclose hl
  obtain ⟨e, w'', he, hv⟩ := bind_eq_ok hv
  refine ⟨u, close, ?_, next_of_peeked hl, rfl⟩
  rw [read, operation, run_bind_ok he, joints_of_joints_cons_bar hv]
  exact hjoints

end Expression

namespace Session
variable {s t : Session}

/-- **The filters of a placeable nest.** If a placeable is read behind its opening, whatever the
session has read before and however many levels are left, then an expression up to the end of the
placeable is read from there as well. It is the value of the placeable passed through its filters,
each around the one before and from where the value starts to where the filter stops. The symbol
that closes the placeable is then the next token. -/
theorem expression_of_placeable {n : Nat} {opening span : Span} {value : Expression}
    {filters : List Expression} (hs : s.draft.reader.peeked = none)
    (h : s.run (Draft.placeable n opening) = (.ok (.put value filters span), t)) :
    ∃ u close, s.run (Expression.read n [Symbol.endPut.spelling]) =
        (.ok (value.through filters), u) ∧
      u.next = (.ok ⟨.symbol .endPut, close⟩, t) ∧ span = opening.combine close := by
  obtain ⟨r, hr, rfl⟩ := run_lift_eq_ok.mp h
  obtain ⟨r', close, hread, hclose, hspan⟩ := Expression.read_of_placeable (.inl ⟨hs, rfl⟩) hr
  exact ⟨_, close, run_lift_eq_ok.mpr ⟨r', hread, rfl⟩, run_lift_eq_ok.mpr ⟨r, hclose, rfl⟩, hspan⟩

/-- Behind the opening of `\x7b\x7b(a|b)*c|f|g\x7d\x7d`: the bar in parentheses belongs to the value. -/
theorem expression_of_placeable_parens :
    ∃ u close, (start "\x7b\x7b(a|b)*c|f|g\x7d\x7d").next.2.expression [Symbol.endPut.spelling] =
        (.ok (.filter
          (.filter
            (.binary ⟨.multiply, ⟨⟨7, 1, 7⟩, ⟨8, 1, 8⟩⟩⟩
              (.filter (.name ⟨"a", ⟨⟨3, 1, 3⟩, ⟨4, 1, 4⟩⟩⟩) (.name ⟨"b", ⟨⟨5, 1, 5⟩, ⟨6, 1, 6⟩⟩⟩)
                ⟨⟨3, 1, 3⟩, ⟨6, 1, 6⟩⟩)
              (.name ⟨"c", ⟨⟨8, 1, 8⟩, ⟨9, 1, 9⟩⟩⟩) ⟨⟨3, 1, 3⟩, ⟨9, 1, 9⟩⟩)
            (.name ⟨"f", ⟨⟨10, 1, 10⟩, ⟨11, 1, 11⟩⟩⟩) ⟨⟨3, 1, 3⟩, ⟨11, 1, 11⟩⟩)
          (.name ⟨"g", ⟨⟨12, 1, 12⟩, ⟨13, 1, 13⟩⟩⟩) ⟨⟨3, 1, 3⟩, ⟨13, 1, 13⟩⟩), u) ∧
      u.next.1 = .ok ⟨.symbol .endPut, close⟩ := by
  have hput : ((start "\x7b\x7b(a|b)*c|f|g\x7d\x7d").next.2.run
      (Draft.placeable depthLimit ⟨.start, ⟨2, 1, 2⟩⟩)).1 =
      .ok (.put (.binary ⟨.multiply, ⟨⟨7, 1, 7⟩, ⟨8, 1, 8⟩⟩⟩
          (.filter (.name ⟨"a", ⟨⟨3, 1, 3⟩, ⟨4, 1, 4⟩⟩⟩) (.name ⟨"b", ⟨⟨5, 1, 5⟩, ⟨6, 1, 6⟩⟩⟩)
            ⟨⟨3, 1, 3⟩, ⟨6, 1, 6⟩⟩)
          (.name ⟨"c", ⟨⟨8, 1, 8⟩, ⟨9, 1, 9⟩⟩⟩) ⟨⟨3, 1, 3⟩, ⟨9, 1, 9⟩⟩)
        [.name ⟨"f", ⟨⟨10, 1, 10⟩, ⟨11, 1, 11⟩⟩⟩, .name ⟨"g", ⟨⟨12, 1, 12⟩, ⟨13, 1, 13⟩⟩⟩]
        ⟨.start, ⟨15, 1, 15⟩⟩) := by decide +kernel
  obtain ⟨u, close, hread, hnext, -⟩ :=
    expression_of_placeable (by decide +kernel) (Prod.ext hput rfl)
  exact ⟨u, close, hread, by rw [hnext]⟩

end Session
end TemplateSyntax
