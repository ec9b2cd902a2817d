import TemplateSyntax.Proofs.Grammar

/-!
# What single tokens decide

A string literal has a value exactly if it closes and its escapes are known. Whether a token goes on
with an operation depends on the stops only for the bar: no operator is ever a stop.
-/
namespace TemplateSyntax

namespace Text.Quoted

theorem escape?_isSome_iff (c : Char) :
    (escape? c).isSome ↔ c ∈ ['n', 'r', 't', '\\', '"', '\''] := by
  unfold escape? isQuote
  split <;> simp_all

theorem decode_cons {quote c : Char} (hb : c ≠ '\\') (cs : List Char) :
    decode quote (c :: cs) =
      if c = quote then .ok [] else (decode quote cs).map (c :: ·) := by
  rw [decode]
  · exact fun h => absurd h hb
  · exact fun _ _ h => absurd h hb

/-- A literal with a value closes where it was found to end. -/
theorem closes_of_decode {quote : Char} {cs value : List Char}
    (h : decode quote (scan quote cs) = .ok value) : Closes quote (scan quote cs) := by
  fun_induction scan quote cs generalizing value with
  | case1 => simp [decode] at h
  | case2 => simp [decode] at h
  | case3 c cs ih =>
    rw [decode] at h
    cases he : escape? c with
    | none => simp [he] at h
    | some d =>
      cases hd : decode quote (scan quote cs) with
      | error e => simp [he, hd, Except.map] at h
      | ok v => exact .escape ((escape?_isSome_iff c).mp (by simp [he])) (ih hd)
  | case4 cs => exact .close
  | case5 c cs h₁ h₂ hc ih =>
    have hb : c ≠ '\\' := by
      intro hb
      cases cs with
      | nil => exact h₁ hb rfl
      | cons d cs => exact h₂ d cs hb rfl
    rw [decode_cons hb, if_neg hc] at h
    cases hd : decode quote (scan quote cs) with
    | error e => simp [hd, Except.map] at h
    | ok v => exact .plain hb hc (ih hd)

theorem decode_of_closes {quote : Char} (hq : isQuote quote) {cs : List Char}
    (h : Closes quote cs) : ∃ value, decode quote cs = .ok value := by
  have hne : quote ≠ '\\' := by
    rintro rfl
    exact absurd hq (by decide)
  induction h with
  | close => exact ⟨[], by rw [decode_cons hne, if_pos rfl]⟩
  | plain hb hq' _ ih =>
    obtain ⟨value, hv⟩ := ih
    exact ⟨_, by rw [decode_cons hb, if_neg hq', hv]; rfl⟩
  | escape hc _ ih =>
    obtain ⟨value, hv⟩ := ih
    obtain ⟨d, hd⟩ := Option.isSome_iff_exists.mp ((escape?_isSome_iff _).mpr hc)
    exact ⟨_, by rw [decode, hd, hv]; rfl⟩

end Text.Quoted

/-- A string token is a quote and what is found behind it. -/
theorem Cursor.Reads.exists_scan {c d : Cursor} {raw : String} (h : c.Reads (.string raw) d) :
    ∃ quote cs, Text.Quoted.isQuote quote ∧ raw.toList = quote :: Text.Quoted.scan quote cs := by
  obtain ⟨span, h⟩ := h
  have hp := (Cursor.next_eq_ok h).1
  rw [Cursor.nextPiece] at hp
  cases hr : c.skipBlanks.rest with
  | nil =>
    rw [hr] at hp
    cases hp
  | cons a cs =>
    rw [hr] at hp
    simp only [Piece.first, Bool.true_and] at hp
    split at hp
    · next hq =>
      cases hp
      exact ⟨a, cs, hq, by simp⟩
    · split at hp
      · unfold Piece.number at hp
        split at hp <;> (dsimp only at hp; split at hp <;> cases hp)
      · split at hp
        · cases hp
        · split at hp <;> cases hp

namespace Operator

theorem WrittenAs.isAnyOf {op : Operator} {t : Token} (h : op.WrittenAs t) (stops : List String) :
    t.isAnyOf stops = stops.contains op.spelling := by
  cases h with
  | symbol h => simp only [Token.isAnyOf, h]
  | word _ => rfl

/-- No operator goes on with a term. -/
theorem WrittenAs.ne_suffix {op : Operator} {t : Token} (h : op.WrittenAs t) :
    t ≠ .symbol .dot ∧ t ≠ .symbol .openParen := by
  cases h with
  | symbol h =>
    constructor <;> (rintro ⟨⟩; cases op <;> exact absurd h (by decide))
  | word _ => simp

/-- Every operator binds tighter than a filter does. -/
theorem one_lt_rightMinimum {op : Operator} {b : Binding} (h : op.binding? = some b) :
    1 < b.rightMinimum := by
  cases op <;> simp only [binding?, Option.some.injEq, reduceCtorEq] at h <;> subst h <;> decide

end Operator

namespace Expression

theorem Joint.ofToken?_symbol {s : Symbol} {op : Operator} (h : s.spelling = op.spelling) :
    Joint.ofToken? (.symbol s) = some (.binary op) := by
  cases s <;> cases op <;> first | rfl | exact absurd h (by decide)

/-- The token and the reader of string literals agree on which of them have a value. -/
theorem stringValue_isLiteral {c d : Cursor} {raw : String} (h : c.Reads (.string raw) d)
    (span : Span) : (∃ e, stringValue raw span = pure e) ∧ Text.Quoted.IsLiteral raw ∨
      (∃ f, stringValue raw span = throw f) ∧ ¬ Text.Quoted.IsLiteral raw := by
  obtain ⟨quote, cs, hq, hraw⟩ := h.exists_scan
  unfold stringValue
  rw [hraw]
  cases hd : Text.Quoted.decode quote (Text.Quoted.scan quote cs) with
  | ok value =>
    exact .inl ⟨⟨_, by simp only [hd]; rfl⟩, quote, _, hraw, Text.Quoted.closes_of_decode hd⟩
  | error defect =>
    refine .inr ⟨?_, ?_⟩
    · cases defect with
      | unknownEscape escaped => exact ⟨_, by simp only [hd]; rfl⟩
      | unclosed => exact ⟨_, by simp only [hd]; rfl⟩
    · rintro ⟨quote', inside, hraw', hcloses⟩
      rw [hraw] at hraw'
      cases hraw'
      obtain ⟨value, hv⟩ := Text.Quoted.decode_of_closes hq hcloses
      rw [hd] at hv
      cases hv

/-- The next token of an operation is an operator exactly if it is written like one. -/
theorem Joint.ofToken?_eq_binary_iff {t : Token} {op : Operator} :
    Joint.ofToken? t = some (.binary op) ↔ op.WrittenAs t := by
  constructor
  · intro h
    unfold Joint.ofToken? at h
    split at h
    · cases h
    · next s _ =>
      obtain ⟨op', hop, hj⟩ := Option.map_eq_some_iff.mp h
      cases hj
      exact .symbol (Operator.spelling_of_ofSymbol? hop).symm
    · next word =>
      obtain ⟨op', hop, hj⟩ := Option.map_eq_some_iff.mp h
      cases hj
      obtain ⟨k, hk, hop⟩ := Option.bind_eq_some_iff.mp hop
      have hword := Keyword.ofSpelling?_eq_some_iff.mp hk
      rw [hword, ← Operator.spelling_of_ofKeyword? hop]
      refine .word ?_
      cases k <;> simp [Operator.ofKeyword?] at hop <;> simp [← hop]
    · cases h
  · rintro (⟨h⟩ | ⟨rfl | rfl⟩)
    · exact ofToken?_symbol h
    · decide
    · decide

theorem Joint.ofToken?_eq_filter_iff {t : Token} :
    Joint.ofToken? t = some .filter ↔ t = .symbol .bar := by
  constructor
  · intro h
    unfold Joint.ofToken? at h
    split at h
    · rfl
    · obtain ⟨op, -, hj⟩ := Option.map_eq_some_iff.mp h
      cases hj
    · obtain ⟨op, -, hj⟩ := Option.map_eq_some_iff.mp h
      cases hj
    · cases h
  · rintro rfl
    rfl

/-- A sign is the minus or the word `not`. -/
theorem sign?_isSome_iff {t : Token} :
    (sign? t).isSome ↔ t = .symbol .minus ∨ t = .identifier Keyword.notWord.spelling := by
  unfold sign?
  split
  · simp
  · next word =>
    by_cases hw : word = Keyword.notWord.spelling
    · simp [hw]
    · simp [hw]
  · simp_all

/-- The stops of an operation: what goes on with an operand is never among them, and the bar is if
the operation may have no filter. -/
structure StopsAt (bars : Bool) (stops : List String) : Prop where
  operators : ∀ op : Operator, op.spelling ∉ stops
  suffixes : Symbol.dot.spelling ∉ stops ∧ Symbol.openParen.spelling ∉ stops
  bar : Symbol.bar.spelling ∈ stops ↔ bars = false

theorem stopsAt_items : StopsAt true [Symbol.comma.spelling, Symbol.closeParen.spelling] :=
  ⟨fun op => by cases op <;> decide, by decide, by decide⟩

theorem stopsAt_parens : StopsAt true [Symbol.closeParen.spelling] :=
  ⟨fun op => by cases op <;> decide, by decide, by decide⟩

theorem stopsAt_tag : StopsAt true [Symbol.endTag.spelling] :=
  ⟨fun op => by cases op <;> decide, by decide, by decide⟩

theorem stopsAt_iterable : StopsAt true [Keyword.ifWord.spelling, Symbol.endTag.spelling] :=
  ⟨fun op => by cases op <;> decide, by decide, by decide⟩

theorem stopsAt_placeable : StopsAt false [Symbol.bar.spelling, Symbol.endPut.spelling] :=
  ⟨fun op => by cases op <;> decide, by decide, by decide⟩

section Joints
variable {bars : Bool} {stops : List String} {minimum : Nat} {t : Token} {op : Operator}
  {b : Binding}

theorem joint?_eq_some_iff {joint : Joint} :
    joint? stops minimum t = some (joint, b) ↔ t.isAnyOf stops = false ∧
      Joint.ofToken? t = some joint ∧ joint.binding? = some b ∧ minimum ≤ b.power := by
  unfold joint?
  cases ht : t.isAnyOf stops with
  | true => simp
  | false =>
    simp only [Bool.false_eq_true, if_false, Option.bind_eq_bind, Option.bind_eq_some_iff, true_and]
    constructor
    · rintro ⟨joint', hj, b', hb, h⟩
      split at h
      · next hle =>
        cases h
        exact ⟨hj, hb, hle⟩
      · cases h
    · rintro ⟨hj, hb, hle⟩
      exact ⟨joint, hj, b, hb, if_pos hle⟩

/-- A joint that binds too loosely does not go on with an operation. -/
theorem joint?_eq_none_of_lt {joint : Joint} (hj : Joint.ofToken? t = some joint)
    (hb : joint.binding? = some b) (hlt : b.power < minimum) : joint? stops minimum t = none := by
  cases h : joint? stops minimum t with
  | none => rfl
  | some x =>
    obtain ⟨-, hj', hb', hle⟩ := joint?_eq_some_iff.mp h
    rw [hj] at hj'
    cases hj'
    rw [hb] at hb'
    cases hb'
    omega

theorem joint?_of_isAnyOf (h : t.isAnyOf stops = true) : joint? stops minimum t = none := by
  simp [joint?, h]

theorem joint?_eq_binary_iff (hs : StopsAt bars stops) :
    joint? stops minimum t = some (.binary op, b) ↔
      op.WrittenAs t ∧ op.binding? = some b ∧ minimum ≤ b.power := by
  rw [joint?_eq_some_iff, Joint.ofToken?_eq_binary_iff]
  constructor
  · exact fun h => h.2
  · intro h
    refine ⟨?_, h⟩
    rw [h.1.isAnyOf]
    simpa using hs.operators op

theorem joint?_eq_filter_iff (hs : StopsAt bars stops) :
    joint? stops minimum t = some (.filter, b) ↔
      t = .symbol .bar ∧ bars = true ∧ minimum ≤ 1 ∧ b = ⟨1, false⟩ := by
  rw [joint?_eq_some_iff, Joint.ofToken?_eq_filter_iff]
  have hbar : (Token.symbol .bar).isAnyOf stops = false ↔ bars = true := by
    have := hs.bar
    cases bars <;> simp_all [Token.isAnyOf]
  constructor
  · rintro ⟨hany, rfl, hb, hle⟩
    cases hb
    exact ⟨rfl, hbar.mp hany, hle, rfl⟩
  · rintro ⟨rfl, hb, hle, rfl⟩
    exact ⟨hbar.mpr hb, rfl, rfl, hle⟩

end Joints
end Expression
end TemplateSyntax
