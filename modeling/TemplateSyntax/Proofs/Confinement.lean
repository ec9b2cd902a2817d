import TemplateSyntax.Proofs.Splitting

/-!
# Faults in a tag are found in the tag

A tag or placeable goes up to the first symbol that can close it. Its readers take that symbol last:
what they read before is no such symbol, and where one stands in the place of another token they
fail without reading on. So wherever a reader of a tag fails, it has not come behind the end of the
tag.
-/
namespace TemplateSyntax

namespace Cursor
variable {c d : Cursor} {stop : Symbol} {t : Token}

theorem skipThrough_of_rest_eq_nil (h : c.rest = []) : c.skipThrough stop = c :=
  skipThrough_of_reads_last ⟨_, next_of_rest_eq_nil h true⟩ (.inr rfl)

/-- Behind any other token than the symbol, as much is skipped as before it. -/
theorem Reads.skipThrough_eq (h : c.Reads t d) (ht : t ≠ .symbol stop) :
    d.skipThrough stop = c.skipThrough stop := by
  by_cases hend : t = .endOfSource
  · have hd : d.rest = [] := by
      obtain ⟨span, hn⟩ := h
      obtain ⟨htoken, -, rfl⟩ := next_eq_ok hn
      exact (c.skipBlanks_reaches_behindNext true).rest_eq_nil
        (nextPiece_eq_endOfSource_iff.mp (hend ▸ htoken))
    rw [skipThrough_of_reads_last h (.inr hend), skipThrough_of_rest_eq_nil hd]
  · rw [skipThrough_of_reads h ht hend]

/-- What is skipped goes on behind characters that are no token. -/
theorem skipThrough_of_error {f : Fault} (h : c.next true = (.error f, d)) :
    c.skipThrough stop = d.skipThrough stop := by
  rw [skipThrough]
  split
  · next hn =>
    rw [h] at hn
    cases hn
  · next hn =>
    rw [h] at hn
    cases hn
    rfl

end Cursor

namespace Reader
variable {α β : Type} {stop : Symbol} {e : Cursor}

/-- The reader is in a tag or placeable, of which the end is at the cursor. -/
def Before (stop : Symbol) (e : Cursor) (r : Reader) : Prop :=
  ∃ c, r.At c ∧ c.skipThrough stop = e

/-- Taking one more token in a tag either stays in it or comes to its end. -/
theorem Before.next {r : Reader} (h : r.Before stop e) :
    Ends (fun l t => (l.token ≠ .symbol stop → t.Before stop e) ∧ t.cursor.Reaches e ∧
        (l.token = .symbol stop → t.peeked = none ∧ t.cursor = e))
      (fun _ t => t.cursor.Reaches e) (Reader.next r) := by
  obtain ⟨c, hc, rfl⟩ := h
  cases hn : Reader.next r with
  | ok l t =>
    obtain ⟨hl, ht⟩ := hc.next_eq_ok hn
    have hreads : c.Reads l.token t.cursor := ⟨l.span, hl⟩
    have hstay (hne : l.token ≠ .symbol stop) : t.Before stop (c.skipThrough stop) :=
      ⟨t.cursor, .inl ⟨ht, rfl⟩, hreads.skipThrough_eq hne⟩
    have hlast (heq : l.token = .symbol stop) : t.cursor = c.skipThrough stop :=
      (Cursor.skipThrough_of_reads_last hreads (.inl heq)).symm
    refine ⟨hstay, ?_, fun heq => ⟨ht, hlast heq⟩⟩
    by_cases heq : l.token = .symbol stop
    · rw [hlast heq]
      exact .refl _
    · rw [← hreads.skipThrough_eq heq]
      exact t.cursor.reaches_skipThrough stop
  | error f t =>
    rcases hc with ⟨hp, rfl⟩ | ⟨l, hp, -⟩
    · obtain ⟨-, hr, rfl⟩ := next_eq_error hn
      change (r.cursor.behindNext true).Reaches _
      rw [Cursor.skipThrough_of_error hr]
      exact Cursor.reaches_skipThrough _ _
    · rw [next_of_peeked hp] at hn
      cases hn

theorem Before.peek {r : Reader} (h : r.Before stop e) :
    Ends (fun l t => t.Before stop e ∧ t.peeked = some l) (fun _ t => t.cursor.Reaches e)
      (Reader.peek r) := by
  have hnext := h.next
  obtain ⟨c, hc, rfl⟩ := h
  rw [run_peek]
  cases hn : Reader.next r with
  | ok l t =>
    obtain ⟨hl, -⟩ := hc.next_eq_ok hn
    exact ⟨⟨c, .inr ⟨l, rfl, hl⟩, rfl⟩, rfl⟩
  | error f t => rwa [hn] at hnext

/-- A reader in a tag has not come behind its end. -/
theorem Before.reaches {r : Reader} (h : r.Before stop e) : r.cursor.Reaches e := by
  have hnext := h.next
  obtain ⟨c, ⟨hp, rfl⟩ | ⟨l, hp, -⟩, rfl⟩ := h
  · exact r.cursor.reaches_skipThrough stop
  · rw [next_of_peeked hp] at hnext
    exact hnext.2.1

/-- In a tag the computation does not take the symbol that ends the tag, and fails in the tag if it
fails. -/
def Guards (stop : Symbol) (m : ReadM α) : Prop :=
  ∀ e, Ensures (Before stop e) m (fun _ => Before stop e) fun _ t => t.cursor.Reaches e

/-- In a tag the computation comes to the end of the tag, or fails in the tag. -/
def Closes (stop : Symbol) (m : ReadM α) : Prop :=
  ∀ e, Ensures (Before stop e) m (fun _ t => t.peeked = none ∧ t.cursor = e)
    fun _ t => t.cursor.Reaches e

namespace Guards
variable {m : ReadM α} {f : α → ReadM β}

theorem pure (a : α) : Guards stop (pure a) := fun _ => Ensures.pure fun _ h => h

theorem throw (fault : Fault) : Guards stop (throw fault : ReadM α) :=
  fun _ => Ensures.throw fun _ h => h.reaches

theorem bind (hm : Guards stop m) (hf : ∀ a, Guards stop (f a)) : Guards stop (m >>= f) :=
  fun e => (hm e).bind fun a => hf a e

theorem discard (hm : Guards stop m) : Guards stop (discard m) := hm.bind fun _ => pure _

theorem loop {step : β → ReadM (ForInStep β)} (h : ∀ b, Guards stop (step b)) (b : β) :
    Guards stop (loop Reader.size step b) :=
  fun e => Ensures.loop_weak (I := fun _ => Before stop e)
    (fun b => (h b e).after fun r _ hs => by cases r <;> exact hs) b

theorem closes (hm : Guards stop m) (hf : ∀ a, Closes stop (f a)) : Closes stop (m >>= f) :=
  fun e => (hm e).bind fun a => hf a e

/-- A token is taken. If it is the end of the tag then it is not the one that was wanted. -/
theorem next_bind {f : Lexeme → ReadM β} (hf : ∀ l, l.token ≠ .symbol stop → Guards stop (f l))
    (hstop : ∀ l, l.token = .symbol stop → ∃ fault, f l = throwThe Fault fault) :
    Guards stop (next >>= f) := by
  intro e
  refine Ensures.bind (fun r hr => Before.next hr) fun l r ⟨hstay, hreaches, _⟩ => ?_
  by_cases hl : l.token = .symbol stop
  · obtain ⟨fault, hthrow⟩ := hstop l hl
    rw [hthrow]
    exact hreaches
  · exact hf l hl e r (hstay hl)

/-- A token is looked at, and taken only if it is not the end of the tag. -/
theorem peek_bind {f : Lexeme → ReadM β}
    (hf : ∀ l, Guards stop (f l) ∨
      l.token ≠ .symbol stop ∧ ∃ g : ReadM β, Guards stop g ∧ f l = do Functor.discard next; g) :
    Guards stop (peek >>= f) := by
  intro e
  refine Ensures.bind (fun r hr => Before.peek hr) fun l r ⟨hr, hp⟩ => ?_
  rcases hf l with h | ⟨hl, g, hg, h⟩
  · exact h e r hr
  · have hnext := hr.next
    rw [next_of_peeked hp] at hnext
    rw [h, discard_bind, run_bind_ok (next_of_peeked hp)]
    exact hg e _ (hnext.1 hl)

theorem atSymbol_bind {s : Symbol} {f : Bool → ReadM β} (hno : Guards stop (f false))
    (hyes : Guards stop (f true) ∨
      s ≠ stop ∧ ∃ g : ReadM β, Guards stop g ∧ f true = do Functor.discard next; g) :
    Guards stop (atSymbol s >>= f) := by
  rw [atSymbol_bind_eq]
  refine peek_bind fun l => ?_
  by_cases hl : l.token = .symbol s
  · rw [show (l.token == .symbol s) = true from beq_iff_eq.mpr hl, hl]
    simpa using hyes
  · rw [show (l.token == .symbol s) = false from beq_eq_false_iff_ne.mpr hl]
    exact .inl hno

theorem atKeyword_bind {k : Keyword} {f : Bool → ReadM β} (hno : Guards stop (f false))
    {g : ReadM β} (hg : Guards stop g) (hyes : f true = do Functor.discard next; g) :
    Guards stop (atKeyword k >>= f) := by
  rw [atKeyword_bind_eq]
  refine peek_bind fun l => ?_
  by_cases hl : l.token = .identifier k.spelling
  · rw [show (l.token == .identifier k.spelling) = true from beq_iff_eq.mpr hl, hl]
    exact .inr ⟨by simp, g, hg, hyes⟩
  · rw [show (l.token == .identifier k.spelling) = false from beq_eq_false_iff_ne.mpr hl]
    exact .inl hno

theorem expectSymbol {s : Symbol} (hs : s ≠ stop) : Guards stop (expectSymbol s) := by
  refine next_bind (fun l _ => ?_) fun l hl => ?_
  · split
    · exact pure _
    · exact throw _
  · rw [if_neg (by simpa [hl] using Ne.symm hs)]
    exact ⟨_, rfl⟩

theorem expectKeyword (k : Keyword) : Guards stop (expectKeyword k) := by
  refine next_bind (fun l _ => ?_) fun l hl => ?_
  · split
    · exact pure _
    · exact throw _
  · rw [if_neg (by simp [hl])]
    exact ⟨_, rfl⟩

theorem expectName : Guards stop expectName := by
  refine next_bind (fun l _ => ?_) fun l hl => ?_
  · split
    · exact pure _
    · exact throw _
  · simp only [hl]
    exact ⟨_, rfl⟩

theorem variableName : Guards stop variableName := expectName.bind fun _ => pure _

theorem items {item : ReadM α} (h : Guards stop item) (hcomma : .comma ≠ stop)
    (hclose : .closeParen ≠ stop) : Guards stop (items item) := by
  refine Guards.bind (.loop (fun found => ?_) _) fun _ => (expectSymbol hclose).bind fun _ => pure _
  refine atSymbol_bind ?_ (.inl (pure _))
  refine h.bind fun x => atSymbol_bind ?_ (.inl (pure _))
  exact (expectSymbol hcomma).discard.bind fun _ => pure _

end Guards

theorem Closes.expectSymbol (stop : Symbol) : Closes stop (expectSymbol stop) := by
  intro e
  refine Ensures.bind (fun r hr => Before.next hr) fun l r ⟨_, hreaches, hlast⟩ => ?_
  split
  · next hl => exact hlast hl
  · exact hreaches

theorem Closes.map {m : ReadM α} (hm : Closes stop m) (f : α → β) :
    Closes stop (m >>= fun a => pure (f a)) :=
  fun e => (hm e).bind fun _ => Ensures.pure fun _ h => h

theorem Closes.discard {m : ReadM α} (hm : Closes stop m) : Closes stop (discard m) := hm.map _

end Reader

/-- The symbols that close a placeable or a tag. -/
abbrev Symbol.Closing (s : Symbol) : Prop := s = .endPut ∨ s = .endTag

theorem Symbol.Closing.ne {stop s : Symbol} (h : stop.Closing) (hs : ¬ s.Closing) : s ≠ stop :=
  fun heq => hs (heq ▸ h)

/-! ## Expressions -/

namespace Expression
open Reader (Guards Closes)
variable {stop : Symbol} {deeper : Descent}

/-- Both readers of a level stay in the tag. -/
structure Level.Guards (stop : Symbol) (level : Level) : Prop where
  operand : Reader.Guards stop level.operand
  operation (stops : List String) (minimum : Nat) :
    Reader.Guards stop (level.operation stops minimum)

/-- Going down to the next level and on with readers of that level stays in the tag. -/
def Descent.Guards (stop : Symbol) (deeper : Descent) : Prop :=
  ∀ (span : Span) {β : Type} (f : Level → ReadM β),
    (∀ level : Level, level.Guards stop → Reader.Guards stop (f level)) →
      Reader.Guards stop (deeper span >>= f)

theorem guards_stringValue (raw : String) (span : Span) :
    Guards stop (stringValue raw span) := by
  unfold stringValue
  split
  · exact .throw _
  · split
    · exact .pure _
    · exact .throw _
    · exact .throw _

theorem guards_arguments (h : stop.Closing) (hd : deeper.Guards stop) :
    Guards stop (arguments deeper) :=
  (Guards.expectSymbol (h.ne (by decide))).bind fun _ => hd _ _ fun _ hl =>
    .items (hl.operation _ _) (h.ne (by decide)) (h.ne (by decide))

theorem guards_primary (h : stop.Closing) (hd : deeper.Guards stop) :
    Guards stop (primary deeper) := by
  refine .next_bind (fun l _ => ?_) fun l hl => ?_
  · unfold primaryFrom
    split
    · exact .pure _
    · exact guards_stringValue _ _
    · exact .pure _
    · exact hd _ _ fun level hl => (hl.operation _ _).bind fun _ =>
        (Guards.expectSymbol (h.ne (by decide))).discard.bind fun _ => .pure _
    · exact .throw _
  · rcases h with rfl | rfl
    · exact ⟨.unexpected .operand l, by simp only [primaryFrom, hl]; rfl⟩
    · exact ⟨.unexpected .operand l, by simp only [primaryFrom, hl]; rfl⟩

theorem guards_nextSuffix (h : stop.Closing) (hd : deeper.Guards stop) (e : Expression) :
    Guards stop (nextSuffix deeper e) := by
  refine .atSymbol_bind (.atSymbol_bind (.pure _) (.inl ?_)) (.inr ⟨h.ne (by decide), ?_⟩)
  · exact (guards_arguments h hd).bind fun _ => .pure _
  · exact ⟨_, Guards.variableName.bind fun _ => .pure _, rfl⟩

theorem guards_term (h : stop.Closing) (hd : deeper.Guards stop) : Guards stop (term deeper) :=
  (guards_primary h hd).bind fun _ => .loop (guards_nextSuffix h hd) _

theorem sign?_ne (h : stop.Closing) {token : Token} {op : Operator} (hs : sign? token = some op) :
    token ≠ .symbol stop := by
  rcases h with rfl | rfl <;> (rintro rfl; cases hs)

theorem guards_operand (h : stop.Closing) (hd : deeper.Guards stop) :
    Guards stop (operand deeper) := by
  refine .peek_bind fun l => ?_
  cases hs : sign? l.token with
  | none => exact .inl (guards_term h hd)
  | some op =>
    refine .inr ⟨sign?_ne h hs, _, ?_, rfl⟩
    exact hd _ _ fun level hl => hl.operand.bind fun _ => .pure _

theorem joint?_ne (h : stop.Closing) {stops : List String} {minimum : Nat} {token : Token}
    {x : Joint × Binding} (hj : joint? stops minimum token = some x) : token ≠ .symbol stop := by
  rcases h with rfl | rfl <;>
  · rintro rfl
    unfold joint? at hj
    split at hj
    · cases hj
    · cases hj

theorem guards_nextJoint (h : stop.Closing) (hd : deeper.Guards stop) (stops : List String)
    (minimum : Nat) (left : Expression) : Guards stop (nextJoint deeper stops minimum left) := by
  refine .peek_bind fun l => ?_
  cases hj : joint? stops minimum l.token with
  | none => exact .inl (.pure _)
  | some x =>
    obtain ⟨joint, binding⟩ := x
    cases joint with
    | filter => exact .inr ⟨joint?_ne h hj, _, (guards_term h hd).bind fun _ => .pure _, rfl⟩
    | binary op =>
      refine .inr ⟨joint?_ne h hj, _, ?_, rfl⟩
      exact hd _ _ fun level hl => (hl.operation _ _).bind fun _ => .pure _

theorem guards_operation (h : stop.Closing) (hd : deeper.Guards stop) (stops : List String)
    (minimum : Nat) : Guards stop (operation deeper stops minimum) :=
  (guards_operand h hd).bind fun _ => .loop (guards_nextJoint h hd stops minimum) _

theorem guards_descend (h : stop.Closing) (n : Nat) : (descend n).Guards stop := by
  induction n with
  | zero => exact fun span _ f _ => descend_zero_bind span f ▸ .throw _
  | succ n ih =>
    intro span _ f hf
    rw [descend_succ_bind]
    exact hf _ ⟨guards_operand h ih, guards_operation h ih⟩

theorem guards_read (h : stop.Closing) (n : Nat) (stops : List String) :
    Guards stop (read n stops) := guards_operation h (guards_descend h n) stops 0

theorem guards_readFilter (h : stop.Closing) (n : Nat) : Guards stop (readFilter n) :=
  guards_term h (guards_descend h n)

end Expression

/-! ## Tags -/

namespace Draft
open Reader (Guards Closes)
variable {levels : Nat} {opening : Span}

theorem closes_endTag : Closes .endTag endTag := .expectSymbol _

theorem closes_lastExpression : Closes .endTag (lastExpression levels) :=
  (Expression.guards_read (.inr rfl) _ _).closes fun _ => closes_endTag.discard.map _

theorem guards_pattern : Guards .endTag pattern := by
  refine Guards.variableName.bind fun first => .atSymbol_bind (.pure _) (.inl ?_)
  refine Guards.bind (.loop (fun (names, span) => ?_) _) fun _ => .pure _
  refine .atSymbol_bind (.pure _) (.inr ⟨by decide, _, ?_, rfl⟩)
  exact Guards.variableName.bind fun _ => .pure _

theorem closes_placeable : Closes .endPut (placeable levels opening) := by
  have hstop : Symbol.Closing .endPut := .inl rfl
  refine (Expression.guards_read hstop _ _).closes fun value => ?_
  refine Guards.closes (.loop (fun filters => ?_) _) fun _ => (Closes.expectSymbol _).map _
  refine .atSymbol_bind (.pure _) (.inr ⟨by decide, _, ?_, rfl⟩)
  exact (Expression.guards_readFilter hstop _).bind fun _ => .pure _

theorem closes_loopHead : Closes .endTag (loopHead levels) := by
  have hstop : Symbol.Closing .endTag := .inr rfl
  have hcondition : Guards .endTag (loopCondition levels) :=
    .atKeyword_bind (.pure _) ((Expression.guards_read hstop _ _).bind fun _ => .pure _) rfl
  refine guards_pattern.closes fun target => (Guards.expectKeyword _).discard.closes fun _ => ?_
  refine (Expression.guards_read hstop _ _).closes fun iterable => hcondition.closes fun _ => ?_
  exact closes_endTag.discard.map _

theorem closes_setTag : Closes .endTag (setTag levels opening) :=
  guards_pattern.closes fun _ => (Guards.expectSymbol (by decide)).discard.closes fun _ =>
    (Expression.guards_read (.inr rfl) _ _).closes fun _ => (Closes.expectSymbol _).map _

theorem closes_callHead : Closes .endTag (callHead levels) := by
  have hstop : Symbol.Closing .endTag := .inr rfl
  have hargs : Guards .endTag (callArguments levels) :=
    .atSymbol_bind (.pure _) (.inl ((Expression.guards_arguments hstop
      (Expression.guards_descend hstop _)).bind fun _ => .pure _))
  exact Guards.expectName.closes fun _ => hargs.closes fun _ => closes_endTag.discard.map _

theorem closes_blockHead : Closes .endTag blockHead :=
  Guards.expectName.closes fun _ => closes_endTag.discard.map _

theorem closes_blockEnd (name : String) : Closes .endTag (blockEnd name) := by
  refine Guards.closes (.peek_bind fun l => ?_) fun _ => closes_endTag
  split
  · next closing hl =>
    split
    · refine .inr ⟨by simp [hl], Pure.pure (), .pure _, ?_⟩
      rw [bind_pure_unit]
    · exact .inl (.throw _)
  · exact .inl (.pure _)

theorem closes_macroHead : Closes .endTag (macroHead levels) := by
  have hstop : Symbol.Closing .endTag := .inr rfl
  have hparameter : Guards .endTag (parameter levels) := by
    refine Guards.expectName.bind fun _ => .atSymbol_bind (.pure _) (.inr ⟨by decide, _, ?_, rfl⟩)
    exact (Expression.guards_read hstop _ _).bind fun _ => .pure _
  refine Guards.expectName.closes fun _ => (Guards.expectSymbol (by decide)).discard.closes
    fun _ => ?_
  exact (Guards.items hparameter (by decide) (by decide)).closes fun _ =>
    closes_endTag.discard.map _

end Draft
end TemplateSyntax
