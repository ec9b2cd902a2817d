import TemplateSyntax.Proofs.ExpressionCompleteness

/-!
# The phrases of tags

What stands in a single tag or placeable is read exactly if it is the phrase that the grammar asks
for: each reader that succeeds has passed its phrase, and each phrase is passed. All of these end
with a token that is taken, so nothing is asked of what follows.
-/
namespace TemplateSyntax.Reader
open Draft Phrase

section Soundness
variable {n : Nat} (c : Cursor)

theorem lands_endTag : Lands endTag c fun _ d => c.ReadsSymbol .endTag d := Lands.expectSymbol _

theorem lands_lastExpression : Lands (lastExpression n) c fun _ d => SpansLast n c d :=
  (Expression.lands_read Expression.stopsAt_tag n c).bind fun _ d hd =>
    (lands_endTag d).discard.bind fun _ _ he => Lands.pure ⟨d, hd, he⟩

theorem lands_nextName {d : Cursor} (hd : SpansNames c d) (names : List Variable × Span) :
    Lands (nextName names) d (OnPass (fun _ d => SpansNames c d) fun _ d => SpansNames c d) := by
  refine Lands.atSymbol_bind (fun e he => ?_) fun _ => Lands.pure hd
  exact Lands.skip he (Lands.variableName.bind fun _ f hf => Lands.pure (.more hd he hf))

theorem lands_pattern : Lands pattern c fun _ d => SpansNames c d := by
  refine Lands.variableName.bind fun first d hd => ?_
  refine Lands.atSymbol_bind (fun _ _ => ?_) fun _ => Lands.pure (.one hd)
  exact (Lands.loop descends_nextName (I := fun _ d => SpansNames c d)
    (fun names d hd => lands_nextName c hd names) (.one hd)).bind fun names e he => Lands.pure he

theorem lands_nextFilter {d : Cursor} (hd : SpansFilters n c d) (filters : List Expression) :
    Lands (nextFilter n filters) d
      (OnPass (fun _ d => SpansFilters n c d) fun _ d => SpansFilters n c d) := by
  refine Lands.atSymbol_bind (fun e he => ?_) fun _ => Lands.pure hd
  exact Lands.skip he ((Expression.lands_readFilter n e).bind fun _ f hf =>
    Lands.pure (.more hd he hf))

theorem lands_filters :
    Lands (loop Reader.size (nextFilter n) []) c fun _ d => SpansFilters n c d :=
  Lands.loop descends_nextFilter (I := fun _ d => SpansFilters n c d)
    (fun filters _ hd => lands_nextFilter c hd filters) .none

theorem lands_placeable (opening : Span) :
    Lands (placeable n opening) c fun _ d => SpansPlaceable n c d := by
  refine ((Expression.sound n).derives Expression.stopsAt_placeable c).bind fun value d hd => ?_
  obtain ⟨pending, hd⟩ := hd
  exact (lands_filters d).bind fun filters e he => (Lands.expectSymbol .endPut).bind fun _ f hf =>
    Lands.pure ⟨pending, d, e, hd, he, hf⟩

theorem lands_loopCondition : Lands (loopCondition n) c fun _ d =>
    Optionally (fun c d => ∃ e, c.ReadsWord .ifWord e ∧ Expression.Spans n e d) c d := by
  refine Lands.atKeyword_bind (fun e he => ?_) (Lands.pure (.inl rfl))
  exact Lands.skip he ((Expression.lands_read Expression.stopsAt_tag n e).bind fun _ d hd =>
    Lands.pure (.inr ⟨e, he, hd⟩))

theorem lands_loopHead : Lands (loopHead n) c fun _ d => SpansLoopHead n c d := by
  refine (lands_pattern c).bind fun _ e he => (Lands.expectKeyword .inWord).discard.bind
    fun _ f hf => (Expression.lands_read Expression.stopsAt_iterable n f).bind fun _ g hg => ?_
  exact (lands_loopCondition g).bind fun _ h hh => (lands_endTag h).discard.bind fun _ d hd =>
    Lands.pure ⟨e, f, g, h, he, hf, hg, hh, hd⟩

theorem lands_setTag (opening : Span) :
    Lands (setTag n opening) c fun _ d => SpansAssignment n c d :=
  (lands_pattern c).bind fun _ e he => (Lands.expectSymbol .assign).discard.bind fun _ f hf =>
    (Expression.lands_read Expression.stopsAt_tag n f).bind fun _ g hg =>
      (Lands.expectSymbol .endTag).bind fun _ _ hd => Lands.pure ⟨e, f, he, hf, g, hg, hd⟩

theorem lands_callArguments : Lands (callArguments n) c fun _ d =>
    Optionally (Expression.SpansArguments n) c d := by
  refine Lands.atSymbol_bind (fun _ _ => ?_) fun _ => Lands.pure (.inl rfl)
  exact (Expression.lands_arguments (fun m _ => Expression.sound m) c).bind fun _ d hd =>
    Lands.pure (.inr hd)

theorem lands_callHead : Lands (callHead n) c fun _ d => SpansCallHead n c d :=
  Lands.expectName.bind fun name e he => (lands_callArguments e).bind fun _ f hf =>
    (lands_endTag f).discard.bind fun _ _ hd => Lands.pure ⟨e, f, ⟨name.value, he⟩, hf, hd⟩

theorem lands_blockHead : Lands blockHead c fun name d => SpansBlockHead name.value c d :=
  Lands.expectName.bind fun _ e he => (lands_endTag e).discard.bind fun _ _ hd =>
    Lands.pure ⟨e, he, hd⟩

theorem lands_closingName (name : String) : Lands (closingName name) c fun _ d =>
    Optionally (fun c d => c.Reads (.identifier name) d) c d := by
  refine Lands.peek_bind fun l e hl => ?_
  split
  · next closing ht =>
    split
    · next hc =>
      rw [ht, hc] at hl
      refine (Lands.next_of_reads hl).discard.mono fun _ f hf => .inr ?_
      rwa [hf]
    · exact Lands.throw _
  · exact Lands.pure (.inl rfl)

theorem lands_blockEnd (name : String) :
    Lands (blockEnd name) c fun _ d => SpansBlockEnd name c d :=
  (lands_closingName c name).bind fun _ e he => (lands_endTag e).mono fun _ _ hd => ⟨e, he, hd⟩

theorem lands_parameter : Lands (parameter n) c fun _ d => SpansParameter n c d := by
  refine Lands.expectName.bind fun name e he => ?_
  refine Lands.atSymbol_bind (fun f hf => ?_) fun _ =>
    Lands.pure ⟨e, ⟨name.value, he⟩, .inl rfl⟩
  exact Lands.skip hf ((Expression.lands_read Expression.stopsAt_items n f).bind fun _ d hd =>
    Lands.pure ⟨e, ⟨name.value, he⟩, .inr ⟨f, hf, hd⟩⟩)

theorem lands_macroHead : Lands (macroHead n) c fun _ d => SpansMacroHead n c d :=
  Lands.expectName.bind fun name e he => (Lands.expectSymbol .openParen).discard.bind
    fun _ f hf => (Lands.items consumes_parameter lands_parameter f).bind fun _ g hg =>
      (lands_endTag g).discard.bind fun _ _ hd =>
        Lands.pure ⟨e, f, g, ⟨name.value, he⟩, hf, hg, hd⟩

end Soundness

section Completeness
variable {n : Nat} {c d e : Cursor}

theorem passes_endTag (h : c.ReadsSymbol .endTag d) : Passes endTag c d fun _ => True :=
  Passes.expectSymbol h

theorem passes_tagExpression (h : Expression.Spans n c d) (hd : d.ReadsSymbol .endTag e) :
    Passes (Expression.read n [Symbol.endTag.spelling]) c d fun _ => True := by
  obtain ⟨pending, h⟩ := h
  exact Expression.passes_read h Expression.stopsAt_tag (hd.endsAt (by decide))

theorem passes_lastExpression (h : SpansLast n c d) :
    Passes (lastExpression n) c d fun _ => True := by
  obtain ⟨e, he, hd⟩ := h
  exact (passes_tagExpression he hd).bind fun _ _ => (passes_endTag hd).discard.bind fun _ _ =>
    Passes.pure trivial

/-- The names behind the first one are read by a loop, if there are any. -/
theorem SpansNames.exists_first (h : SpansNames c d) : ∃ e, c.ReadsName e ∧
    (d = e ∨ ∃ f, e.ReadsSymbol .comma f) ∧ ∀ z,
      (∀ names, Passes (loop Reader.size nextName names) d z fun _ => True) →
      ∀ names, Passes (loop Reader.size nextName names) e z fun _ => True := by
  induction h with
  | one h => exact ⟨_, h, .inl rfl, fun _ hz => hz⟩
  | more _ hc hn ih =>
    obtain ⟨e, he, hfirst, hloop⟩ := ih
    refine ⟨e, he, .inr ?_, fun z hz => hloop z fun names => ?_⟩
    · rcases hfirst with rfl | hfirst
      · exact ⟨_, hc⟩
      · exact hfirst
    · refine Passes.loop_yield descends_nextName ?_ hz
      refine Passes.atSymbol_true hc (Passes.skip hc ?_)
      exact (Passes.variableName hn).bind fun _ _ => Passes.pure ⟨_, rfl⟩

theorem passes_pattern {t : Token} (h : SpansNames c d) (hd : d.Reads t e)
    (ht : t ≠ .symbol .comma) : Passes pattern c d fun _ => True := by
  obtain ⟨f, hf, hfirst, hloop⟩ := SpansNames.exists_first h
  refine (Passes.variableName hf).bind fun first _ => ?_
  rcases hfirst with rfl | ⟨g, hg⟩
  · exact Passes.atSymbol_false hd ht (Passes.pure trivial)
  · refine Passes.atSymbol_true hg ?_
    have hlast : ∀ names, Passes (loop Reader.size nextName names) d d fun _ => True :=
      fun names => (Passes.loop_done descends_nextName
        (Passes.atSymbol_false hd ht (Passes.pure rfl))).mono fun _ _ => trivial
    exact (hloop d hlast _).bind fun names _ => Passes.pure trivial

/-- The filters of a placeable are read by a loop. -/
theorem SpansFilters.passes (h : SpansFilters n c d) (hd : d.EndsTerm) {z : Cursor}
    (hz : ∀ filters, Passes (loop Reader.size (nextFilter n) filters) d z fun _ => True) :
    ∀ filters, Passes (loop Reader.size (nextFilter n) filters) c z fun _ => True := by
  induction h with
  | none => exact hz
  | more _ hb ht ih =>
    refine ih ⟨_, _, hb, by decide, by decide⟩ fun filters => ?_
    refine Passes.loop_yield descends_nextFilter ?_ hz
    refine Passes.atSymbol_true hb (Passes.skip hb ?_)
    exact (Expression.passes_readFilter ht hd).bind fun _ _ => Passes.pure ⟨_, rfl⟩

theorem SpansFilters.endsAt {stops : List String} (h : SpansFilters n c d)
    (hs : Symbol.bar.spelling ∈ stops) (hd : d.EndsAt stops) : c.EndsAt stops := by
  induction h with
  | none => exact hd
  | more _ hb _ ih => exact ih (hb.endsAt hs)

theorem passes_placeable (h : SpansPlaceable n c d) (opening : Span) :
    Passes (placeable n opening) c d fun _ => True := by
  obtain ⟨pending, e, f, he, hf, hd⟩ := h
  have hstop : e.EndsAt [Symbol.bar.spelling, Symbol.endPut.spelling] :=
    SpansFilters.endsAt hf (by decide) (hd.endsAt (by decide))
  refine (Expression.passes_read he Expression.stopsAt_placeable hstop).bind fun value _ => ?_
  have hlast : ∀ filters, Passes (loop Reader.size (nextFilter n) filters) f f fun _ => True :=
    fun filters => (Passes.loop_done descends_nextFilter
      (Passes.atSymbol_false hd (by decide) (Passes.pure rfl))).mono fun _ _ => trivial
  refine (SpansFilters.passes hf ⟨_, d, hd, by decide, by decide⟩ hlast []).bind fun _ _ => ?_
  exact (Passes.expectSymbol hd).bind fun _ _ => Passes.pure trivial

theorem passes_loopHead (h : SpansLoopHead n c d) : Passes (loopHead n) c d fun _ => True := by
  obtain ⟨e, f, g, h, he, hf, ⟨pending, hg⟩, hh, hd⟩ := h
  refine (passes_pattern he hf (by simp)).bind fun _ _ =>
    (Passes.expectKeyword hf).discard.bind fun _ _ => ?_
  rcases hh with rfl | ⟨k, hk, hh⟩
  · refine (Expression.passes_read hg Expression.stopsAt_iterable (hd.endsAt (by decide))).bind
      fun _ _ => ?_
    have hnone : Passes (loopCondition n) h h fun _ => True :=
      Passes.atKeyword_false hd (by simp) (Passes.pure trivial)
    exact hnone.bind fun _ _ => (passes_endTag hd).discard.bind fun _ _ => Passes.pure trivial
  · refine (Expression.passes_read hg Expression.stopsAt_iterable (hk.endsAt (by decide))).bind
      fun _ _ => ?_
    have hsome : Passes (loopCondition n) g h fun _ => True := by
      refine Passes.atKeyword_true hk (Passes.skip hk ?_)
      exact (passes_tagExpression hh hd).bind fun _ _ => Passes.pure trivial
    exact hsome.bind fun _ _ => (passes_endTag hd).discard.bind fun _ _ => Passes.pure trivial

theorem passes_setTag (h : SpansAssignment n c d) (opening : Span) :
    Passes (setTag n opening) c d fun _ => True := by
  obtain ⟨e, f, he, hf, g, hg, hd⟩ := h
  exact (passes_pattern he hf (by decide)).bind fun _ _ =>
    (Passes.expectSymbol hf).discard.bind fun _ _ => (passes_tagExpression hg hd).bind fun _ _ =>
      (Passes.expectSymbol hd).bind fun _ _ => Passes.pure trivial

theorem passes_callHead (h : SpansCallHead n c d) : Passes (callHead n) c d fun _ => True := by
  obtain ⟨e, f, ⟨name, he⟩, hf, hd⟩ := h
  have hargs : Passes (callArguments n) e f fun _ => True := by
    rcases hf with rfl | hf
    · exact Passes.atSymbol_false hd (by decide) (Passes.pure trivial)
    · have hargs := Expression.passes_spansArguments hf
      obtain ⟨m, g, -, ho, -⟩ := hf
      exact Passes.atSymbol_true ho (hargs.bind fun _ _ => Passes.pure trivial)
  exact (Passes.expectName he).bind fun _ _ => hargs.bind fun _ _ =>
    (passes_endTag hd).discard.bind fun _ _ => Passes.pure trivial

theorem passes_blockHead {name : String} (h : SpansBlockHead name c d) :
    Passes blockHead c d fun x => x.value = name := by
  obtain ⟨e, he, hd⟩ := h
  exact (Passes.expectName he).bind fun _ hx => (passes_endTag hd).discard.bind fun _ _ =>
    Passes.pure hx

theorem passes_blockEnd {name : String} (h : SpansBlockEnd name c d) :
    Passes (blockEnd name) c d fun _ => True := by
  obtain ⟨e, he, hd⟩ := h
  have hname : Passes (closingName name) c e fun _ => True := by
    rcases he with rfl | he
    · refine Passes.peek_bind hd fun l hl => ?_
      simp only [hl]
      exact Passes.pure trivial
    · refine Passes.peek_bind he fun l hl => ?_
      simp only [hl, if_true]
      exact (Passes.next he).discard
  exact hname.bind fun _ _ => passes_endTag hd

theorem passes_parameter (h : SpansParameter n c d)
    (hd : d.EndsAt [Symbol.comma.spelling, Symbol.closeParen.spelling]) :
    c.Starts ∧ Passes (parameter n) c d fun _ => True := by
  obtain ⟨e, ⟨name, he⟩, hd'⟩ := h
  refine ⟨⟨_, e, he, by simp⟩, (Passes.expectName he).bind fun _ _ => ?_⟩
  rcases hd' with rfl | ⟨f, hf, pending, hx⟩
  · obtain ⟨t, f, hr, ht⟩ := hd
    have hassign : t ≠ .symbol .assign := by
      rintro rfl
      exact absurd ht (by decide)
    exact Passes.atSymbol_false hr hassign (Passes.pure trivial)
  · refine Passes.atSymbol_true hf (Passes.skip hf ?_)
    exact (Expression.passes_read hx Expression.stopsAt_items hd).bind fun _ _ =>
      Passes.pure trivial

theorem passes_macroHead (h : SpansMacroHead n c d) : Passes (macroHead n) c d fun _ => True := by
  obtain ⟨e, f, g, ⟨name, he⟩, hf, hg, hd⟩ := h
  have hitems : Passes (items (parameter n)) f g fun _ => True :=
    Passes.items consumes_parameter (fun _ _ hx => passes_parameter hx) hg
  exact (Passes.expectName he).bind fun _ _ => (Passes.expectSymbol hf).discard.bind fun _ _ =>
    hitems.bind fun _ _ => (passes_endTag hd).discard.bind fun _ _ => Passes.pure trivial

end Completeness
end TemplateSyntax.Reader
