import TemplateSyntax.Draft.Bodies
import TemplateSyntax.Proofs.Run

/-!
# Reading token by token

All that a reader of expressions does with the text is to take the next token or to look at it, and
all that a reader of bodies does besides is to take text up to the token that opens a tag. What is
preserved by these three steps is therefore preserved by every reader. `TokenWise` and `PieceWise`
collect the computations that are built from the steps, and all readers of the language are shown to
be among them. Whatever a reader of bodies reads of a tag ends with a token taken, so no token is
ever looked at when text is read.
-/
namespace TemplateSyntax

/-- A computation that meets the text only by taking tokens and looking at them. -/
inductive TokenWise : {α : Type} → ReadM α → Prop
  | pure {α : Type} (a : α) : TokenWise (pure a)
  | throw {α : Type} (f : Fault) : TokenWise (throw f : ReadM α)
  | next : TokenWise Reader.next
  | peek : TokenWise Reader.peek
  | bind {α β : Type} {m : ReadM α} {f : α → ReadM β} (hm : TokenWise m)
      (hf : ∀ a, TokenWise (f a)) : TokenWise (m >>= f)
  | loop {β : Type} {step : β → ReadM (ForInStep β)} (h : ∀ b, TokenWise (step b)) (b : β) :
      TokenWise (loop Reader.size step b)

/-- Whenever the computation succeeds, no token is left that was looked at and not taken. -/
def Reader.Settles {α : Type} (m : ReadM α) : Prop :=
  ∀ r a t, m r = .ok a t → t.peeked = none

/-- An answer and a change that concern a draft without its reader, of which only the position may
be used. -/
def Draft.Beside {α : Type} (g : Draft → α × Draft) : Prop :=
  ∀ (d : Draft) (r : Reader), r.cursor.position = d.reader.cursor.position →
    g { d with reader := r } = ((g d).1, { (g d).2 with reader := r })

/-- A computation on drafts that leaves the reader alone, and may use its position. -/
def Draft.Aside {α : Type} (m : DraftM α) : Prop := ∃ g, Beside g ∧ m = modifyGet g

/-- A computation that meets the text only by tokens and by text up to the token behind it. -/
inductive PieceWise : {α : Type} → DraftM α → Prop
  | pure {α : Type} (a : α) : PieceWise (pure a)
  | throw {α : Type} (f : Fault) : PieceWise (throw f : DraftM α)
  | lift {α : Type} {m : ReadM α} (h : TokenWise m) (hs : Reader.Settles m) :
      PieceWise (liftM m : DraftM α)
  | opening : PieceWise Draft.opening
  | aside {α : Type} {m : DraftM α} (h : Draft.Aside m) : PieceWise m
  | bind {α β : Type} {m : DraftM α} {f : α → DraftM β} (hm : PieceWise m)
      (hf : ∀ a, PieceWise (f a)) : PieceWise (m >>= f)
  | loop {β : Type} {step : β → DraftM (ForInStep β)} (h : ∀ b, PieceWise (step b)) (b : β) :
      PieceWise (loop Draft.size step b)

namespace TokenWise
variable {α : Type}

theorem discard {m : ReadM α} (h : TokenWise m) : TokenWise (discard m) := h.bind fun _ => pure _

theorem atSymbol (s : Symbol) : TokenWise (Reader.atSymbol s) := peek.bind fun _ => pure _

theorem atKeyword (k : Keyword) : TokenWise (Reader.atKeyword k) := peek.bind fun _ => pure _

theorem expectSymbol (s : Symbol) : TokenWise (Reader.expectSymbol s) := by
  refine next.bind fun l => ?_
  split
  · exact pure _
  · exact throw _

theorem expectKeyword (k : Keyword) : TokenWise (Reader.expectKeyword k) := by
  refine next.bind fun l => ?_
  split
  · exact pure _
  · exact throw _

theorem expectName : TokenWise Reader.expectName := by
  refine next.bind fun l => ?_
  split
  · exact pure _
  · exact throw _

theorem variableName : TokenWise Reader.variableName := expectName.bind fun _ => pure _

theorem nextItem {item : ReadM α} (h : TokenWise item) (found : List α) :
    TokenWise (Reader.nextItem item found) := by
  refine (atSymbol _).bind fun atEnd => ?_
  split
  · exact pure _
  · refine h.bind fun x => (atSymbol _).bind fun atClose => ?_
    split
    · exact pure _
    · exact (expectSymbol _).discard.bind fun _ => pure _

theorem items {item : ReadM α} (h : TokenWise item) : TokenWise (Reader.items item) :=
  (loop (nextItem h) []).bind fun _ => (expectSymbol _).bind fun _ => pure _

end TokenWise

namespace Reader
variable {α β : Type}

namespace Settles

/-- What comes last counts. -/
theorem bind {m : ReadM α} {f : α → ReadM β} (hf : ∀ a, Settles (f a)) : Settles (m >>= f) := by
  intro r b u h
  obtain ⟨a, t, -, ha⟩ := bind_eq_ok h
  exact hf a t b u ha

theorem map {m : ReadM α} (hm : Settles m) (f : α → β) :
    Settles (m >>= fun a => pure (f a)) := by
  intro r b u h
  obtain ⟨a, t, hr, ha⟩ := bind_eq_ok h
  cases ha
  exact hm r a _ hr

theorem next : Settles Reader.next := by
  intro r l t h
  unfold Reader.next at h
  split at h
  · cases h
    rfl
  · next hp =>
    split at h
    · cases h
      exact hp
    · cases h

/-- A token that is taken and then accepted or refused. -/
theorem next_bind {f : Lexeme → ReadM β} (hf : ∀ l, (∃ b, f l = pure b) ∨ ∃ e, f l = throw e) :
    Settles (Reader.next >>= f) := by
  intro r b u h
  obtain ⟨l, t, hr, hl⟩ := bind_eq_ok h
  rcases hf l with ⟨b', hb⟩ | ⟨e, he⟩
  · rw [hb] at hl
    cases hl
    exact next r l _ hr
  · rw [he] at hl
    cases hl

theorem expectSymbol (s : Symbol) : Settles (Reader.expectSymbol s) := by
  refine next_bind fun l => ?_
  split
  · exact .inl ⟨_, rfl⟩
  · exact .inr ⟨_, rfl⟩

theorem expectName : Settles Reader.expectName := by
  refine next_bind fun l => ?_
  split
  · exact .inl ⟨_, rfl⟩
  · exact .inr ⟨_, rfl⟩

end Settles
end Reader

namespace Expression

/-- Both readers of a level are token by token. -/
structure Level.TokenWise (level : Level) : Prop where
  operand : TemplateSyntax.TokenWise level.operand
  operation (stops : List String) (minimum : Nat) :
    TemplateSyntax.TokenWise (level.operation stops minimum)

/-- Going down to the next level and on with readers of that level is token by token. -/
def Descent.TokenWise (deeper : Descent) : Prop :=
  ∀ (span : Span) {β : Type} (f : Level → ReadM β),
    (∀ level : Level, level.TokenWise → TemplateSyntax.TokenWise (f level)) →
      TemplateSyntax.TokenWise (deeper span >>= f)

variable {deeper : Descent}

theorem tokenWise_stringValue (raw : String) (span : Span) :
    TokenWise (stringValue raw span) := by
  unfold stringValue
  split
  · exact .throw _
  · split
    · exact .pure _
    · exact .throw _
    · exact .throw _

theorem tokenWise_arguments (hd : deeper.TokenWise) : TokenWise (arguments deeper) :=
  (TokenWise.expectSymbol _).bind fun span => hd span _ fun _ h => .items (h.operation _ _)

theorem tokenWise_primaryFrom (hd : deeper.TokenWise) (l : Lexeme) :
    TokenWise (primaryFrom deeper l) := by
  unfold primaryFrom
  split
  · exact .pure _
  · exact tokenWise_stringValue _ _
  · exact .pure _
  · exact hd _ _ fun level h =>
      (h.operation _ _).bind fun _ => (TokenWise.expectSymbol _).discard.bind fun _ => .pure _
  · exact .throw _

theorem tokenWise_primary (hd : deeper.TokenWise) : TokenWise (primary deeper) :=
  TokenWise.next.bind (tokenWise_primaryFrom hd)

theorem tokenWise_nextSuffix (hd : deeper.TokenWise) (e : Expression) :
    TokenWise (nextSuffix deeper e) := by
  refine (TokenWise.atSymbol _).bind fun atDot => ?_
  split
  · exact TokenWise.next.discard.bind fun _ => TokenWise.variableName.bind fun _ => .pure _
  · refine (TokenWise.atSymbol _).bind fun atParen => ?_
    split
    · exact (tokenWise_arguments hd).bind fun _ => .pure _
    · exact .pure _

theorem tokenWise_term (hd : deeper.TokenWise) : TokenWise (term deeper) :=
  (tokenWise_primary hd).bind fun _ => .loop (tokenWise_nextSuffix hd) _

theorem tokenWise_operand (hd : deeper.TokenWise) : TokenWise (operand deeper) := by
  refine TokenWise.peek.bind fun l => ?_
  split
  · exact tokenWise_term hd
  · exact TokenWise.next.discard.bind fun _ => hd _ _ fun level h => h.operand.bind fun _ => .pure _

theorem tokenWise_nextJoint (hd : deeper.TokenWise) (stops : List String) (minimum : Nat)
    (left : Expression) : TokenWise (nextJoint deeper stops minimum left) := by
  refine TokenWise.peek.bind fun l => ?_
  split
  · exact .pure _
  · exact TokenWise.next.discard.bind fun _ => (tokenWise_term hd).bind fun _ => .pure _
  · exact TokenWise.next.discard.bind fun _ => hd _ _ fun level h =>
      (h.operation _ _).bind fun _ => .pure _

theorem tokenWise_operation (hd : deeper.TokenWise) (stops : List String) (minimum : Nat) :
    TokenWise (operation deeper stops minimum) :=
  (tokenWise_operand hd).bind fun _ => .loop (tokenWise_nextJoint hd stops minimum) _

/-- No level is left to go down to. -/
theorem descend_zero_bind {β : Type} (span : Span) (f : Level → ReadM β) :
    descend 0 span >>= f = throw ⟨.tooDeep, span⟩ := rfl

theorem descend_succ_bind {β : Type} (n : Nat) (span : Span) (f : Level → ReadM β) :
    descend (n + 1) span >>= f = f ⟨operand (descend n), operation (descend n)⟩ := rfl

/-- A property of all levels: each has it if the level below does, where there is one. -/
theorem levels_induction {motive : Nat → Prop} (level : ∀ n, (∀ m, n = m + 1 → motive m) → motive n)
    (n : Nat) : motive n := by
  induction n with
  | zero => exact level 0 fun m hm => absurd hm (Nat.succ_ne_zero m).symm
  | succ n ih =>
    refine level (n + 1) fun m hm => ?_
    cases hm
    exact ih

theorem tokenWise_descend (n : Nat) : (descend n).TokenWise := by
  induction n with
  | zero => exact fun span _ f _ => descend_zero_bind span f ▸ .throw _
  | succ n ih =>
    intro span _ f hf
    rw [descend_succ_bind]
    exact hf _ ⟨tokenWise_operand ih, tokenWise_operation ih⟩

theorem tokenWise_read (n : Nat) (stops : List String) : TokenWise (read n stops) :=
  tokenWise_operation (tokenWise_descend n) stops 0

theorem tokenWise_readFilter (n : Nat) : TokenWise (readFilter n) :=
  tokenWise_term (tokenWise_descend n)

end Expression

namespace Draft
variable {levels : Nat} {body : BodyReader} {opening : Span}

theorem tokenWise_pattern : TokenWise pattern := by
  refine TokenWise.variableName.bind fun first => (TokenWise.atSymbol _).bind fun atComma => ?_
  split
  · refine TokenWise.bind (.loop (fun (names, span) => ?_) _) fun _ => .pure _
    refine (TokenWise.atSymbol _).bind fun atComma => ?_
    split
    · exact TokenWise.next.discard.bind fun _ => TokenWise.variableName.bind fun _ => .pure _
    · exact .pure _
  · exact .pure _

theorem tokenWise_placeable : TokenWise (placeable levels opening) := by
  refine (Expression.tokenWise_read _ _).bind fun value => ?_
  refine TokenWise.bind (.loop (fun filters => ?_) _) fun _ =>
    (TokenWise.expectSymbol _).bind fun _ => .pure _
  refine (TokenWise.atSymbol _).bind fun atBar => ?_
  split
  · exact TokenWise.next.discard.bind fun _ =>
      (Expression.tokenWise_readFilter _).bind fun _ => .pure _
  · exact .pure _

theorem tokenWise_setTag : TokenWise (setTag levels opening) :=
  tokenWise_pattern.bind fun _ => (TokenWise.expectSymbol _).discard.bind fun _ =>
    (Expression.tokenWise_read _ _).bind fun _ => (TokenWise.expectSymbol _).bind fun _ => .pure _

theorem tokenWise_parameter : TokenWise (parameter levels) := by
  refine TokenWise.expectName.bind fun name => (TokenWise.atSymbol _).bind fun atAssign => ?_
  split
  · exact TokenWise.next.discard.bind fun _ => (Expression.tokenWise_read _ _).bind fun _ => .pure _
  · exact .pure _

theorem tokenWise_endTag : TokenWise endTag := .expectSymbol _

theorem settles_endTag : Reader.Settles endTag := .expectSymbol _

theorem tokenWise_lastExpression : TokenWise (lastExpression levels) :=
  (Expression.tokenWise_read _ _).bind fun _ => tokenWise_endTag.discard.bind fun _ => .pure _

theorem settles_lastExpression : Reader.Settles (lastExpression levels) :=
  .bind fun _ => (settles_endTag.map _).map _

theorem settles_placeable : Reader.Settles (placeable levels opening) :=
  .bind fun _ => .bind fun _ => (Reader.Settles.expectSymbol _).map _

theorem settles_setTag : Reader.Settles (setTag levels opening) :=
  .bind fun _ => .bind fun _ => .bind fun _ => (Reader.Settles.expectSymbol _).map _

theorem pieceWise_discard {α : Type} {m : DraftM α} (h : PieceWise m) : PieceWise (discard m) :=
  h.bind fun _ => .pure _

theorem pieceWise_endTag : PieceWise (liftM endTag : DraftM Span) :=
  .lift tokenWise_endTag settles_endTag

theorem pieceWise_lastExpression : PieceWise (liftM (lastExpression levels) : DraftM Expression) :=
  .lift tokenWise_lastExpression settles_lastExpression

theorem aside_note (e : Event) : Aside (note e) :=
  ⟨fun d => ((), { d with log := d.log ++ [e] }), fun _ _ _ => rfl, rfl⟩

theorem aside_push (s : Statement) : Aside (push s) :=
  ⟨fun d => ((), { d with current := d.current.push s }), fun _ _ _ => rfl, rfl⟩

theorem aside_position : Aside position :=
  ⟨fun d => (d.reader.cursor.position, d), fun _ _ h => by simp only [h], rfl⟩

theorem aside_openBody : Aside openBody := by
  refine ⟨fun d => ((), { d with
    current := .opened d.reader.cursor.position, enclosing := d.current :: d.enclosing }), ?_, rfl⟩
  intro d r h
  simp only [h]

theorem aside_closeBody (stop : Position) : Aside (closeBody stop) := by
  refine ⟨_, fun d r _ => ?_, rfl⟩
  cases h : d.enclosing <;> simp only [h]

theorem aside_define (x : Definition) : Aside (define x) := by
  refine ⟨fun d => ((), keep { d with
    log := d.log ++ .defined x :: if d.holds x then [Event.redefined x] else [] } x), ?_, rfl⟩
  intro d r _
  cases x <;> rfl

theorem aside_setParent (target : Expression) : Aside (setParent target) := by
  refine ⟨_, fun d r _ => ?_, rfl⟩
  dsimp only
  split <;> rfl

/-- A reader of bodies is piece by piece, whatever words close the body. -/
def BodyReader.PieceWise (body : BodyReader) : Prop :=
  ∀ closers, TemplateSyntax.PieceWise (body closers)

theorem pieceWise_nextArm (hb : body.PieceWise) (b : List (Arm Statement) × Closing) :
    PieceWise (nextArm levels body b) := by
  unfold nextArm
  dsimp only
  split
  · exact pieceWise_lastExpression.bind fun _ => (hb _).bind fun _ => .pure _
  · exact .pure _

theorem pieceWise_ifTag (hb : body.PieceWise) : PieceWise (ifTag levels body opening) := by
  refine pieceWise_lastExpression.bind fun condition => (hb _).bind fun (first, closing) =>
    (PieceWise.loop (pieceWise_nextArm hb) _).bind fun (arms, closing) => ?_
  dsimp only
  split
  · exact (pieceWise_discard pieceWise_endTag).bind fun _ => (hb _).bind fun _ =>
      (pieceWise_discard pieceWise_endTag).bind fun _ => .pure _
  · exact (pieceWise_discard pieceWise_endTag).bind fun _ => .pure _

theorem tokenWise_loopCondition : TokenWise (loopCondition levels) := by
  refine (TokenWise.atKeyword _).bind fun atIf => ?_
  split
  · exact TokenWise.next.discard.bind fun _ => (Expression.tokenWise_read _ _).bind fun _ => .pure _
  · exact .pure _

theorem tokenWise_loopHead : TokenWise (loopHead levels) :=
  tokenWise_pattern.bind fun _ => (TokenWise.expectKeyword _).discard.bind fun _ =>
    (Expression.tokenWise_read _ _).bind fun _ => tokenWise_loopCondition.bind fun _ =>
    tokenWise_endTag.discard.bind fun _ => .pure _

theorem settles_loopHead : Reader.Settles (loopHead levels) :=
  .bind fun _ => .bind fun _ => .bind fun _ => .bind fun _ => (settles_endTag.map _).map _

theorem pieceWise_forTag (hb : body.PieceWise) : PieceWise (forTag levels body opening) := by
  refine (PieceWise.lift tokenWise_loopHead settles_loopHead).bind
    fun (target, iterable, condition) => (hb _).bind fun (main, closing) => ?_
  dsimp only
  split
  · exact (pieceWise_discard pieceWise_endTag).bind fun _ => (hb _).bind fun _ =>
      (pieceWise_discard pieceWise_endTag).bind fun _ => .pure _
  · exact (pieceWise_discard pieceWise_endTag).bind fun _ => .pure _

theorem tokenWise_callArguments : TokenWise (callArguments levels) := by
  refine (TokenWise.atSymbol _).bind fun atParen => ?_
  split
  · exact (Expression.tokenWise_arguments (Expression.tokenWise_descend _)).bind fun _ => .pure _
  · exact .pure _

theorem tokenWise_callHead : TokenWise (callHead levels) :=
  TokenWise.expectName.bind fun _ => tokenWise_callArguments.bind fun _ =>
    tokenWise_endTag.discard.bind fun _ => .pure _

theorem settles_callHead : Reader.Settles (callHead levels) :=
  .bind fun _ => .bind fun _ => (settles_endTag.map _).map _

theorem pieceWise_callTag (hb : body.PieceWise) : PieceWise (callTag levels body opening) :=
  (PieceWise.lift tokenWise_callHead settles_callHead).bind fun _ => (hb _).bind fun _ =>
    (pieceWise_discard pieceWise_endTag).bind fun _ => .pure _

theorem pieceWise_filterTag (hb : body.PieceWise) : PieceWise (filterTag levels body opening) :=
  pieceWise_lastExpression.bind fun _ => (hb _).bind fun _ =>
    (pieceWise_discard pieceWise_endTag).bind fun _ => .pure _

theorem tokenWise_closingName (name : String) : TokenWise (closingName name) := by
  refine TokenWise.peek.bind fun l => ?_
  split
  · split
    · exact TokenWise.next.discard
    · exact .throw _
  · exact .pure _

theorem tokenWise_blockHead : TokenWise blockHead :=
  TokenWise.expectName.bind fun _ => tokenWise_endTag.discard.bind fun _ => .pure _

theorem settles_blockHead : Reader.Settles blockHead :=
  .bind fun _ => (settles_endTag.map _).map _

theorem tokenWise_blockEnd (name : String) : TokenWise (blockEnd name) :=
  (tokenWise_closingName name).bind fun _ => tokenWise_endTag

theorem settles_blockEnd (name : String) : Reader.Settles (blockEnd name) :=
  .bind fun _ => settles_endTag

theorem pieceWise_blockTag (hb : body.PieceWise) : PieceWise (blockTag body opening) :=
  (PieceWise.lift tokenWise_blockHead settles_blockHead).bind fun _ => (hb _).bind fun _ =>
    (PieceWise.lift (tokenWise_blockEnd _) (settles_blockEnd _)).bind fun _ =>
    (PieceWise.aside (aside_define _)).bind fun _ => .pure _

theorem tokenWise_macroHead : TokenWise (macroHead levels) :=
  TokenWise.expectName.bind fun _ => (TokenWise.expectSymbol _).discard.bind fun _ =>
    (TokenWise.items tokenWise_parameter).bind fun _ =>
      tokenWise_endTag.discard.bind fun _ => .pure _

theorem settles_macroHead : Reader.Settles (macroHead levels) :=
  .bind fun _ => .bind fun _ => .bind fun _ => (settles_endTag.map _).map _

theorem pieceWise_macroTag (hb : body.PieceWise) : PieceWise (macroTag levels body opening) :=
  (PieceWise.lift tokenWise_macroHead settles_macroHead).bind fun _ => (hb _).bind fun _ =>
    (pieceWise_discard pieceWise_endTag).bind fun _ => .aside (aside_define _)

theorem pieceWise_extendsTag : PieceWise (extendsTag levels) := by
  refine pieceWise_lastExpression.bind fun target =>
    (PieceWise.aside (aside_setParent _)).bind fun isFirst => ?_
  split
  · exact .pure _
  · exact .throw _

theorem pieceWise_tag (hb : body.PieceWise) (name : Identifier) :
    PieceWise (tag levels body opening name) := by
  unfold tag
  split
  · exact (pieceWise_ifTag hb).bind fun _ => .aside (aside_push _)
  · exact (pieceWise_forTag hb).bind fun _ => .aside (aside_push _)
  · exact (PieceWise.lift tokenWise_setTag settles_setTag).bind fun _ => .aside (aside_push _)
  · exact (pieceWise_callTag hb).bind fun _ => .aside (aside_push _)
  · exact (pieceWise_filterTag hb).bind fun _ => .aside (aside_push _)
  · exact (pieceWise_blockTag hb).bind fun _ => .aside (aside_push _)
  · exact pieceWise_macroTag hb
  · exact pieceWise_extendsTag
  · exact .throw _

theorem pieceWise_piece (hb : body.PieceWise) (closers : List Keyword) :
    PieceWise (piece levels body closers) := by
  refine PieceWise.opening.bind fun found => ?_
  split
  · exact .pure _
  · split
    · exact ((PieceWise.lift tokenWise_placeable settles_placeable).bind fun _ =>
        (PieceWise.aside (aside_push _)).bind fun _ => .pure _)
    · refine (PieceWise.lift .expectName .expectName).bind fun name =>
        (PieceWise.aside (aside_note _)).bind fun _ => ?_
      split
      · exact .pure _
      · exact (pieceWise_tag hb _).bind fun _ => .pure _
    · exact .throw _

theorem pieceWise_content (hb : body.PieceWise) (closers : List Keyword) :
    PieceWise (content levels body closers) :=
  .loop (fun _ => pieceWise_piece hb closers) none

theorem pieceWise_body (n : Nat) : (Draft.body n).PieceWise := by
  induction n with
  | zero => exact fun _ => (PieceWise.aside aside_position).bind fun _ => .throw _
  | succ n ih =>
    refine fun closers => (PieceWise.aside aside_openBody).bind fun _ =>
      (pieceWise_content ih _).bind fun r => ?_
    split
    · exact (PieceWise.aside (aside_closeBody _)).bind fun _ => .pure _
    · exact (PieceWise.aside aside_position).bind fun _ => .throw _

theorem pieceWise_readAll : PieceWise readAll :=
  pieceWise_discard (pieceWise_content (pieceWise_body _) [])

end Draft
end TemplateSyntax
