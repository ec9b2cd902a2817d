import TemplateSyntax.Proofs.ExpressionSoundness
import TemplateSyntax.Proofs.Nodes
import TemplateSyntax.Proofs.Position

/-!
# Readers give nodes in order

What a reader gives was read between the cursor where it began and the one where it ended, and the
nodes in it follow each other as they were read. So rows of nodes grow with the text that is passed:
what is read next is behind all that was read before.
-/
namespace TemplateSyntax

namespace Cursor
variable {c d e : Cursor} {s : Span}

/-- The span covers some of the text between two cursors. -/
def Frames (c d : Cursor) (s : Span) : Prop :=
  c.position.offset ≤ s.start.offset ∧ s.start.offset < s.stop.offset ∧
    s.stop.offset ≤ d.position.offset

/-- Tidy nodes, one behind the other between two cursors. -/
def Row (c : Cursor) (ns : List Node) (d : Cursor) : Prop :=
  Node.Row c.position.offset ns d.position.offset

theorem Reaches.offset_le (h : c.Reaches d) : c.position.offset ≤ d.position.offset := by
  obtain ⟨taken, -, hp⟩ := h
  rw [hp, Position.offset_advanceBy]
  omega

theorem reaches_of_next {l : Lexeme} (h : c.next true = (.ok l, d)) : c.Reaches d := by
  rw [(next_eq_ok h).2.2]
  exact c.reaches_behindNext true

theorem Reads.offset_le {t : Token} (h : c.Reads t d) : c.position.offset ≤ d.position.offset := by
  obtain ⟨span, h⟩ := h
  exact (reaches_of_next h).offset_le

/-- A token other than the end of the source covers some text. -/
theorem frames_of_next {l : Lexeme} (h : c.next true = (.ok l, d)) (hl : l.token ≠ .endOfSource) :
    c.Frames d l.span := by
  obtain ⟨htoken, hspan, rfl⟩ := next_eq_ok h
  have hrest : c.skipBlanks.rest ≠ [] := by
    intro hnil
    rw [nextPiece_eq_endOfSource_iff.mpr hnil] at htoken
    exact hl (Except.ok.inj htoken).symm
  have htaken : String.utf8Len (c.nextPiece true).taken ≠ 0 := fun h =>
    Piece.taken_first_ne_nil true hrest (String.utf8Len_eq_zero.mp h)
  have hstop : (c.behindNext true).position.offset =
      c.skipBlanks.position.offset + String.utf8Len (c.nextPiece true).taken :=
    Position.offset_advanceBy _ _
  rw [hspan]
  refine ⟨c.reaches_skipBlanks.offset_le, ?_, Nat.le_refl _⟩
  change c.skipBlanks.position.offset < (c.behindNext true).position.offset
  omega

namespace Row
variable {ns ms : List Node} {t : Token}

theorem append (hn : c.Row ns d) (hm : d.Row ms e) : c.Row (ns ++ ms) e := Node.Row.append hn hm

/-- A row may end behind one more token. -/
theorem skip (h : c.Row ns d) (ht : d.Reads t e) : c.Row ns e :=
  Node.Row.widen h (Nat.le_refl _) ht.offset_le

/-- A row may begin before one more token. -/
theorem of_skip (ht : c.Reads t d) (h : d.Row ns e) : c.Row ns e :=
  Node.Row.widen h ht.offset_le (Nat.le_refl _)

end Row

/-- A token that is a node of its own. -/
theorem Frames.row {n : Node} (h : c.Frames d n.span) (hc : n.children = [])
    (hb : n.beginsWithChild = false) : c.Row [n] d :=
  Node.row_single (Node.tidy_of_no_children hc hb) (Node.firm_of_lt h.2.1) h.1 h.2.2

end Cursor

namespace Reader
variable {α β : Type} {c : Cursor} {H : β → Cursor → Prop}

theorem Lands.lexeme : Lands Reader.next c fun l d => c.next true = (.ok l, d) := by
  intro r hr
  cases hn : Reader.next r with
  | error f t => trivial
  | ok l t =>
    obtain ⟨hc, ht⟩ := hr.next_eq_ok hn
    exact ⟨t.cursor, .inl ⟨ht, rfl⟩, hc⟩

theorem Lands.peek_lexeme_bind {f : Lexeme → ReadM β}
    (h : ∀ l d, c.next true = (.ok l, d) → Lands (f l) c H) : Lands (peek >>= f) c H := by
  refine Ensures.bind (Q := fun l t => t.At c ∧ ∃ d, c.next true = (.ok l, d)) ?_
    fun l r ⟨hr, d, hd⟩ => h l d hd r hr
  intro r hr
  rw [run_peek]
  cases hn : Reader.next r with
  | error f t => trivial
  | ok l t =>
    obtain ⟨hc, -⟩ := hr.next_eq_ok hn
    exact ⟨.inr ⟨l, rfl, hc⟩, t.cursor, hc⟩

theorem Lands.expectLexeme (s : Symbol) : Lands (Reader.expectSymbol s) c fun span d =>
    c.next true = (.ok ⟨.symbol s, span⟩, d) := by
  refine Lands.lexeme.bind fun l d hl => ?_
  split
  · next ht =>
    refine Lands.pure ?_
    rw [← ht]
    exact hl
  · exact Lands.throw _

theorem frames_expectSymbol (s : Symbol) :
    Lands (expectSymbol s) c fun span d => c.Frames d span :=
  (Lands.expectLexeme s).mono fun _ _ hl => Cursor.frames_of_next hl (by simp)

theorem row_expectName : Lands expectName c fun i d => c.Row [.identifier i] d := by
  refine Lands.lexeme.bind fun l d hl => ?_
  split
  · next name ht => exact Lands.pure ((Cursor.frames_of_next hl (by simp [ht])).row rfl rfl)
  · exact Lands.throw _

theorem row_variableName : Lands variableName c fun v d => c.Row [.name v] d := by
  refine row_expectName.bind fun i d hi => Lands.pure ?_
  obtain ⟨-, hf, hlo, hhi⟩ := hi
  exact Node.row_name _ hlo (hf.lt (by simp)) hhi

/-- Items follow each other up to the parenthesis that closes them. -/
theorem row_items {item : ReadM α} {node : α → Node} (hc : Consumes Reader.size item)
    (h : ∀ c, Lands item c fun x d => c.Row [node x] d) (c : Cursor) :
    Lands (items item) c fun x e => ∃ d, c.Row (x.1.map node) d ∧ d.Frames e x.2 := by
  have hloop : Lands (TemplateSyntax.loop Reader.size (nextItem item) []) c
      fun found d => c.Row (found.map node) d := by
    refine Lands.loop (descends_nextItem hc) (I := fun found d => c.Row (found.map node) d)
      (fun found d hd => ?_) (Nat.le_refl _)
    refine Lands.atSymbol_bind (fun _ _ => Lands.pure hd) fun _ => ?_
    refine (h d).bind fun x e hx => ?_
    have hmore : c.Row ((found ++ [x]).map node) e := by
      rw [List.map_append]
      exact hd.append hx
    refine Lands.atSymbol_bind (fun _ _ => Lands.pure hmore) fun _ => ?_
    exact (Lands.expectSymbol .comma).discard.bind fun _ f hf => Lands.pure (hmore.skip hf)
  exact hloop.bind fun found d hd => (frames_expectSymbol .closeParen).bind fun close e he =>
    Lands.pure ⟨d, hd, he⟩

end Reader

namespace Expression
open Reader

/-- The readers of a level give expressions from the text that they pass. -/
structure InOrder (n : Nat) : Prop where
  operand : ∀ c, Lands (operand (descend n)) c fun e d => c.Row [.expression e] d
  operation : ∀ (stops : List String) (minimum : Nat) (c : Cursor),
    Lands (operation (descend n) stops minimum) c fun e d => c.Row [.expression e] d

section Levels
variable {n : Nat} (hn : ∀ m, n = m + 1 → InOrder m)
include hn

theorem row_arguments (c : Cursor) : Lands (arguments (descend n)) c fun x e =>
    ∃ d, c.Row (x.1.map Node.expression) d ∧ d.Frames e x.2 := by
  refine (Lands.expectSymbol .openParen).bind fun span d hd => lands_descend fun m hm => ?_
  refine (row_items (consumes_operation (tokenWise_descend m) _ _)
    ((hn m hm).operation _ _) d).mono fun x e hx => ?_
  obtain ⟨f, hf, hclose⟩ := hx
  exact ⟨f, .of_skip hd hf, hclose⟩

theorem row_primary (c : Cursor) :
    Lands (primary (descend n)) c fun e d => c.Row [.expression e] d := by
  refine Lands.lexeme.bind fun l d hl => ?_
  unfold primaryFrom
  split
  · next value ht => exact Lands.pure ((Cursor.frames_of_next hl (by simp [ht])).row rfl rfl)
  · next raw ht =>
    have hframes := Cursor.frames_of_next hl (by simp [ht])
    unfold stringValue
    split
    · exact Lands.throw _
    · split
      · exact Lands.pure (hframes.row rfl rfl)
      · exact Lands.throw _
      · exact Lands.throw _
  · next word ht => exact Lands.pure ((Cursor.frames_of_next hl (by simp [ht])).row rfl rfl)
  · next ht =>
    refine lands_descend fun m hm => ((hn m hm).operation _ _ d).bind fun inner e he => ?_
    refine (Lands.expectSymbol .closeParen).discard.bind fun _ f hf => Lands.pure ?_
    exact .of_skip ⟨l.span, hl⟩ (he.skip hf)
  · exact Lands.throw _

theorem row_term (c : Cursor) : Lands (term (descend n)) c fun e d => c.Row [.expression e] d := by
  refine (row_primary hn c).bind fun e d hd => ?_
  refine Lands.loop (descends_nextSuffix (tokenWise_descend n))
    (I := fun e d => c.Row [.expression e] d) (fun e d hd => ?_) hd
  refine Lands.atSymbol_bind (fun d' hdot => ?_) fun _ => Lands.atSymbol_bind (fun _ _ => ?_) ?_
  · refine Lands.skip hdot (row_variableName.bind fun v f hf => Lands.pure ?_)
    exact Node.row_member ((hd.skip hdot).append hf)
  · refine (row_arguments hn d).bind fun x f hx => ?_
    obtain ⟨g, hg, hlo, hlt, hhi⟩ := hx
    exact Lands.pure (Node.row_call (hd.append hg) hlo hlt hhi)
  · exact fun _ => Lands.pure hd

theorem row_operand (c : Cursor) :
    Lands (operand (descend n)) c fun e d => c.Row [.expression e] d := by
  refine Lands.peek_lexeme_bind fun l d hl => ?_
  split
  · exact row_term hn c
  · next op hs =>
    have hend : l.token ≠ .endOfSource := by
      intro hend
      rw [hend, sign?_endOfSource] at hs
      cases hs
    have hop : c.Row [.operator ⟨op, l.span⟩] d := (Cursor.frames_of_next hl hend).row rfl rfl
    refine Lands.skip ⟨l.span, hl⟩ (lands_descend fun m hm => ?_)
    exact ((hn m hm).operand d).bind fun e f hf => Lands.pure (Node.row_unary (hop.append hf))

theorem row_nextJoint {stops : List String} {minimum : Nat} {c d : Cursor} {left : Expression}
    (hl : c.Row [.expression left] d) :
    Lands (nextJoint (descend n) stops minimum left) d
      (OnPass (fun e d => c.Row [.expression e] d) fun e d => c.Row [.expression e] d) := by
  refine Lands.peek_lexeme_bind fun l f hf => ?_
  split
  · exact Lands.pure hl
  · refine Lands.skip ⟨l.span, hf⟩ ((row_term hn f).bind fun e g hg => Lands.pure ?_)
    exact Node.row_filter (hl.append (.of_skip ⟨l.span, hf⟩ hg))
  · next op binding hj =>
    have hend : l.token ≠ .endOfSource := by
      intro hend
      rw [hend, joint?_endOfSource] at hj
      cases hj
    have hop : d.Row [.operator ⟨op, l.span⟩] f := (Cursor.frames_of_next hf hend).row rfl rfl
    refine Lands.skip ⟨l.span, hf⟩ (lands_descend fun m hm => ?_)
    refine ((hn m hm).operation _ _ f).bind fun e g hg => Lands.pure ?_
    exact Node.row_binary ((hl.append hop).append hg)

theorem inOrder_of_deeper : InOrder n where
  operand := row_operand hn
  operation _ _ c :=
    (row_operand hn c).bind fun _ _ hd =>
      Lands.loop (descends_nextJoint (tokenWise_descend n) _ _)
        (I := fun e d => c.Row [.expression e] d) (fun _ _ hl => row_nextJoint hn hl) hd

end Levels

theorem inOrder (n : Nat) : InOrder n := by
  induction n using levels_induction with
  | level n hn => exact inOrder_of_deeper hn

theorem row_read (n : Nat) (stops : List String) (c : Cursor) :
    Lands (read n stops) c fun e d => c.Row [.expression e] d := (inOrder n).operation stops 0 c

theorem row_readFilter (n : Nat) (c : Cursor) :
    Lands (readFilter n) c fun e d => c.Row [.expression e] d := row_term (fun m _ => inOrder m) c

end Expression
end TemplateSyntax
