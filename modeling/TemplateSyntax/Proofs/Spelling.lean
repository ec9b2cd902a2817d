import TemplateSyntax.Proofs.Nodes
import TemplateSyntax.Proofs.Position
import TemplateSyntax.Proofs.Words

/-!
# How leaves are spelled

A leaf of a tree is spelled where its span says: the text there is the name or the operator itself,
or a literal that is read as the value of the leaf. Nothing is written for the condition of an
`else`. A node is traced in a text if all leaves in it are spelled there, with that one exception.
Whatever a cursor reads as a token is spelled in its text.
-/
namespace TemplateSyntax

/-- A decimal literal: digits, and perhaps a point and more digits. -/
def Number.IsLiteral (cs : List Char) : Prop :=
  ∃ whole, whole ≠ [] ∧ (∀ d ∈ whole, d.isDigit = true) ∧
    (cs = whole ∨ ∃ fraction, (∀ d ∈ fraction, d.isDigit = true) ∧ cs = whole ++ '.' :: fraction)

/-- A tag opens at this position of the text, and begins with this word. -/
def Keyword.OpensTagAt (text : String) (k : Keyword) (p : Position) : Prop :=
  ∃ c d e, (Cursor.ofText text).Reaches c ∧ c.position = p ∧ c.Opens .beginTag d ∧ d.ReadsWord k e

namespace Node

/-- The leaf is written in the text where its span says. Nodes with parts are no leaves, and no
literal stands for a truth value. -/
def Spelled (text : String) : Node → Prop
  | name v | expression (.name v) | pattern (.single v) => v.span.slice? text = some v.name
  | identifier i => i.span.slice? text = some i.value
  | operator o => o.span.slice? text = some o.value.spelling
  | expression (.number value span) =>
    ∃ literal, span.slice? text = some literal ∧ Number.IsLiteral literal.toList ∧
      ∀ quotes, (Cursor.ofText literal).next quotes =
        (.ok ⟨.number value, ⟨.start, Position.start.advanceBy literal.toList⟩⟩,
          ⟨Position.start.advanceBy literal.toList, []⟩)
  | expression (.string value span) =>
    ∃ quote inside, span.slice? text = some (String.ofList (quote :: inside)) ∧
      Text.Quoted.isQuote quote = true ∧ Text.Quoted.Closes quote inside ∧
      Text.Quoted.decode quote inside = .ok value.toList
  | expression (.boolean _ _) => False
  | statement (.text run span) => span.slice? text = some run
  | _ => True

/-- The child is the condition of an arm that is opened by `else`. -/
def IsElseCondition (text : String) (parent child : Node) : Prop :=
  ∃ a : Arm Statement, parent = arm a ∧ child = expression a.condition ∧
    a.condition = .boolean true (.empty a.span.start) ∧
    Keyword.OpensTagAt text .elseWord a.span.start

/-- All leaves in the node are spelled in the text, apart from the conditions of `else`. -/
inductive Traced (text : String) : Node → Prop
  | intro {n : Node} (h : n.Spelled text)
    (hc : ∀ c ∈ n.children, ¬ n.IsElseCondition text c → Traced text c) : Traced text n

variable {text : String} {n m : Node}

theorem Traced.spelled (h : n.Traced text) : n.Spelled text := by
  obtain ⟨hn, -⟩ := h
  exact hn

theorem traced_of_children (h : n.Spelled text) (hc : ∀ c ∈ n.children, c.Traced text) :
    n.Traced text := .intro h fun c hmem _ => hc c hmem

theorem traced_of_leaf (h : n.Spelled text) (hn : n.children = []) : n.Traced text :=
  traced_of_children h (by simp [hn])

/-- Only arms have children that need not be spelled. -/
theorem Traced.of_mem {c : Node} (h : n.Traced text) (hn : ∀ a, n ≠ arm a) (hc : c ∈ n.children) :
    c.Traced text := by
  obtain ⟨-, hall⟩ := h
  refine hall c hc ?_
  rintro ⟨a, ha, -⟩
  exact hn a ha

/-- Every part of a traced node is traced, or the condition of an `else`. -/
theorem Traced.of_hasChild (h : n.Traced text) {parent child : Node}
    (hp : Relation.ReflTransGen HasChild n parent) (hc : parent.HasChild child) :
    child.Traced text ∨ parent.IsElseCondition text child := by
  induction hp generalizing child with
  | refl =>
    obtain ⟨-, hall⟩ := h
    exact (Classical.em _).symm.imp (hall child hc) id
  | tail _ hm ih =>
    rcases ih hm with ht | ⟨a, -, rfl, hcondition, -⟩
    · obtain ⟨-, hall⟩ := ht
      exact (Classical.em _).symm.imp (hall child hc) id
    · rw [HasChild, hcondition] at hc
      exact absurd hc (by simp [children])

end Node

/-! ## Slices -/

namespace Cursor
variable {text : String} {c d : Cursor} {cs : List Char}

/-- What was read between two places of a text is the text between their offsets. -/
theorem Reaches.slice?_eq (hc : (ofText text).Reaches c) (hd : d.position = c.position.advanceBy cs)
    (hrest : c.rest = cs ++ d.rest) :
    (⟨c.position, d.position⟩ : Span).slice? text = some (String.ofList cs) := by
  obtain ⟨pre, htext, hp⟩ := hc
  have hoffset : c.position.offset = String.utf8Len pre := by
    rw [hp, Position.offset_advanceBy]
    simp [ofText, Position.start]
  have hstop : d.position.offset = c.position.offset + String.utf8Len cs := by
    rw [hd, Position.offset_advanceBy]
  have hall : text.toList = pre ++ (cs ++ d.rest) := by
    rw [← hrest]
    exact htext
  simp only [Span.slice?, Text.slice?, hstop, Nat.le_add_right, if_true, Nat.add_sub_cancel_left]
  rw [hoffset, hall, Text.dropBytes?_append, Option.bind_some, Text.takeBytes?_append]
  rfl

/-- The text at the span of the next token is what the token is read from. -/
theorem Reaches.slice?_nextSpan (hc : (ofText text).Reaches c) (quotes : Bool) :
    (c.nextSpan quotes).slice? text = some (String.ofList (c.nextPiece quotes).taken) :=
  (hc.trans c.reaches_skipBlanks).slice?_eq rfl (c.skipBlanks_rest_eq quotes)

/-- What a token is read from is read as that token if it is all there is. -/
theorem first_taken_nextPiece (quotes : Bool) (c : Cursor) :
    Piece.first quotes (c.nextPiece quotes).taken = c.nextPiece quotes := by
  have htaken : (Piece.first quotes
      ((c.nextPiece quotes).taken ++ (c.behindNext quotes).rest)).taken =
        (c.nextPiece quotes).taken := by
    rw [← c.skipBlanks_rest_eq quotes]
    rfl
  have happend := Piece.first_append htaken (.nil _)
  rwa [List.append_nil, ← c.skipBlanks_rest_eq quotes] at happend

/-- A token that is a text alone is read through the end of the text. -/
theorem next_ofText {quotes : Bool} {taken : List Char} {t : Token}
    (hfirst : Piece.first quotes taken = ⟨taken, .ok t⟩) :
    (ofText (String.ofList taken)).next quotes =
      (.ok ⟨t, ⟨.start, Position.start.advanceBy taken⟩⟩,
        ⟨Position.start.advanceBy taken, []⟩) := by
  have hblanks := Piece.takeWhile_isBlank_of_first (congrArg Piece.token hfirst)
  have hskip : (ofText (String.ofList taken)).skipBlanks = ofText (String.ofList taken) := by
    simp [skipBlanks, past, ofText, hblanks]
  have hpiece : Piece.first quotes (ofText (String.ofList taken)).rest = ⟨taken, .ok t⟩ := by
    rw [ofText, String.toList_ofList, hfirst]
  simp only [next, hskip, hpiece, past]
  simp [ofText]

end Cursor

/-! ## Tokens -/

/-- The characters that a token is read from. -/
def Token.TakenFrom : Token → List Char → Prop
  | symbol s, cs => cs = s.spelling.toList
  | identifier word, cs | string word, cs | text word, cs => cs = word.toList
  | number _, cs => Number.IsLiteral cs
  | endOfSource, cs => cs = []

namespace Piece
variable {quotes : Bool} {cs : List Char}

theorem isLiteral_taken {c : Char} (hc : c.isDigit = true) (cs : List Char) :
    Number.IsLiteral (number (c :: cs)).taken := by
  have hdigits : ∀ d ∈ (c :: cs).takeWhile Char.isDigit, d.isDigit = true := fun _ hd =>
    List.mem_takeWhile_imp hd
  refine ⟨(c :: cs).takeWhile Char.isDigit, by simp [hc], hdigits, ?_⟩
  rw [taken_number]
  split
  · exact .inr ⟨_, fun _ hd => List.mem_takeWhile_imp hd, rfl⟩
  · exact .inl rfl

theorem token_number (cs : List Char) :
    (∃ n, (number cs).token = .ok (.number n)) ∨ (number cs).token = .error .numberTooLarge := by
  unfold number
  split <;> (dsimp only; split <;> simp)

theorem takenFrom_first {t : Token} (h : (first quotes cs).token = .ok t) :
    t.TakenFrom (first quotes cs).taken := by
  cases cs with
  | nil =>
    cases h
    rfl
  | cons c cs =>
    simp only [first] at h ⊢
    split at h
    · next hq =>
      rw [if_pos hq]
      cases h
      exact String.toList_ofList.symm
    · next hq =>
      rw [if_neg hq]
      split at h
      · next hd =>
        rw [if_pos hd]
        rcases token_number (c :: cs) with ⟨n, hn⟩ | hn
        · rw [hn] at h
          cases h
          exact isLiteral_taken hd cs
        · rw [hn] at h
          cases h
      · next hd =>
        rw [if_neg hd]
        split at h
        · next hi =>
          rw [if_pos hi]
          cases h
          exact String.toList_ofList.symm
        · next hi =>
          rw [if_neg hi]
          cases hs : Symbol.match? (c :: cs) with
          | none =>
            rw [hs] at h
            cases h
          | some s =>
            rw [hs] at h
            cases h
            rfl

end Piece

namespace Number

/-- A literal begins with a digit, which is neither a quote nor a blank. -/
theorem IsLiteral.exists_cons {cs : List Char} (h : IsLiteral cs) :
    ∃ d rest, cs = d :: rest ∧ d.isDigit = true := by
  obtain ⟨whole, hne, hdigits, hcs⟩ := h
  obtain ⟨d, ds, rfl⟩ := List.exists_cons_of_ne_nil hne
  have hd := hdigits d (by simp)
  rcases hcs with rfl | ⟨fraction, -, rfl⟩
  · exact ⟨d, ds, rfl, hd⟩
  · exact ⟨d, ds ++ '.' :: fraction, rfl, hd⟩

theorem IsLiteral.first_eq {cs : List Char} (h : IsLiteral cs) (quotes : Bool) :
    Piece.first quotes cs = Piece.number cs := by
  obtain ⟨d, rest, rfl, hd⟩ := h.exists_cons
  exact Piece.first_of_isDigit hd rest

/-- A literal that is a text alone is read as the number that it was read as before. -/
theorem IsLiteral.next_ofText {literal : String} {value : Number} (h : IsLiteral literal.toList)
    (hfirst : Piece.first true literal.toList = ⟨literal.toList, .ok (.number value)⟩)
    (quotes : Bool) : (Cursor.ofText literal).next quotes =
      (.ok ⟨.number value, ⟨.start, Position.start.advanceBy literal.toList⟩⟩,
        ⟨Position.start.advanceBy literal.toList, []⟩) := by
  have hquotes : Piece.first quotes literal.toList = ⟨literal.toList, .ok (.number value)⟩ := by
    rw [h.first_eq, ← h.first_eq true, hfirst]
  simpa using Cursor.next_ofText hquotes

end Number

namespace Lexeme

/-- The token is what a cursor in the text reads next. -/
def IsReadIn (text : String) (l : Lexeme) : Prop :=
  ∃ c, (Cursor.ofText text).Reaches c ∧ (c.next true).1 = .ok l

variable {text : String} {l : Lexeme}

/-- The text at the span of a token is what it is read from, and read alone it is that token. -/
theorem IsReadIn.exists_slice (h : l.IsReadIn text) :
    ∃ taken, l.span.slice? text = some (String.ofList taken) ∧ l.token.TakenFrom taken ∧
      Piece.first true taken = ⟨taken, .ok l.token⟩ := by
  obtain ⟨c, hc, hn⟩ := h
  obtain ⟨htoken, hspan, -⟩ := Cursor.next_eq_ok (Prod.ext hn rfl)
  refine ⟨(c.nextPiece true).taken, ?_, Piece.takenFrom_first htoken, ?_⟩
  · rw [hspan]
    exact hc.slice?_nextSpan true
  · rw [c.first_taken_nextPiece, ← htoken]

theorem IsReadIn.slice_of_identifier (h : l.IsReadIn text) {name : String}
    (hl : l.token = .identifier name) : l.span.slice? text = some name := by
  obtain ⟨taken, hslice, htaken, -⟩ := h.exists_slice
  rw [hl] at htaken
  obtain rfl : taken = name.toList := htaken
  rw [hslice, String.ofList_toList]

theorem IsReadIn.slice_of_symbol (h : l.IsReadIn text) {s : Symbol} (hl : l.token = .symbol s) :
    l.span.slice? text = some s.spelling := by
  obtain ⟨taken, hslice, htaken, -⟩ := h.exists_slice
  rw [hl] at htaken
  obtain rfl : taken = s.spelling.toList := htaken
  rw [hslice, String.ofList_toList]

theorem IsReadIn.spelled_number (h : l.IsReadIn text) {value : Number}
    (hl : l.token = .number value) : (Node.expression (.number value l.span)).Spelled text := by
  obtain ⟨taken, hslice, htaken, hfirst⟩ := h.exists_slice
  rw [hl] at htaken hfirst
  have hlist : (String.ofList taken).toList = taken := String.toList_ofList
  refine ⟨String.ofList taken, hslice, by rwa [hlist], fun quotes => ?_⟩
  exact Number.IsLiteral.next_ofText (by rwa [hlist]) (by rwa [hlist]) quotes

/-- A string with a value is spelled by the literal that it was decoded from. -/
theorem IsReadIn.spelled_string (h : l.IsReadIn text) {raw : String} (hl : l.token = .string raw)
    {quote : Char} {inside value : List Char} (hraw : raw.toList = quote :: inside)
    (hd : Text.Quoted.decode quote inside = .ok value) :
    (Node.expression (.string (String.ofList value) l.span)).Spelled text := by
  have hread := h
  obtain ⟨c, hc, hn⟩ := hread
  have hreads : c.Reads (.string raw) (c.behindNext true) := by
    refine ⟨l.span, ?_⟩
    rw [← hl]
    exact Prod.ext hn (c.next_snd true)
  obtain ⟨quote', cs, hq, hscan⟩ := hreads.exists_scan
  rw [hraw] at hscan
  obtain ⟨rfl, rfl⟩ := List.cons.inj hscan
  obtain ⟨taken, hslice, htaken, -⟩ := h.exists_slice
  rw [hl] at htaken
  obtain rfl : taken = raw.toList := htaken
  refine ⟨quote, _, by rw [hslice, hraw], hq, Text.Quoted.closes_of_decode hd, ?_⟩
  rw [hd, String.toList_ofList]

end Lexeme
end TemplateSyntax
