import TemplateSyntax.Proofs.StringLiterals
import TemplateSyntax.Proofs.Tokenization

/-!
# Joined tokens

Tokens that are written one after the other, with blanks between any two of them, are read again:
each as the token that it was, over exactly the characters that it was written with, and then the
end of the source. No blank goes on with a token before it, and no token begins with one.
-/
namespace TemplateSyntax

/-- The characters that a token may be written with. A symbol is spelled in one way, a name is what
it consists of, a number is digits, perhaps with a point and more digits, and a string is what
stands between two quotes, of which the second is the first one of its kind that is not escaped. -/
inductive Token.SpelledBy : Token → List Char → Prop
  | symbol (s : Symbol) : SpelledBy (.symbol s) s.spelling.toList
  | identifier {c : Char} {cs : List Char} (hc : Text.startsIdentifier c = true)
    (hcs : ∀ d ∈ cs, Text.continuesIdentifier d = true) :
    SpelledBy (.identifier (String.ofList (c :: cs))) (c :: cs)
  | integer {ds : List Char} {value : Number} (hne : ds ≠ []) (hd : ∀ d ∈ ds, d.isDigit = true)
    (hv : Number.ofLiteral? ds none = some value) : SpelledBy (.number value) ds
  | decimal {ds fs : List Char} {value : Number} (hne : ds ≠ []) (hd : ∀ d ∈ ds, d.isDigit = true)
    (hf : ∀ d ∈ fs, d.isDigit = true) (hv : Number.ofLiteral? ds (some fs) = some value) :
    SpelledBy (.number value) (ds ++ '.' :: fs)
  | string {quote : Char} {inside : List Char} {body : List Text.Quoted.Part}
    (hq : Text.Quoted.isQuote quote = true)
    (hparts : Text.Quoted.parts inside = body ++ [.plain quote]) (hfree : .plain quote ∉ body) :
    SpelledBy (.string (String.ofList (quote :: inside))) (quote :: inside)

/-- A text that does not begin, or begins with a blank. -/
def Parted (v : List Char) : Prop := ∀ b, v.head? = some b → Text.isBlank b = true

namespace Parted
variable {v : List Char}

theorem of_blanks (h : ∀ b ∈ v, Text.isBlank b = true) : Parted v := by
  intro b hb
  exact h b (List.mem_of_mem_head? hb)

theorem append_of_ne_nil {gap : List Char} (hgap : ∀ b ∈ gap, Text.isBlank b = true)
    (hne : gap ≠ []) (v : List Char) : Parted (gap ++ v) := by
  obtain ⟨a, gap, rfl⟩ := List.exists_cons_of_ne_nil hne
  intro b hb
  cases hb
  exact hgap a (by simp)

theorem takeWhile_eq_nil (h : Parted v) {p : Char → Bool}
    (hp : ∀ n ∈ Text.blankCodes, (!p (Char.ofNat n)) = true) : v.takeWhile p = [] := by
  cases v with
  | nil => rfl
  | cons b v =>
    have hb := Text.forall_isBlank (p := fun c => !p c) hp (h b rfl)
    rw [Bool.not_eq_true'] at hb
    simp [hb]

/-- No blank goes on with a number or a name. -/
theorem bounds (h : Parted v) : Bounds v where
  digit := h.takeWhile_eq_nil (by decide)
  point := by
    intro hv
    exact absurd (h '.' hv) (by decide)
  name := h.takeWhile_eq_nil (by decide +kernel)

end Parted

/-- No symbol goes on with a blank. -/
theorem Symbol.match?_parted (s : Symbol) {v : List Char} (hv : Parted v) :
    match? (s.spelling.toList ++ v) = some s := by
  cases v with
  | nil => cases s <;> decide
  | cons b v =>
    have hblanks : ∀ n ∈ Text.blankCodes,
        (match? ((s.spelling.toList ++ [Char.ofNat n]).take 2) == some s) = true := by
      cases s <;> decide
    have htwo : (s.spelling.toList ++ b :: v).take 2 = (s.spelling.toList ++ [b]).take 2 := by
      cases s <;> rfl
    have hb := Text.forall_isBlank
      (p := fun b => match? ((s.spelling.toList ++ [b]).take 2) == some s) hblanks (hv b rfl)
    rw [← match?_take, htwo]
    exact eq_of_beq hb

namespace Piece
variable {ds : List Char} {value : Number}

/-- Digits with a representable value are a number. -/
theorem number_of_digits (hd : ∀ d ∈ ds, d.isDigit = true)
    (hv : Number.ofLiteral? ds none = some value) : number ds = ⟨ds, .ok (.number value)⟩ := by
  have hdrop : ds.dropWhile Char.isDigit = [] := List.dropWhile_eq_nil_iff.mpr hd
  have htake : ds.takeWhile Char.isDigit = ds := List.takeWhile_eq_self_iff.mpr hd
  simp only [number, hdrop, htake, hv]

theorem number_of_point {fs : List Char} (hd : ∀ d ∈ ds, d.isDigit = true)
    (hf : ∀ d ∈ fs, d.isDigit = true) (hv : Number.ofLiteral? ds (some fs) = some value) :
    number (ds ++ '.' :: fs) = ⟨ds ++ '.' :: fs, .ok (.number value)⟩ := by
  have hpoint : ('.' :: fs).takeWhile Char.isDigit = [] := by
    simp [Char.isDigit]
  have hrest : ('.' :: fs).dropWhile Char.isDigit = '.' :: fs := by
    simp [Char.isDigit]
  have hself : fs.takeWhile Char.isDigit = fs := List.takeWhile_eq_self_iff.mpr hf
  simp only [number, List.takeWhile_append_of_pos hd, List.dropWhile_append_of_pos hd, hpoint,
    hrest, List.append_nil, hself, hv]

end Piece

namespace Token.SpelledBy
variable {t : Token} {cs v : List Char}

/-- What a token is written with is read as that token, if nothing or a blank stands behind it. -/
theorem first (h : t.SpelledBy cs) (hv : Parted v) :
    Piece.first true (cs ++ v) = ⟨cs, .ok t⟩ := by
  cases h with
  | symbol s => exact Piece.first_of_match? (s.match?_parted hv) true
  | @identifier c cs hc hcs =>
    have hname : IsIdentifier (String.ofList (c :: cs)) := ⟨c, cs, String.toList_ofList, hc, hcs⟩
    obtain ⟨t, ht, -, halone⟩ := (Word.WrittenAs.name (String.ofList (c :: cs))).first hname
    obtain rfl : t = .identifier (String.ofList (c :: cs)) := ht
    rw [String.toList_ofList] at halone
    exact Piece.first_bounds halone (by simp) hv.bounds (by simp) (by simp)
  | integer hne hd hvalue =>
    have halone := (Number.IsLiteral.first_eq ⟨cs, hne, hd, .inl rfl⟩ true).trans
      (Piece.number_of_digits hd hvalue)
    exact Piece.first_bounds halone hne hv.bounds (by simp) (by simp)
  | @decimal ds fs _ hne hd hf hvalue =>
    have halone := (Number.IsLiteral.first_eq ⟨ds, hne, hd, .inr ⟨fs, hf, rfl⟩⟩ true).trans
      (Piece.number_of_point hd hf hvalue)
    exact Piece.first_bounds halone (by simp) hv.bounds (by simp) (by simp)
  | string hq hparts hfree => exact Piece.first_of_closed hq hparts hfree v

end Token.SpelledBy

/-- A token, the blanks before it, and the characters that it is written with. -/
structure SpacedToken where
  gap : List Char
  token : Token
  spelling : List Char

namespace SpacedToken

/-- What is written for the token. -/
def chars (x : SpacedToken) : List Char := x.gap ++ x.spelling

/-- The tokens of a row that is written from a position on, each where it is written. -/
def lexemes (p : Position) : List SpacedToken → List Lexeme
  | [] => []
  | x :: xs =>
    let start := p.advanceBy x.gap
    let stop := start.advanceBy x.spelling
    ⟨x.token, ⟨start, stop⟩⟩ :: lexemes stop xs

/-- A row that can be told apart: there is a blank between any two tokens. -/
structure Legible (xs : List SpacedToken) : Prop where
  spelled : ∀ x ∈ xs, x.token.SpelledBy x.spelling
  blank : ∀ x ∈ xs, ∀ b ∈ x.gap, Text.isBlank b = true
  between : ∀ x ∈ xs.tail, x.gap ≠ []

variable {x : SpacedToken} {xs : List SpacedToken} {tail : List Char}

theorem Legible.of_cons (h : Legible (x :: xs)) : Legible xs where
  spelled y hy := h.spelled y (List.mem_cons_of_mem _ hy)
  blank y hy := h.blank y (List.mem_cons_of_mem _ hy)
  between y hy := h.between y (List.mem_of_mem_tail hy)

/-- Behind a token stands a blank or nothing. -/
theorem Legible.parted (h : Legible (x :: xs)) (htail : ∀ b ∈ tail, Text.isBlank b = true) :
    Parted (xs.flatMap chars ++ tail) := by
  cases xs with
  | nil => exact .of_blanks htail
  | cons y xs =>
    have hgap := h.blank y (by simp)
    have hne := h.between y (by simp)
    rw [List.flatMap_cons, chars, List.append_assoc, List.append_assoc]
    exact .append_of_ne_nil hgap hne _

end SpacedToken

namespace Cursor
open SpacedToken
variable {c : Cursor} {x : SpacedToken} {xs : List SpacedToken} {tail : List Char}

/-- The next token of a row. -/
theorem next_of_row (h : Legible (x :: xs)) (htail : ∀ b ∈ tail, Text.isBlank b = true)
    (hc : c.rest = (x :: xs).flatMap chars ++ tail) :
    let start := c.position.advanceBy x.gap
    let stop := start.advanceBy x.spelling
    c.next true = (.ok ⟨x.token, ⟨start, stop⟩⟩, ⟨stop, xs.flatMap chars ++ tail⟩) := by
  have hfirst := (h.spelled x (by simp)).first (h.parted htail)
  refine next_of_first x.gap ?_ (h.blank x (by simp)) hfirst
  simp [hc, chars]

/-- Behind the last token there is only the end. -/
theorem steps_of_blanks (hc : c.rest = tail) (htail : ∀ b ∈ tail, Text.isBlank b = true) (k : Nat) :
    c.steps (nexts (fun _ => true) (k + 1)) =
      (List.replicate (k + 1) (.ok ⟨.endOfSource, .empty (c.position.advanceBy tail)⟩),
        ⟨c.position.advanceBy tail, []⟩) := by
  have hend : Piece.first true ([] ++ []) = ⟨[], .ok .endOfSource⟩ := rfl
  have hnext : c.next true = (.ok ⟨.endOfSource, .empty (c.position.advanceBy tail)⟩,
      ⟨c.position.advanceBy tail, []⟩) :=
    next_of_first tail (by simp [hc]) htail hend
  rw [nexts_succ, steps, step, hnext, steps_of_rest_eq_nil rfl]
  simp [nexts, List.replicate_succ]

/-- A row is read token by token, and then the end. -/
theorem steps_of_row (h : Legible xs) (htail : ∀ b ∈ tail, Text.isBlank b = true)
    (hc : c.rest = xs.flatMap chars ++ tail) (k : Nat) :
    let stop := c.position.advanceBy c.rest
    c.steps (nexts (fun _ => true) (xs.length + (k + 1))) =
      ((lexemes c.position xs).map .ok ++
        List.replicate (k + 1) (.ok ⟨.endOfSource, .empty stop⟩), ⟨stop, []⟩) := by
  induction xs generalizing c with
  | nil =>
    have htail' : c.rest = tail := hc
    rw [htail']
    simpa [lexemes] using steps_of_blanks htail' htail k
  | cons x xs ih =>
    have hnext := next_of_row h htail hc
    dsimp only at hnext ⊢
    have hmore := ih h.of_cons
      (c := ⟨(c.position.advanceBy x.gap).advanceBy x.spelling, xs.flatMap chars ++ tail⟩) rfl
    have hstop : c.position.advanceBy c.rest =
        ((c.position.advanceBy x.gap).advanceBy x.spelling).advanceBy
          (xs.flatMap chars ++ tail) := by
      rw [hc, List.flatMap_cons, chars]
      simp only [Position.advanceBy_append]
    have hlength : (x :: xs).length + (k + 1) = xs.length + (k + 1) + 1 := by
      rw [List.length_cons]
      omega
    rw [hlength, nexts_succ, steps, step, hnext, hmore, hstop]
    rfl

/-- Each token of a row stands where it was written. -/
theorem forall₂_slice?_lexemes {text : String} (hreach : (ofText text).Reaches c)
    (hc : c.rest = xs.flatMap chars ++ tail) :
    List.Forall₂ (fun x l => l.token = x.token ∧
      l.span.slice? text = some (String.ofList x.spelling)) xs (lexemes c.position xs) := by
  induction xs generalizing c with
  | nil => exact .nil
  | cons x xs ih =>
    let start : Cursor := ⟨c.position.advanceBy x.gap, x.spelling ++ (xs.flatMap chars ++ tail)⟩
    let stop : Cursor := ⟨start.position.advanceBy x.spelling, xs.flatMap chars ++ tail⟩
    have hstart : c.Reaches start := ⟨x.gap, by simp [hc, chars, start], rfl⟩
    have hstop : start.Reaches stop := ⟨x.spelling, rfl, rfl⟩
    have hmore := ih ((hreach.trans hstart).trans hstop) rfl
    refine .cons ⟨rfl, ?_⟩ hmore
    exact (hreach.trans hstart).slice?_eq (d := stop) rfl rfl

end Cursor

open SpacedToken in
/-- Reading undoes writing. From a row of written tokens with blanks between any two of them, and
perhaps before the first and behind the last, the lexer takes exactly those tokens in their order,
each with the span that it is written at, and then the end of the source as often as it is asked. -/
theorem joined_tokens_read_back (xs : List SpacedToken) (tail : List Char) (k : Nat)
    (h : Legible xs) (htail : ∀ b ∈ tail, Text.isBlank b = true) :
    let text := String.ofList (xs.flatMap chars ++ tail)
    let stop := Position.start.advanceBy text.toList
    (Cursor.ofText text).steps (Cursor.nexts (fun _ => true) (xs.length + (k + 1))) =
        ((lexemes .start xs).map .ok ++
          List.replicate (k + 1) (.ok ⟨.endOfSource, .empty stop⟩), ⟨stop, []⟩) ∧
      List.Forall₂ (fun x l => l.token = x.token ∧
        l.span.slice? text = some (String.ofList x.spelling)) xs (lexemes .start xs) := by
  intro text stop
  have hrest : (Cursor.ofText text).rest = xs.flatMap chars ++ tail := String.toList_ofList
  exact ⟨Cursor.steps_of_row h htail hrest k, Cursor.forall₂_slice?_lexemes (.refl _) hrest⟩

open SpacedToken in
/-- Two symbols that would be one without the blank, a number, a name, and a string that has no
value. -/
theorem joined_tokens_read_back_brace :
    let row : List SpacedToken := [⟨[], .symbol .openBrace, ['\x7b']⟩,
      ⟨[' '], .symbol .percent, ['%']⟩, ⟨['\n'], .number (.integer 12), ['1', '2']⟩,
      ⟨[' '], .identifier "é", ['é']⟩,
      ⟨[' '], .string "'\\'\\q'", ['\'', '\\', '\'', '\\', 'q', '\'']⟩]
    Legible row ∧ (∀ b ∈ [' '], Text.isBlank b = true) ∧
      (Cursor.ofText "\x7b %\n12 é '\\'\\q' ").steps (Cursor.nexts (fun _ => true) 6) =
        ([.ok ⟨.symbol .openBrace, ⟨⟨0, 1, 0⟩, ⟨1, 1, 1⟩⟩⟩,
          .ok ⟨.symbol .percent, ⟨⟨2, 1, 2⟩, ⟨3, 1, 3⟩⟩⟩,
          .ok ⟨.number (.integer 12), ⟨⟨4, 2, 0⟩, ⟨6, 2, 2⟩⟩⟩,
          .ok ⟨.identifier "é", ⟨⟨7, 2, 3⟩, ⟨9, 2, 4⟩⟩⟩,
          .ok ⟨.string "'\\'\\q'", ⟨⟨10, 2, 5⟩, ⟨16, 2, 11⟩⟩⟩,
          .ok ⟨.endOfSource, .empty ⟨17, 2, 12⟩⟩], ⟨⟨17, 2, 12⟩, []⟩) := by
  intro row
  have hrow : Legible row :=
    { spelled := by
        simp only [row, List.forall_mem_cons, List.not_mem_nil, false_imp_iff, implies_true,
          and_true]
        refine ⟨.symbol .openBrace, .symbol .percent,
          .integer (by simp) (by simp) (by decide),
          .identifier (by decide +kernel) (by simp), ?_⟩
        have hparts : Text.Quoted.parts ['\\', '\'', '\\', 'q', '\''] =
            [.escape (some '\''), .escape (some 'q')] ++ [.plain '\''] := rfl
        exact .string (by decide) hparts (by decide)
      blank := by
        have hspace : Text.isBlank ' ' = true := by decide
        have hline : Text.isBlank '\n' = true := by decide
        simp [row, hspace, hline]
      between := by decide }
  have htail : ∀ b ∈ [' '], Text.isBlank b = true := List.forall_mem_singleton.mpr (by decide)
  obtain ⟨hread, -⟩ := joined_tokens_read_back row [' '] 0 hrow htail
  have htext : String.ofList (row.flatMap chars ++ [' ']) = "\x7b %\n12 é '\\'\\q' " := by decide
  have hstop : Position.start.advanceBy "\x7b %\n12 é '\\'\\q' ".toList = ⟨17, 2, 12⟩ := by decide
  have hlexemes : lexemes .start row =
      [⟨.symbol .openBrace, ⟨⟨0, 1, 0⟩, ⟨1, 1, 1⟩⟩⟩, ⟨.symbol .percent, ⟨⟨2, 1, 2⟩, ⟨3, 1, 3⟩⟩⟩,
        ⟨.number (.integer 12), ⟨⟨4, 2, 0⟩, ⟨6, 2, 2⟩⟩⟩, ⟨.identifier "é", ⟨⟨7, 2, 3⟩, ⟨9, 2, 4⟩⟩⟩,
        ⟨.string "'\\'\\q'", ⟨⟨10, 2, 5⟩, ⟨16, 2, 11⟩⟩⟩] := by
    decide
  rw [htext, hstop, hlexemes] at hread
  exact ⟨hrow, htail, hread⟩

end TemplateSyntax
