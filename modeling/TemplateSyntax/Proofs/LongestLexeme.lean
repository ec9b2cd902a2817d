import TemplateSyntax.Proofs.StringLiterals

/-!
# The longest lexeme

A lexeme is what one token is written with: a symbol, a name, a number, or a string where strings
are read. The lexer skips the blanks that stand next and takes the longest lexeme behind them. It
looks at one character to choose a class of lexemes, which hides no lexeme of another class, and
within each class it takes as much as it can. Only where no lexeme stands the character is
unexpected.
-/
namespace TemplateSyntax

namespace Text.Quoted
variable {quote : Char} {inside behind : List Char}

/-- The rest of a literal behind its opening quote, and what stands behind the literal. It ends with
the first quote of its kind that is not escaped, and with the text if there is none. -/
inductive Covers (quote : Char) : (inside behind : List Char) → Prop
  | closed {inside : List Char} {body : List Part} (hparts : parts inside = body ++ [.plain quote])
    (hfree : .plain quote ∉ body) (behind : List Char) : Covers quote inside behind
  | unclosed {inside : List Char} (hfree : .plain quote ∉ parts inside) : Covers quote inside []

namespace Covers

theorem escape (h : Covers quote inside behind) (c : Char) :
    Covers quote ('\\' :: c :: inside) behind := by
  cases h with
  | @closed body hparts hfree =>
    have hescape : parts ('\\' :: c :: inside) = (.escape (some c) :: body) ++ [.plain quote] := by
      rw [parts, hparts]
      rfl
    exact .closed hescape (by simpa using hfree) _
  | unclosed hfree => exact .unclosed (by simpa [parts] using hfree)

theorem plain (h : Covers quote inside behind) {c : Char} (hb : c ≠ '\\') (hc : c ≠ quote) :
    Covers quote (c :: inside) behind := by
  cases h with
  | @closed body hparts hfree =>
    have hplain : parts (c :: inside) = (.plain c :: body) ++ [.plain quote] := by
      rw [parts_cons hb, hparts]
      rfl
    exact .closed hplain (by simpa [Ne.symm hc] using hfree) _
  | unclosed hfree => exact .unclosed (by simpa [parts_cons hb, Ne.symm hc] using hfree)

/-- The lexer finds the end of a literal. -/
theorem scan_eq (h : Covers quote inside behind) : scan quote (inside ++ behind) = inside := by
  cases h with
  | closed hparts hfree => exact scan_append_of_closed hparts hfree behind
  | unclosed hfree =>
    rw [List.append_nil]
    fun_induction parts inside with
    | case1 => rfl
    | case2 => rfl
    | case3 c cs ih =>
      rw [scan, ih (by simpa using hfree)]
    | case4 c cs hlast hmore ih =>
      have hb := ne_backslash hlast hmore
      simp only [List.mem_cons, Part.plain.injEq, not_or] at hfree
      simp [scan, Ne.symm hfree.1, ih hfree.2]

end Covers

theorem exists_covers_scan (quote : Char) (cs : List Char) :
    ∃ behind, cs = scan quote cs ++ behind ∧ Covers quote (scan quote cs) behind := by
  fun_induction scan quote cs with
  | case1 => exact ⟨[], rfl, .unclosed (by simp [parts])⟩
  | case2 => exact ⟨[], rfl, .unclosed (by simp [parts])⟩
  | case3 c cs ih =>
    obtain ⟨behind, hcs, h⟩ := ih
    exact ⟨behind, by rw [List.cons_append, List.cons_append, ← hcs], h.escape c⟩
  | case4 cs hlast hmore =>
    have hparts : parts [quote] = [] ++ [.plain quote] :=
      parts_cons (ne_backslash hlast hmore) []
    exact ⟨cs, rfl, .closed hparts (by simp) cs⟩
  | case5 c cs hlast hmore hc ih =>
    obtain ⟨behind, hcs, h⟩ := ih
    exact ⟨behind, by rw [List.cons_append, ← hcs], h.plain (ne_backslash hlast hmore) hc⟩

end Text.Quoted

/-- What a number literal is read as. -/
def Number.reading : Option Number → Except Cause Token
  | some n => .ok (.number n)
  | none => .error .numberTooLarge

/-- Characters that are one lexeme where certain others stand behind them, and what they are read
as. Only an unclosed string depends on what stands behind. -/
inductive IsLexeme (quotes : Bool) : (taken behind : List Char) → Except Cause Token → Prop
  | symbol (s : Symbol) (behind : List Char) :
    IsLexeme quotes s.spelling.toList behind (.ok (.symbol s))
  | identifier {c : Char} {cs : List Char} (hc : Text.startsIdentifier c = true)
    (hcs : ∀ d ∈ cs, Text.continuesIdentifier d = true) (behind : List Char) :
    IsLexeme quotes (c :: cs) behind (.ok (.identifier (String.ofList (c :: cs))))
  | integer {ds : List Char} (hne : ds ≠ []) (hd : ∀ d ∈ ds, d.isDigit = true)
    (behind : List Char) : IsLexeme quotes ds behind (Number.reading (Number.ofLiteral? ds none))
  | decimal {ds fs : List Char} (hne : ds ≠ []) (hd : ∀ d ∈ ds, d.isDigit = true)
    (hf : ∀ d ∈ fs, d.isDigit = true) (behind : List Char) :
    IsLexeme quotes (ds ++ '.' :: fs) behind (Number.reading (Number.ofLiteral? ds (some fs)))
  | string {quote : Char} {inside behind : List Char} (hquotes : quotes = true)
    (hq : Text.Quoted.isQuote quote = true) (h : Text.Quoted.Covers quote inside behind) :
    IsLexeme quotes (quote :: inside) behind (.ok (.string (String.ofList (quote :: inside))))

theorem IsLexeme.ne_nil {quotes : Bool} {taken behind : List Char} {result : Except Cause Token}
    (h : IsLexeme quotes taken behind result) : taken ≠ [] := by
  cases h with
  | symbol s => exact s.spelling_ne_nil
  | integer hne => exact hne
  | identifier | decimal | string => simp

/-- A lexeme at the start of a text, than which no lexeme there is longer. -/
structure IsLongestLexeme (quotes : Bool) (cs taken behind : List Char)
    (result : Except Cause Token) : Prop where
  cs_eq : cs = taken ++ behind
  isLexeme : IsLexeme quotes taken behind result
  length_le : ∀ taken' behind' result', cs = taken' ++ behind' →
    IsLexeme quotes taken' behind' result' → taken'.length ≤ taken.length

namespace Symbol

/-- Where a symbol is written a symbol is found, and none that is longer is written there. -/
theorem exists_match?_append (s : Symbol) (behind : List Char) :
    ∃ t, match? (s.spelling.toList ++ behind) = some t ∧
      s.spelling.toList.length ≤ t.spelling.toList.length := by
  have hsome : (match? (s.spelling.toList ++ behind)).isSome = true :=
    List.find?_isSome.mpr ⟨s, s.mem_all, by simp⟩
  obtain ⟨t, ht⟩ := Option.isSome_iff_exists.mp hsome
  refine ⟨t, ht, ?_⟩
  by_cases htwo : s.spelling.toList.length = 2
  · -- The first two characters decide.
    have hself : match? s.spelling.toList = some s := by cases s <;> decide
    rw [← match?_take, List.take_left' htwo, hself] at ht
    cases ht
    exact le_rfl
  · have hs := s.length_spelling_le
    have ht := List.length_pos_iff.mpr t.spelling_ne_nil
    omega

end Symbol

namespace Piece
variable {quotes : Bool} {behind : List Char}

/-- The piece takes at least the characters of a lexeme, and if it takes no more then they are read
as the lexeme is. -/
structure AtLeast (p : Piece) (taken : List Char) (result : Except Cause Token) : Prop where
  length_le : taken.length ≤ p.taken.length
  token_eq : p.taken = taken → p.token = result
  expected : p.token ≠ .error .unexpectedCharacter

theorem atLeast_symbol (s : Symbol) :
    (first quotes (s.spelling.toList ++ behind)).AtLeast s.spelling.toList (.ok (.symbol s)) := by
  obtain ⟨t, ht, hle⟩ := s.exists_match?_append behind
  have hprefix := Symbol.spelling_prefix_of_match? ht
  obtain ⟨v, hv⟩ := hprefix
  rw [← hv] at ht ⊢
  rw [first_of_match? ht]
  constructor
  case length_le => exact hle
  case token_eq =>
    intro h
    rw [Symbol.spelling_inj (String.toList_injective h)]
  case expected => simp

theorem atLeast_identifier {c : Char} {cs : List Char} (hc : Text.startsIdentifier c = true)
    (hcs : ∀ d ∈ cs, Text.continuesIdentifier d = true) :
    (first quotes (c :: cs ++ behind)).AtLeast (c :: cs)
      (.ok (.identifier (String.ofList (c :: cs)))) := by
  rw [List.cons_append, first_of_startsIdentifier hc, identifier,
    List.takeWhile_append_of_pos hcs]
  constructor
  case length_le => simp
  case token_eq =>
    intro h
    dsimp only at h ⊢
    rw [h]
  case expected => simp

/-- A number literal is digits and what stands behind the point, or digits alone if no point follows
them. -/
theorem number_cases (cs : List Char) :
    (∃ rest, cs.dropWhile Char.isDigit = '.' :: rest ∧
      number cs = ⟨cs.takeWhile Char.isDigit ++ '.' :: rest.takeWhile Char.isDigit,
        Number.reading (Number.ofLiteral? (cs.takeWhile Char.isDigit)
          (some (rest.takeWhile Char.isDigit)))⟩) ∨
    ((∀ rest, cs.dropWhile Char.isDigit ≠ '.' :: rest) ∧
      number cs = ⟨cs.takeWhile Char.isDigit,
        Number.reading (Number.ofLiteral? (cs.takeWhile Char.isDigit) none)⟩) := by
  unfold number
  split
  · next rest hrest =>
    refine .inl ⟨rest, hrest, ?_⟩
    dsimp only
    split <;> (next hvalue => rw [hvalue]; rfl)
  · next hpoint =>
    refine .inr ⟨hpoint, ?_⟩
    dsimp only
    split <;> (next hvalue => rw [hvalue]; rfl)

theorem token_number_ne (cs : List Char) : (number cs).token ≠ .error .unexpectedCharacter := by
  rcases token_number cs with ⟨n, hn⟩ | hn <;> simp [hn]

theorem atLeast_integer {ds : List Char} (hne : ds ≠ []) (hd : ∀ d ∈ ds, d.isDigit = true) :
    (first quotes (ds ++ behind)).AtLeast ds (Number.reading (Number.ofLiteral? ds none)) := by
  obtain ⟨d, ds, rfl⟩ := List.exists_cons_of_ne_nil hne
  have hfirst : first quotes (d :: ds ++ behind) = number (d :: ds ++ behind) :=
    first_of_isDigit (hd d (by simp)) _
  have hwhole : (d :: ds ++ behind).takeWhile Char.isDigit =
      d :: ds ++ behind.takeWhile Char.isDigit := List.takeWhile_append_of_pos hd
  have hexpected := token_number_ne (d :: ds ++ behind)
  rw [hfirst]
  rcases number_cases (d :: ds ++ behind) with ⟨rest, -, hnumber⟩ | ⟨-, hnumber⟩
  · -- The point is taken too.
    rw [hwhole] at hnumber
    refine ⟨?_, fun h => ?_, hexpected⟩
    · rw [hnumber, List.append_assoc, List.length_append]
      exact Nat.le_add_right _ _
    · rw [hnumber] at h
      have hlength := congrArg List.length h
      simp at hlength
  · rw [hwhole] at hnumber
    refine ⟨?_, fun h => ?_, hexpected⟩
    · rw [hnumber, List.length_append]
      exact Nat.le_add_right _ _
    · rw [hnumber] at h ⊢
      exact congrArg (fun whole => Number.reading (Number.ofLiteral? whole none)) h

theorem atLeast_decimal {ds fs : List Char} (hne : ds ≠ []) (hd : ∀ d ∈ ds, d.isDigit = true)
    (hf : ∀ d ∈ fs, d.isDigit = true) :
    (first quotes (ds ++ '.' :: fs ++ behind)).AtLeast (ds ++ '.' :: fs)
      (Number.reading (Number.ofLiteral? ds (some fs))) := by
  obtain ⟨d, ds, rfl⟩ := List.exists_cons_of_ne_nil hne
  have hcs : d :: ds ++ '.' :: fs ++ behind = d :: ds ++ '.' :: (fs ++ behind) := by simp
  have hfirst : first quotes (d :: ds ++ '.' :: (fs ++ behind)) =
      number (d :: ds ++ '.' :: (fs ++ behind)) := first_of_isDigit (hd d (by simp)) _
  have hpoint : ∀ c ∈ ('.' :: (fs ++ behind)).head?, c.isDigit = false := by
    rintro c ⟨⟩
    rfl
  have hwhole : (d :: ds ++ '.' :: (fs ++ behind)).takeWhile Char.isDigit = d :: ds := by
    rw [List.takeWhile_append_of_pos hd, Text.takeWhile_of_head hpoint, List.append_nil]
  have hdrop : (d :: ds ++ '.' :: (fs ++ behind)).dropWhile Char.isDigit =
      '.' :: (fs ++ behind) := by
    rw [List.dropWhile_append_of_pos hd, Text.dropWhile_of_head hpoint]
  have hfraction : (fs ++ behind).takeWhile Char.isDigit =
      fs ++ behind.takeWhile Char.isDigit := List.takeWhile_append_of_pos hf
  have hexpected := token_number_ne (d :: ds ++ '.' :: (fs ++ behind))
  rw [hcs, hfirst]
  rcases number_cases (d :: ds ++ '.' :: (fs ++ behind)) with ⟨rest, hrest, hnumber⟩ | ⟨hnone, -⟩
  · rw [hdrop] at hrest
    cases hrest
    rw [hwhole, hfraction] at hnumber
    refine ⟨?_, fun h => ?_, hexpected⟩
    · rw [hnumber]
      simp
    · rw [hnumber] at h ⊢
      have hself : fs ++ behind.takeWhile Char.isDigit = fs :=
        (List.cons.inj (List.append_cancel_left h)).2
      exact congrArg (fun fraction => Number.reading (Number.ofLiteral? _ (some fraction))) hself
  · exact absurd hdrop (hnone _)

theorem atLeast_string {quote : Char} {inside : List Char} (hq : Text.Quoted.isQuote quote = true)
    (h : Text.Quoted.Covers quote inside behind) :
    (first true (quote :: inside ++ behind)).AtLeast (quote :: inside)
      (.ok (.string (String.ofList (quote :: inside)))) := by
  have hfirst : first true (quote :: inside ++ behind) =
      ⟨quote :: inside, .ok (.string (String.ofList (quote :: inside)))⟩ := by
    simp only [List.cons_append, first, hq, Bool.and_self, if_true, string, h.scan_eq]
  rw [hfirst]
  exact ⟨le_rfl, fun _ => rfl, by simp⟩

/-- No lexeme at the start of a text is hidden or cut short. -/
theorem atLeast_of_isLexeme {taken : List Char} {result : Except Cause Token}
    (h : IsLexeme quotes taken behind result) :
    (first quotes (taken ++ behind)).AtLeast taken result := by
  cases h with
  | symbol s => exact atLeast_symbol s
  | identifier hc hcs => exact atLeast_identifier hc hcs
  | integer hne hd => exact atLeast_integer hne hd
  | decimal hne hd hf => exact atLeast_decimal hne hd hf
  | string hquotes hq h =>
    subst hquotes
    exact atLeast_string hq h

theorem isLexeme_number {d : Char} (hd : d.isDigit = true) (cs : List Char) :
    IsLexeme quotes (number (d :: cs)).taken behind (number (d :: cs)).token := by
  have hne : (d :: cs).takeWhile Char.isDigit ≠ [] := by simp [hd]
  have hdigits : ∀ e ∈ (d :: cs).takeWhile Char.isDigit, e.isDigit = true := fun _ he =>
    List.mem_takeWhile_imp he
  rcases number_cases (d :: cs) with ⟨rest, -, hnumber⟩ | ⟨-, hnumber⟩
  · rw [hnumber]
    exact .decimal hne hdigits (fun _ he => List.mem_takeWhile_imp he) _
  · rw [hnumber]
    exact .integer hne hdigits _

/-- What is read is a lexeme, unless it is an unexpected character. -/
theorem isLexeme_first {cs : List Char} (hcs : cs ≠ [])
    (h : (first quotes cs).token ≠ .error .unexpectedCharacter) :
    ∃ behind, cs = (first quotes cs).taken ++ behind ∧
      IsLexeme quotes (first quotes cs).taken behind (first quotes cs).token := by
  obtain ⟨behind, hbehind⟩ := prefix_first quotes cs
  refine ⟨behind, hbehind.symm, ?_⟩
  obtain ⟨c, cs, rfl⟩ := List.exists_cons_of_ne_nil hcs
  simp only [first] at h hbehind ⊢
  split
  · next hq =>
    rw [if_pos hq] at hbehind
    simp only [Bool.and_eq_true] at hq
    obtain ⟨behind', hscan, hcovers⟩ := Text.Quoted.exists_covers_scan c cs
    have hsame : Text.Quoted.scan c cs ++ behind = Text.Quoted.scan c cs ++ behind' :=
      (List.cons.inj hbehind).2.trans hscan
    obtain rfl := List.append_cancel_left hsame
    exact .string hq.1 hq.2 hcovers
  · next hq =>
    rw [if_neg hq] at h
    split
    · next hd => exact isLexeme_number hd cs
    · next hd =>
      rw [if_neg hd] at h
      split
      · next hi => exact .identifier hi (fun _ he => List.mem_takeWhile_imp he) _
      · next hi =>
        rw [if_neg hi] at h
        cases hs : Symbol.match? (c :: cs) with
        | none => simp [hs] at h
        | some s => exact .symbol s _

/-- What is read at the start of a text is the longest lexeme there. -/
theorem isLongestLexeme_first {cs : List Char} (hcs : cs ≠ [])
    (h : (first quotes cs).token ≠ .error .unexpectedCharacter) :
    ∃ behind, IsLongestLexeme quotes cs (first quotes cs).taken behind (first quotes cs).token := by
  obtain ⟨behind, hbehind, hlexeme⟩ := isLexeme_first hcs h
  refine ⟨behind, hbehind, hlexeme, ?_⟩
  rintro taken' behind' result' rfl hlexeme'
  exact (atLeast_of_isLexeme hlexeme').length_le

/-- The character is unexpected exactly where no lexeme stands. -/
theorem token_first_eq_unexpectedCharacter_iff {cs : List Char} (hcs : cs ≠ []) :
    (first quotes cs).token = .error .unexpectedCharacter ↔
      ¬ ∃ taken behind result, cs = taken ++ behind ∧ IsLexeme quotes taken behind result := by
  constructor
  · rintro h ⟨taken, behind, result, rfl, hlexeme⟩
    exact (atLeast_of_isLexeme hlexeme).expected h
  · intro hnone
    by_contra h
    obtain ⟨behind, hbehind, hlexeme⟩ := isLexeme_first hcs h
    exact hnone ⟨_, behind, _, hbehind, hlexeme⟩

/-- There is one longest lexeme. -/
theorem first_of_isLongestLexeme {cs taken : List Char} {result : Except Cause Token}
    (h : IsLongestLexeme quotes cs taken behind result) : first quotes cs = ⟨taken, result⟩ := by
  obtain ⟨rfl, hlexeme, hlongest⟩ := h
  have hleast := atLeast_of_isLexeme hlexeme
  have hcs : taken ++ behind ≠ [] := List.append_ne_nil_of_left_ne_nil hlexeme.ne_nil _
  obtain ⟨behind', hbehind, hfound⟩ := isLexeme_first hcs hleast.expected
  have hlength := Nat.le_antisymm hleast.length_le (hlongest _ _ _ hbehind hfound)
  have htaken : (first quotes (taken ++ behind)).taken = taken :=
    (List.append_inj_left hbehind hlength).symm
  calc first quotes (taken ++ behind)
      = ⟨(first quotes (taken ++ behind)).taken, (first quotes (taken ++ behind)).token⟩ := rfl
    _ = ⟨taken, result⟩ := by rw [htaken, hleast.token_eq htaken]

end Piece

namespace Cursor
variable {quotes : Bool} {c : Cursor} {blanks rest : List Char}

/-- A token or a fault at a span. -/
def outcome (span : Span) : Except Cause Token → Except Fault Lexeme
  | .ok token => .ok ⟨token, span⟩
  | .error cause => .error ⟨cause, span⟩

theorem next_eq_outcome (quotes : Bool) (c : Cursor) :
    c.next quotes =
      (outcome (c.nextSpan quotes) (c.nextPiece quotes).token, c.behindNext quotes) := by
  rw [next_eq]
  split <;> (next h => rw [h]; rfl)

/-- All blanks that stand next are skipped, and nothing else. -/
theorem skipBlanks_eq (hrest : c.rest = blanks ++ rest)
    (hblanks : ∀ b ∈ blanks, Text.isBlank b = true)
    (hstart : ∀ b, rest.head? = some b → Text.isBlank b = false) :
    c.skipBlanks = ⟨c.position.advanceBy blanks, rest⟩ := by
  rw [skipBlanks_of_rest hrest hblanks (Text.takeWhile_of_head hstart), past_of_rest hrest]

end Cursor

open Cursor in
/-- The lexer takes the longest lexeme, wherever it stands in a text. It skips the blanks that stand
next, all of them. Behind them is the end of the source, or the longest lexeme, which is read as
the token of its class over exactly its characters, or as a fault there if it is too large a number;
where no lexeme stands a character is unexpected. Each token that is read from a text is read from
the text at its span alone, through its end. -/
theorem next_takes_longest_lexeme (text : String) (quotes : Bool) (c : Cursor)
    (blanks rest : List Char) (hc : (ofText text).Reaches c) (hrest : c.rest = blanks ++ rest)
    (hblanks : ∀ b ∈ blanks, Text.isBlank b = true)
    (hstart : ∀ b, rest.head? = some b → Text.isBlank b = false) :
    let start := c.position.advanceBy blanks
    (rest = [] → c.next quotes = (.ok ⟨.endOfSource, .empty start⟩, ⟨start, []⟩)) ∧
    (rest ≠ [] →
      ((∃ span, (c.next quotes).1 = .error ⟨.unexpectedCharacter, span⟩) ↔
        ¬ ∃ taken behind result, rest = taken ++ behind ∧ IsLexeme quotes taken behind result) ∧
      ((∃ taken behind result, rest = taken ++ behind ∧ IsLexeme quotes taken behind result) →
        ∃ taken behind result, IsLongestLexeme quotes rest taken behind result) ∧
      ∀ taken behind result, IsLongestLexeme quotes rest taken behind result →
        let span : Span := ⟨start, start.advanceBy taken⟩
        c.next quotes = (outcome span result, ⟨span.stop, behind⟩)) ∧
    ∀ l d, c.next quotes = (.ok l, d) → ∃ lexeme, l.span.slice? text = some lexeme ∧
      let stop := Position.start.advanceBy lexeme.toList
      (ofText lexeme).next quotes = (.ok ⟨l.token, ⟨.start, stop⟩⟩, ⟨stop, []⟩) := by
  intro start
  have hskip : c.skipBlanks = ⟨start, rest⟩ := skipBlanks_eq hrest hblanks hstart
  have hpiece : c.nextPiece quotes = Piece.first quotes rest := by rw [nextPiece, hskip]
  refine ⟨?_, ?_, ?_⟩
  · rintro rfl
    rw [next_eq_outcome, nextSpan, behindNext, hpiece, hskip]
    rfl
  · intro hne
    refine ⟨?_, ?_, ?_⟩
    · rw [← Piece.token_first_eq_unexpectedCharacter_iff hne, next_eq_outcome, hpiece]
      cases (Piece.first quotes rest).token <;> simp [outcome]
    · intro hexists
      have hexpected := mt (Piece.token_first_eq_unexpectedCharacter_iff hne).mp
        (not_not_intro hexists)
      obtain ⟨behind, hlongest⟩ := Piece.isLongestLexeme_first hne hexpected
      exact ⟨_, behind, _, hlongest⟩
    · intro taken behind result hlongest span
      have hfirst := Piece.first_of_isLongestLexeme hlongest
      rw [next_eq_outcome, nextSpan, behindNext, hpiece, hskip, hfirst]
      simp [past, span, hlongest.cs_eq]
  · intro l d hnext
    obtain ⟨htoken, hspan, -⟩ := next_eq_ok hnext
    refine ⟨_, hspan ▸ hc.slice?_nextSpan quotes, ?_⟩
    rw [String.toList_ofList]
    refine next_ofText ?_
    rw [c.first_taken_nextPiece, ← htoken]

/-- Of three closing braces behind a blank two are one lexeme, and none that is there is longer. -/
theorem next_takes_longest_lexeme_braces :
    let braces := ['\x7d', '\x7d', '\x7d']
    let c : Cursor := ⟨⟨1, 1, 1⟩, ' ' :: braces⟩
    let token : Token := .symbol .endPut
    (Cursor.ofText "a \x7d\x7d\x7d").Reaches c ∧ (∀ b ∈ [' '], Text.isBlank b = true) ∧
      (∀ b, braces.head? = some b → Text.isBlank b = false) ∧
      IsLongestLexeme false braces ['\x7d', '\x7d'] ['\x7d'] (.ok token) ∧
      c.next false = (.ok ⟨token, ⟨⟨2, 1, 2⟩, ⟨4, 1, 4⟩⟩⟩, ⟨⟨4, 1, 4⟩, ['\x7d']⟩) ∧
      (Cursor.ofText "\x7d\x7d").next false =
        (.ok ⟨token, ⟨.start, ⟨2, 1, 2⟩⟩⟩, ⟨⟨2, 1, 2⟩, []⟩) := by
  intro braces c token
  have hc : (Cursor.ofText "a \x7d\x7d\x7d").Reaches c := ⟨['a'], rfl, rfl⟩
  have hblanks : ∀ b ∈ [' '], Text.isBlank b = true := List.forall_mem_singleton.mpr (by decide)
  have hstart : ∀ b, braces.head? = some b → Text.isBlank b = false := by
    rintro b ⟨⟩
    decide
  obtain ⟨-, hfound, halone⟩ :=
    next_takes_longest_lexeme _ false c [' '] braces hc rfl hblanks hstart
  obtain ⟨-, hexists, hread⟩ := hfound (by simp [braces])
  have hnext : c.next false =
      (.ok ⟨token, ⟨⟨2, 1, 2⟩, ⟨4, 1, 4⟩⟩⟩, ⟨⟨4, 1, 4⟩, ['\x7d']⟩) := by decide
  obtain ⟨taken, behind, result, hlongest⟩ := hexists ⟨_, ['\x7d'], _, rfl, .symbol .endPut _⟩
  obtain ⟨lexeme, hslice, hlexeme⟩ := halone _ _ hnext
  have hsame := (hread _ _ _ hlongest).symm.trans hnext
  obtain ⟨houtcome, hbehind⟩ := Prod.mk.inj hsame
  obtain rfl : behind = ['\x7d'] := congrArg Cursor.rest hbehind
  obtain rfl : taken = ['\x7d', '\x7d'] := by
    have hcs : ['\x7d', '\x7d'] ++ ['\x7d'] = taken ++ ['\x7d'] := hlongest.cs_eq
    exact (List.append_cancel_right hcs).symm
  obtain rfl : result = .ok token := by
    cases result with
    | error cause => cases houtcome
    | ok t =>
      cases houtcome
      rfl
  obtain rfl : lexeme = "\x7d\x7d" := by
    have hslice' : (⟨⟨2, 1, 2⟩, ⟨4, 1, 4⟩⟩ : Span).slice? "a \x7d\x7d\x7d" = some "\x7d\x7d" := by
      decide
    exact Option.some.inj (hslice.symm.trans hslice')
  exact ⟨hc, hblanks, hstart, hlongest, hnext, hlexeme⟩

end TemplateSyntax
