/-!
# Quoted strings

A string literal stands between two equal quotes. A backslash takes the character behind it along,
so that a quote can stand inside; `scan` finds the end of a literal and `decode` reads its value.
`encode` writes any text as the inside of a literal, and `decode_encode` reads it back.
-/
namespace TemplateSyntax.Text.Quoted

/-- Why a literal has no value. -/
inductive Defect where
  /-- A backslash stands before this character, or at the end of the text. -/
  | unknownEscape (escaped : Option Char)
  /-- The quote that opened the literal does not come again. -/
  | unclosed
  deriving DecidableEq

/-- Characters that open a literal. -/
def isQuote (c : Char) : Bool := c == '"' || c == '\''

/-- The rest of a literal behind its opening quote: through the closing quote, or to the end of
the text if there is none. -/
def scan (quote : Char) : List Char → List Char
  | [] => []
  | '\\' :: [] => ['\\']
  | '\\' :: c :: cs => '\\' :: c :: scan quote cs
  | c :: cs => if c = quote then [c] else c :: scan quote cs

/-- The character that a backslash and this one stand for. -/
def escape? : Char → Option Char
  | 'n' => some '\n'
  | 'r' => some '\r'
  | 't' => some '\t'
  | c => if c = '\\' || isQuote c then some c else none

/-- The value of a literal behind its opening quote. The first defect counts. -/
def decode (quote : Char) : List Char → Except Defect (List Char)
  | [] => .error .unclosed
  | '\\' :: [] => .error (.unknownEscape none)
  | '\\' :: c :: cs =>
    match escape? c with
    | some d => (decode quote cs).map (d :: ·)
    | none => .error (.unknownEscape (some c))
  | c :: cs => if c = quote then .ok [] else (decode quote cs).map (c :: ·)

/-- A text as the inside of a literal: quotes of its kind and backslashes are escaped. -/
def encode (quote : Char) : List Char → List Char
  | [] => []
  | c :: cs => if c = '\\' || c = quote then '\\' :: c :: encode quote cs else c :: encode quote cs

/-- The literal that is found stands at the start of the text. -/
theorem prefix_scan (quote : Char) (cs : List Char) : scan quote cs <+: cs := by
  fun_induction scan quote cs with
  | case1 => exact List.nil_prefix
  | case2 => exact List.prefix_rfl
  | case3 c cs ih => simpa using ih
  | case4 cs => simp
  | case5 c cs _ _ _ ih => simpa using ih

/-- An encoded text is read back, whatever follows its closing quote. -/
theorem decode_encode {quote : Char} (h : isQuote quote) (cs rest : List Char) :
    decode quote (encode quote cs ++ quote :: rest) = .ok cs := by
  have hq : quote ≠ '\\' := by rintro rfl; exact absurd h (by decide)
  have hn : quote ≠ 'n' ∧ quote ≠ 'r' ∧ quote ≠ 't' := by
    refine ⟨?_, ?_, ?_⟩ <;> (rintro rfl; exact absurd h (by decide))
  induction cs with
  | nil => simp [encode, decode, hq]
  | cons c cs ih =>
    by_cases hb : c = '\\'
    · subst hb
      simp [encode, decode, escape?, ih, Except.map]
    · by_cases hc : c = quote
      · subst hc
        simp [encode, decode, escape?, h, hn, ih, Except.map]
      · simp [encode, decode, hb, hc, ih, Except.map]

end TemplateSyntax.Text.Quoted
