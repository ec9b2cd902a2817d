import TemplateSyntax.Keyword
import TemplateSyntax.Token

/-!
# Faults

What can be wrong with a template, and where. The wording of each cause is kept in one place:
`reason` sums it up, `help` says what to do about it.
-/
namespace TemplateSyntax

/-- How deep bodies and expressions may nest inside each other. -/
def depthLimit : Nat := 64

/-- What would have been read at a place. -/
inductive Wanted where
  | symbol (symbol : Symbol)
  | keyword (keyword : Keyword)
  | name
  /-- The beginning of an operand. -/
  | operand
  /-- The beginning of a tag or a placeable. -/
  | opening
  deriving DecidableEq

/-- A word set off from the message around it. -/
def quoted (word : String) : String := "`" ++ word ++ "`"

/-- How messages say what is wanted. -/
def Wanted.text : Wanted → String
  | symbol s => "expected " ++ quoted s.spelling
  | keyword k => "expected " ++ quoted k.spelling
  | name => "expected a name"
  | operand => "expected a number, a string, a name, or " ++ quoted Symbol.openParen.spelling
  | opening =>
    "expected " ++ quoted Symbol.beginPut.spelling ++ " or " ++ quoted Symbol.beginTag.spelling

/-- What is wrong. -/
inductive Cause where
  /-- No token begins with the character. -/
  | unexpectedCharacter
  | numberTooLarge
  /-- A backslash before this character, or at the end of the source. -/
  | unknownEscape (escaped : Option Char)
  | unclosedString (quote : Char)
  /-- A level is opened while all levels are open. -/
  | tooDeep
  /-- Another token than the wanted one was found. -/
  | unexpected (wanted : Wanted) (found : Token)
  /-- The source ends in a body that one of these keywords would close. -/
  | unclosedBody (closers : List Keyword)
  /-- Bodies are still open from an earlier fault. -/
  | incomplete
  | unknownTag (name : String)
  /-- A block is closed under another name than this one. -/
  | wrongBlockName (opened : String)
  /-- A template names a second template that it extends. -/
  | secondParent
  deriving DecidableEq

namespace Cause

/-- The kind of fault, in two words. -/
def reason : Cause → String
  | unexpectedCharacter => "unexpected character"
  | numberTooLarge | unknownEscape _ | unclosedString _ | tooDeep | secondParent =>
    "invalid syntax"
  | unexpected _ .endOfSource | unclosedBody _ | incomplete => "unexpected eof"
  | unexpected _ _ | unknownTag _ | wrongBlockName _ => "unexpected token"

/-- What was expected, or what could be done. -/
def help : Cause → String
  | unexpectedCharacter =>
    "expected an operator, an identifier, a number, or a string literal marked with " ++
      quoted "\"" ++ " or " ++ quoted "'"
  | numberTooLarge => "this number is too large to be represented"
  | unknownEscape escaped =>
    "unknown escape sequence " ++ quoted ("\\" ++ String.ofList escaped.toList) ++
      ", expected one of " ++
      ", ".intercalate (["\\n", "\\r", "\\t", "\\\\", "\\\"", "\\'"].map quoted)
  | unclosedString quote =>
    "this might be an undelimited string, try closing it with " ++ quoted (String.ofList [quote])
  | tooDeep => "nested too deeply, the limit is " ++ toString depthLimit ++ " levels"
  | unexpected wanted .endOfSource => wanted.text
  | unexpected wanted found => wanted.text ++ ", found " ++ quoted found.label
  | unclosedBody closers =>
    "expected " ++ " or ".intercalate (closers.map (quoted ·.spelling)) ++
      ", did you close the block?"
  | incomplete => "expected additional tokens, did you close all tags and blocks?"
  | unknownTag name =>
    "expected one of " ++
      ", ".intercalate
        (["if", "for", "set", "macro", "call", "filter", "block", "extends"].map quoted) ++
      ", found " ++ quoted name
  | wrongBlockName opened =>
    "expected " ++ quoted opened ++ " to match the name of the opening block"
  | secondParent => "a template may only extend one other template"

end Cause

/-- A cause and the part of the source that it concerns. -/
structure Fault where
  cause : Cause
  span : Span
  deriving DecidableEq

/-- The fault of a token that stands where another one is wanted. -/
def Fault.unexpected (wanted : Wanted) (found : Lexeme) : Fault :=
  ⟨.unexpected wanted found.token, found.span⟩

end TemplateSyntax
