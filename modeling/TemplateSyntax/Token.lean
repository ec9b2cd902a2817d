import TemplateSyntax.Number
import TemplateSyntax.Span
import TemplateSyntax.Symbol

/-!
# Tokens

The words of a template. Inside tags they are symbols, numbers, names and quoted strings; between
tags there is one run of text.
-/
namespace TemplateSyntax

/-- A word of a template. -/
inductive Token where
  | symbol (symbol : Symbol)
  | number (value : Number)
  | identifier (name : String)
  /-- A string literal as it is written, quotes included. -/
  | string (raw : String)
  /-- Text between tags. -/
  | text (run : String)
  | endOfSource
  deriving DecidableEq

namespace Token

/-- Whether this is the symbol that is written like this. -/
def isSymbol (spelling : String) : Token → Bool
  | symbol s => s.spelling == spelling
  | _ => false

/-- Whether this is an identifier of this name. -/
def isIdentifier (name : String) : Token → Bool
  | identifier n => n == name
  | _ => false

/-- Whether this is a symbol or an identifier that is written like one of these. -/
def isAnyOf (spellings : List String) : Token → Bool
  | symbol s => spellings.contains s.spelling
  | identifier n => spellings.contains n
  | _ => false

/-- How messages name a token. -/
def label : Token → String
  | symbol s => s.spelling
  | number n => n.text
  | identifier n => n
  | string _ => "string"
  | text _ => "text"
  | endOfSource => "end of source"

instance : ToString Token := ⟨label⟩

end Token

/-- A token and where it stands. -/
structure Lexeme where
  token : Token
  span : Span
  deriving DecidableEq

end TemplateSyntax
