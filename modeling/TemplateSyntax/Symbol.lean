/-!
# Symbols

The operators and punctuation of tags. Where two symbols start alike the longer one is read, so the
symbols of two characters are tried first.
-/
namespace TemplateSyntax

/-- An operator or a mark of punctuation. -/
inductive Symbol where
  | notEqual | endTag | power | atMost | equal | atLeast | beginTag | beginPut | endPut
  | bang | percent | openParen | closeParen | star | plus | comma | minus | dot | slash
  | less | assign | greater | openBrace | bar | closeBrace
  deriving DecidableEq

namespace Symbol

/-- How a symbol is written. -/
def spelling : Symbol → String
  | notEqual => "!="
  | endTag => "%\x7d"
  | power => "**"
  | atMost => "<="
  | equal => "=="
  | atLeast => ">="
  | beginTag => "\x7b%"
  | beginPut => "\x7b\x7b"
  | endPut => "\x7d\x7d"
  | bang => "!"
  | percent => "%"
  | openParen => "("
  | closeParen => ")"
  | star => "*"
  | plus => "+"
  | comma => ","
  | minus => "-"
  | dot => "."
  | slash => "/"
  | less => "<"
  | assign => "="
  | greater => ">"
  | openBrace => "\x7b"
  | bar => "|"
  | closeBrace => "\x7d"

/-- All symbols, the longer ones first. -/
def all : List Symbol :=
  [notEqual, endTag, power, atMost, equal, atLeast, beginTag, beginPut, endPut,
    bang, percent, openParen, closeParen, star, plus, comma, minus, dot, slash,
    less, assign, greater, openBrace, bar, closeBrace]

/-- The symbol written at the start of a text, the longest one if there are two. -/
def match? (cs : List Char) : Option Symbol :=
  all.find? fun s => s.spelling.toList.isPrefixOf cs

/-- The symbol that is written like this. -/
def ofSpelling? (text : String) : Option Symbol :=
  all.find? fun s => s.spelling == text

instance : ToString Symbol := ⟨spelling⟩

theorem mem_all (s : Symbol) : s ∈ all := by cases s <;> decide

theorem spelling_ne_nil (s : Symbol) : s.spelling.toList ≠ [] := by cases s <;> decide

theorem ofSpelling?_spelling (s : Symbol) : ofSpelling? s.spelling = some s := by
  cases s <;> decide

theorem spelling_inj {s t : Symbol} (h : s.spelling = t.spelling) : s = t := by
  have hs := ofSpelling?_spelling s
  rw [h, ofSpelling?_spelling] at hs
  exact (Option.some.inj hs).symm

/-- What `match?` finds is written at the start of the text. -/
theorem spelling_prefix_of_match? {cs : List Char} {s : Symbol} (h : match? cs = some s) :
    s.spelling.toList <+: cs := by
  unfold match? at h
  simpa using List.find?_some h

end Symbol
end TemplateSyntax
