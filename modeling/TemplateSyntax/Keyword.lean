/-!
# Keywords

Words that have a meaning of their own in some places. The tokens do not know them: wherever a
keyword may stand, the reader looks up the identifier that it found.
-/
namespace TemplateSyntax

/-- A word with a meaning of its own. -/
inductive Keyword where
  | ifWord | elifWord | elseWord | endIf
  | forWord | inWord | endFor
  | macroWord | endMacro
  | callWord | endCall
  | filterWord | endFilter
  | setWord
  | blockWord | endBlock
  | extendsWord
  | notWord | andWord | orWord
  deriving DecidableEq

namespace Keyword

/-- How a keyword is written. -/
def spelling : Keyword → String
  | ifWord => "if"
  | elifWord => "elif"
  | elseWord => "else"
  | endIf => "endif"
  | forWord => "for"
  | inWord => "in"
  | endFor => "endfor"
  | macroWord => "macro"
  | endMacro => "endmacro"
  | callWord => "call"
  | endCall => "endcall"
  | filterWord => "filter"
  | endFilter => "endfilter"
  | setWord => "set"
  | blockWord => "block"
  | endBlock => "endblock"
  | extendsWord => "extends"
  | notWord => "not"
  | andWord => "and"
  | orWord => "or"

def all : List Keyword :=
  [ifWord, elifWord, elseWord, endIf, forWord, inWord, endFor, macroWord, endMacro, callWord,
    endCall, filterWord, endFilter, setWord, blockWord, endBlock, extendsWord, notWord, andWord,
    orWord]

/-- The keyword that an identifier spells. Case matters. -/
def ofSpelling? (name : String) : Option Keyword :=
  all.find? fun k => k.spelling == name

instance : ToString Keyword := ⟨spelling⟩

theorem mem_all (k : Keyword) : k ∈ all := by cases k <;> decide

theorem ofSpelling?_spelling (k : Keyword) : ofSpelling? k.spelling = some k := by
  cases k <;> decide

theorem ofSpelling?_eq_some_iff {name : String} {k : Keyword} :
    ofSpelling? name = some k ↔ name = k.spelling := by
  constructor
  · intro h
    unfold ofSpelling? at h
    have := List.find?_some h
    simp only [beq_iff_eq] at this
    exact this.symm
  · rintro rfl
    exact ofSpelling?_spelling k

theorem spelling_inj {j k : Keyword} (h : j.spelling = k.spelling) : j = k := by
  have hj := ofSpelling?_spelling j
  rw [h, ofSpelling?_spelling] at hj
  exact (Option.some.inj hj).symm

end Keyword
end TemplateSyntax
