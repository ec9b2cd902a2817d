import TemplateSyntax.Expression.Reading
import TemplateSyntax.Proofs.Cursor

/-!
# The grammar of templates

A phrase of the language reaches from one cursor to another. Inside tags and placeables its
terminals are the tokens that the cursor reads, so blanks may stand between any two of them; between
tags there is text. Each phrase has a number of levels that it may open: for parentheses, arguments,
the operand of a sign, the right side of an operator, and bodies. `IsTemplate` is the language of
whole templates.
-/
namespace TemplateSyntax

/-- The rest of a string literal behind its opening quote. The quote comes again at the end, and
every backslash stands before one of six characters. -/
inductive Text.Quoted.Closes (quote : Char) : List Char → Prop
  | close : Closes quote [quote]
  | plain {c : Char} {cs : List Char} (hb : c ≠ '\\') (hq : c ≠ quote) (h : Closes quote cs) :
    Closes quote (c :: cs)
  | escape {c : Char} {cs : List Char} (hc : c ∈ ['n', 'r', 't', '\\', '"', '\''])
    (h : Closes quote cs) : Closes quote ('\\' :: c :: cs)

/-- A string literal that has a value. -/
def Text.Quoted.IsLiteral (raw : String) : Prop :=
  ∃ quote inside, raw.toList = quote :: inside ∧ Closes quote inside

/-- The tokens of an operator that stands between two operands: a symbol, or one of two words. -/
inductive Operator.WrittenAs : Operator → Token → Prop
  | symbol {op : Operator} {s : Symbol} (h : s.spelling = op.spelling) : WrittenAs op (.symbol s)
  | word {op : Operator} (h : op = .and ∨ op = .or) : WrittenAs op (.identifier op.spelling)

namespace Cursor

/-- The next token is this one, and the other cursor stands behind it. -/
def Reads (c : Cursor) (token : Token) (d : Cursor) : Prop :=
  ∃ span, c.next true = (.ok ⟨token, span⟩, d)

/-- The next token is this symbol. -/
def ReadsSymbol (c : Cursor) (s : Symbol) (d : Cursor) : Prop := c.Reads (.symbol s) d

/-- The next token spells this keyword. -/
def ReadsWord (c : Cursor) (k : Keyword) (d : Cursor) : Prop := c.Reads (.identifier k.spelling) d

/-- The next token is a name, which any identifier is. -/
def ReadsName (c d : Cursor) : Prop := ∃ name, c.Reads (.identifier name) d

/-- The symbol stands right here, without blanks before it. -/
def Opens (c : Cursor) (s : Symbol) (d : Cursor) : Prop :=
  s.spelling.toList <+: c.rest ∧ c.ReadsSymbol s d

end Cursor

/-- Nothing, or what the relation says. -/
def Optionally (G : Cursor → Cursor → Prop) (c d : Cursor) : Prop := d = c ∨ G c d

/-- Items behind a parenthesis, through the one that closes it. They are separated by commas, and
the last one may have a comma behind it too. -/
inductive Items (item : Cursor → Cursor → Prop) : Cursor → Cursor → Prop
  | close {c d : Cursor} (h : c.ReadsSymbol .closeParen d) : Items item c d
  | last {c d e : Cursor} (hi : item c d) (h : d.ReadsSymbol .closeParen e) : Items item c e
  | more {c d e f : Cursor} (hi : item c d) (hc : d.ReadsSymbol .comma e)
    (h : Items item e f) : Items item c f

/-- The phrases that expressions are made of. -/
inductive Phrase where
  /-- A number, a string, a name, or an expression in parentheses. -/
  | primary
  /-- A primary with properties and calls behind it. -/
  | term
  /-- A term with signs before it. -/
  | operand
  /-- Operands joined by operators and, if bars are allowed, filters. The right sides of the given
  operators are still open at the end, the innermost first. -/
  | operation (bars : Bool) (pending : List Binding)
  /-- Arguments behind their opening parenthesis. -/
  | arguments

namespace Phrase

/-- The operators that are open behind a new one. Those that bind tighter are done, and equally
tight ones too if they group from the left. -/
def push (b : Binding) (pending : List Binding) : List Binding :=
  b :: pending.dropWhile fun o => b.power < o.rightMinimum

/-- The phrase reaches from one cursor to the other, and opens at most the given number of
levels. -/
inductive Derives : Phrase → (levels : Nat) → Cursor → Cursor → Prop
  | number {n : Nat} {c d : Cursor} {value : Number} (h : c.Reads (.number value) d) :
    Derives .primary n c d
  | string {n : Nat} {c d : Cursor} {raw : String} (h : c.Reads (.string raw) d)
    (hl : Text.Quoted.IsLiteral raw) : Derives .primary n c d
  | name {n : Nat} {c d : Cursor} (h : c.ReadsName d) : Derives .primary n c d
  | parens {n : Nat} {c d e f : Cursor} {pending : List Binding}
    (ho : c.ReadsSymbol .openParen d) (h : Derives (.operation true pending) n d e)
    (hc : e.ReadsSymbol .closeParen f) : Derives .primary (n + 1) c f
  | primary {n : Nat} {c d : Cursor} (h : Derives .primary n c d) : Derives .term n c d
  | member {n : Nat} {c d e f : Cursor} (h : Derives .term n c d) (hd : d.ReadsSymbol .dot e)
    (hn : e.ReadsName f) : Derives .term n c f
  | call {n : Nat} {c d e f : Cursor} (h : Derives .term (n + 1) c d)
    (ho : d.ReadsSymbol .openParen e) (ha : Derives .arguments n e f) : Derives .term (n + 1) c f
  | term {n : Nat} {c d : Cursor} (hn : ∀ e, ¬ c.ReadsWord .notWord e)
    (h : Derives .term n c d) : Derives .operand n c d
  | sign {n : Nat} {c d e : Cursor} (hs : c.ReadsSymbol .minus d ∨ c.ReadsWord .notWord d)
    (h : Derives .operand n d e) : Derives .operand (n + 1) c e
  | operand {n : Nat} {c d : Cursor} {bars : Bool} (h : Derives .operand n c d) :
    Derives (.operation bars []) n c d
  | binary {n : Nat} {c d e f : Cursor} {bars : Bool} {pending : List Binding} {token : Token}
    {op : Operator} {b : Binding} (hl : Derives (.operation bars pending)
      (n + (push b pending).length) c d) (ht : d.Reads token e) (hop : op.WrittenAs token)
    (hb : op.binding? = some b) (hr : Derives .operand n e f) :
    Derives (.operation bars (push b pending)) (n + (push b pending).length) c f
  | filter {n : Nat} {c d e f : Cursor} {pending : List Binding}
    (hl : Derives (.operation true pending) n c d) (hb : d.ReadsSymbol .bar e)
    (ht : Derives .term n e f) : Derives (.operation true []) n c f
  | noArgument {n : Nat} {c d : Cursor} (h : c.ReadsSymbol .closeParen d) :
    Derives .arguments n c d
  | lastArgument {n : Nat} {c d e : Cursor} {pending : List Binding}
    (ha : Derives (.operation true pending) n c d) (h : d.ReadsSymbol .closeParen e) :
    Derives .arguments n c e
  | argument {n : Nat} {c d e f : Cursor} {pending : List Binding}
    (ha : Derives (.operation true pending) n c d) (hc : d.ReadsSymbol .comma e)
    (h : Derives .arguments n e f) : Derives .arguments n c f

end Phrase

/-- An expression. -/
def Expression.Spans (n : Nat) (c d : Cursor) : Prop :=
  ∃ pending, Phrase.Derives (.operation true pending) n c d

/-- Arguments in parentheses. -/
def Expression.SpansArguments (n : Nat) (c d : Cursor) : Prop :=
  ∃ m e, n = m + 1 ∧ c.ReadsSymbol .openParen e ∧ Phrase.Derives .arguments m e d

/-- One name, or several with commas between them. -/
inductive SpansNames : Cursor → Cursor → Prop
  | one {c d : Cursor} (h : c.ReadsName d) : SpansNames c d
  | more {c d e f : Cursor} (h : SpansNames c d) (hc : d.ReadsSymbol .comma e)
    (hn : e.ReadsName f) : SpansNames c f

/-- Filters, each behind a bar. -/
inductive SpansFilters (n : Nat) : Cursor → Cursor → Prop
  | none {c : Cursor} : SpansFilters n c c
  | more {c d e f : Cursor} (h : SpansFilters n c d) (hb : d.ReadsSymbol .bar e)
    (ht : Phrase.Derives .term n e f) : SpansFilters n c f

/-- A placeable behind its opening. Only bars in parentheses are part of its expression. -/
def SpansPlaceable (n : Nat) (c d : Cursor) : Prop :=
  ∃ pending e f, Phrase.Derives (.operation false pending) n c e ∧ SpansFilters n e f ∧
    f.ReadsSymbol .endPut d

/-- An expression that fills the rest of a tag, and the end of the tag. -/
def SpansLast (n : Nat) (c d : Cursor) : Prop :=
  ∃ e, Expression.Spans n c e ∧ e.ReadsSymbol .endTag d

/-- The first tag of a loop behind its keyword. -/
def SpansLoopHead (n : Nat) (c d : Cursor) : Prop :=
  ∃ e f g h, SpansNames c e ∧ e.ReadsWord .inWord f ∧ Expression.Spans n f g ∧
    Optionally (fun g h => ∃ k, g.ReadsWord .ifWord k ∧ Expression.Spans n k h) g h ∧
    h.ReadsSymbol .endTag d

/-- The only tag of an assignment behind its keyword. -/
def SpansAssignment (n : Nat) (c d : Cursor) : Prop :=
  ∃ e f, SpansNames c e ∧ e.ReadsSymbol .assign f ∧ SpansLast n f d

/-- A parameter of a macro: a name, and perhaps an expression for when it is left out. -/
def SpansParameter (n : Nat) (c d : Cursor) : Prop :=
  ∃ e, c.ReadsName e ∧
    Optionally (fun e d => ∃ f, e.ReadsSymbol .assign f ∧ Expression.Spans n f d) e d

/-- The first tag of a macro behind its keyword. -/
def SpansMacroHead (n : Nat) (c d : Cursor) : Prop :=
  ∃ e f g, c.ReadsName e ∧ e.ReadsSymbol .openParen f ∧ Items (SpansParameter n) f g ∧
    g.ReadsSymbol .endTag d

/-- The first tag of a call behind its keyword. -/
def SpansCallHead (n : Nat) (c d : Cursor) : Prop :=
  ∃ e f, c.ReadsName e ∧ Optionally (Expression.SpansArguments n) e f ∧ f.ReadsSymbol .endTag d

/-- The first tag of a block behind its keyword. -/
def SpansBlockHead (name : String) (c d : Cursor) : Prop :=
  ∃ e, c.Reads (.identifier name) e ∧ e.ReadsSymbol .endTag d

/-- The last tag of a block behind its keyword, which may repeat the name. -/
def SpansBlockEnd (name : String) (c d : Cursor) : Prop :=
  ∃ e, Optionally (fun c e => c.Reads (.identifier name) e) c e ∧ e.ReadsSymbol .endTag d

/-- The passages that templates are made of. -/
inductive Passage where
  /-- Any number of texts, placeables and tags. -/
  | contents
  /-- A tag behind its opening, with all that belongs to it. -/
  | tag
  /-- Contents, and the tag that closes them as far as this keyword. -/
  | body (closer : Keyword)
  /-- The bodies of an `if` behind its first tag, with the conditions between them, as far as this
  keyword. -/
  | arms (closer : Keyword)

namespace Passage

/-- The passage reaches from one cursor to the other, opens at most the given number of levels, and
names the given number of templates to extend. -/
inductive Derives : Passage → (levels parents : Nat) → Cursor → Cursor → Prop
  | nothing {n : Nat} {c : Cursor} : Derives .contents n 0 c c
  | text {n k : Nat} {c d : Cursor} (h : Derives .contents n k c d) :
    Derives .contents n k c d.behindText
  | placeable {n k : Nat} {c d e f : Cursor} (h : Derives .contents n k c d)
    (ho : d.Opens .beginPut e) (hp : SpansPlaceable n e f) : Derives .contents n k c f
  | tag {n j k : Nat} {c d e f : Cursor} (h : Derives .contents n j c d)
    (ho : d.Opens .beginTag e) (ht : Derives .tag n k e f) : Derives .contents n (j + k) c f
  | body {n k : Nat} {c d e f : Cursor} {closer : Keyword} (h : Derives .contents n k c d)
    (ho : d.Opens .beginTag e) (hw : e.ReadsWord closer f) : Derives (.body closer) (n + 1) k c f
  | arm {n k : Nat} {c d : Cursor} {closer : Keyword} (h : Derives (.body closer) n k c d) :
    Derives (.arms closer) n k c d
  | elifArm {n j k : Nat} {c d e f : Cursor} {closer : Keyword}
    (h : Derives (.arms .elifWord) n j c d) (hx : SpansLast n d e)
    (hb : Derives (.body closer) n k e f) : Derives (.arms closer) n (j + k) c f
  | ifTag {n k : Nat} {c d e f g : Cursor} (hw : c.ReadsWord .ifWord d) (hx : SpansLast n d e)
    (h : Derives (.arms .endIf) n k e f) (hc : f.ReadsSymbol .endTag g) : Derives .tag n k c g
  | ifElseTag {n j k : Nat} {c d e f g h i : Cursor} (hw : c.ReadsWord .ifWord d)
    (hx : SpansLast n d e) (hm : Derives (.arms .elseWord) n j e f)
    (he : f.ReadsSymbol .endTag g) (ha : Derives (.body .endIf) n k g h)
    (hc : h.ReadsSymbol .endTag i) : Derives .tag n (j + k) c i
  | forTag {n k : Nat} {c d e f g : Cursor} (hw : c.ReadsWord .forWord d)
    (hx : SpansLoopHead n d e) (h : Derives (.body .endFor) n k e f)
    (hc : f.ReadsSymbol .endTag g) : Derives .tag n k c g
  | forElseTag {n j k : Nat} {c d e f g h i : Cursor} (hw : c.ReadsWord .forWord d)
    (hx : SpansLoopHead n d e) (hm : Derives (.body .elseWord) n j e f)
    (he : f.ReadsSymbol .endTag g) (ha : Derives (.body .endFor) n k g h)
    (hc : h.ReadsSymbol .endTag i) : Derives .tag n (j + k) c i
  | setTag {n : Nat} {c d e : Cursor} (hw : c.ReadsWord .setWord d)
    (hx : SpansAssignment n d e) : Derives .tag n 0 c e
  | macroTag {n k : Nat} {c d e f g : Cursor} (hw : c.ReadsWord .macroWord d)
    (hx : SpansMacroHead n d e) (h : Derives (.body .endMacro) n k e f)
    (hc : f.ReadsSymbol .endTag g) : Derives .tag n k c g
  | callTag {n k : Nat} {c d e f g : Cursor} (hw : c.ReadsWord .callWord d)
    (hx : SpansCallHead n d e) (h : Derives (.body .endCall) n k e f)
    (hc : f.ReadsSymbol .endTag g) : Derives .tag n k c g
  | filterTag {n k : Nat} {c d e f g : Cursor} (hw : c.ReadsWord .filterWord d)
    (hx : SpansLast n d e) (h : Derives (.body .endFilter) n k e f)
    (hc : f.ReadsSymbol .endTag g) : Derives .tag n k c g
  | blockTag {n k : Nat} {c d e f g : Cursor} {name : String} (hw : c.ReadsWord .blockWord d)
    (hx : SpansBlockHead name d e) (h : Derives (.body .endBlock) n k e f)
    (hc : SpansBlockEnd name f g) : Derives .tag n k c g
  | extendsTag {n : Nat} {c d e : Cursor} (hw : c.ReadsWord .extendsWord d)
    (hx : SpansLast n d e) : Derives .tag n 1 c e

end Passage

/-- The language of templates: contents up to the end of the text, with at most one template to
extend and no more levels than the limit. -/
def IsTemplate (text : String) : Prop :=
  ∃ parents d, Passage.Derives .contents depthLimit parents (.ofText text) d ∧ parents ≤ 1 ∧
    d.rest = []

end TemplateSyntax
