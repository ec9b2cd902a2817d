import TemplateSyntax.Diagnostic

/-!
# Listings of diagnostics

A listing shows the fields of a diagnostic one to a line, nested values indented, and texts in
quotes with their control characters escaped.
-/
namespace TemplateSyntax

/-- A value to be listed. -/
inductive Listing where
  | number (n : Nat)
  | text (s : String)
  | absent
  | present (value : Listing)
  | record (name : String) (fields : List (String × Listing))

namespace Listing

/-- A character inside quotes. -/
def escape (c : Char) : String :=
  match c with
  | '"' => "\\\""
  | '\\' => "\\\\"
  | '\t' => "\\t"
  | '\n' => "\\n"
  | '\r' => "\\r"
  | c =>
    if c.toNat = 0 then "\\0"
    else if c.toNat < 0x20 || 0x7F ≤ c.toNat && c.toNat < 0xA0 then
      "\\u\x7b" ++ String.ofList (Nat.toDigits 16 c.toNat) ++ "\x7d"
    else String.ofList [c]

/-- A text in quotes. -/
def quote (s : String) : String := "\"" ++ String.join (s.toList.map escape) ++ "\""

/-- Four blanks for each depth. -/
def indent (depth : Nat) : String := Picture.repeated (4 * depth) ' '

mutual
/-- A value at a depth of indentation, which its first line does not have. -/
def render (depth : Nat) : Listing → String
  | number n => toString n
  | text s => quote s
  | absent => "None"
  | present value =>
    "Some(\n" ++ indent (depth + 1) ++ render (depth + 1) value ++ ",\n" ++ indent depth ++ ")"
  | record name fields =>
    name ++ " \x7b\n" ++ renderFields (depth + 1) fields ++ indent depth ++ "\x7d"
def renderFields (depth : Nat) : List (String × Listing) → String
  | [] => ""
  | field :: fields => renderField depth field ++ renderFields depth fields
def renderField (depth : Nat) : String × Listing → String
  | (name, value) => indent depth ++ name ++ ": " ++ render depth value ++ ",\n"
end

def ofOption {α : Type} (f : α → Listing) : Option α → Listing
  | none => absent
  | some a => present (f a)

def ofPosition (p : Position) : Listing :=
  record "Position" [("offset", number p.offset), ("line", number p.line),
    ("column", number p.column)]

def ofSpan (s : Span) : Listing :=
  record "Span" [("start", ofPosition s.start), ("end", ofPosition s.stop)]

def ofPicture (p : Picture) : Listing :=
  record "Pointer" [("line", number p.line), ("column", number p.column),
    ("length", number p.length), ("text", text p.text)]

end Listing

/-- The fields of a diagnostic, one to a line. -/
def Diagnostic.listing (d : Diagnostic) : String :=
  Listing.render 0 <| .record "Error" [("reason", .text d.reason),
    ("span", .ofOption .ofSpan d.span), ("help", .ofOption .text d.help),
    ("name", .ofOption .text d.name), ("visual", .ofOption .ofPicture d.picture)]

end TemplateSyntax
