import TemplateSyntax.Text.CodeRanges
import TemplateSyntax.Text.IdentifierTable

/-!
# Identifier characters

An identifier is a letter of any script or an underscore, followed by letters, digits, marks and
connectors: the Unicode properties `XID_Start` and `XID_Continue`.
-/
namespace TemplateSyntax.Text

/-- May begin an identifier. -/
def startsIdentifier (c : Char) : Bool :=
  c.isAlpha || c == '_' || (0x80 ≤ c.toNat && inRanges c.toNat identifierStartRanges)

/-- May follow inside an identifier. -/
def continuesIdentifier (c : Char) : Bool :=
  startsIdentifier c || c.isDigit || (0x80 ≤ c.toNat && inRanges c.toNat identifierExtraRanges)

theorem continuesIdentifier_of_starts {c : Char} (h : startsIdentifier c) :
    continuesIdentifier c := by
  simp [continuesIdentifier, h]

end TemplateSyntax.Text
