import TemplateSyntax.Statement
import TemplateSyntax.Table

/-!
# Templates

Definitions of macros and blocks are collected in tables by name; all else of a template is in its
body.
-/
namespace TemplateSyntax

/-- A name that a macro is given a value for, perhaps with a value to fall back on. -/
structure Parameter where
  name : Identifier
  fallback : Option Expression
  span : Span
  deriving DecidableEq

/-- A body with parameters, to be called by name. -/
structure Macro where
  name : Identifier
  parameters : List Parameter
  body : Body
  span : Span
  deriving DecidableEq

/-- A body with a name, which a template that extends this one may replace. -/
structure Block where
  name : Identifier
  body : Body
  span : Span
  deriving DecidableEq

/-- A whole template. -/
structure Template where
  /-- The template that this one extends. -/
  parent : Option Expression
  blocks : Table Block
  macros : Table Macro
  body : Body
  span : Span
  deriving DecidableEq

end TemplateSyntax
