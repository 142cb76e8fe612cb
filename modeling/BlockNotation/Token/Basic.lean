import BlockNotation.Text.Measure
import BlockNotation.Token.Kind

/-!
# Tokens

A token is a stretch of source text together with its kind and where it stands.
-/

namespace BlockNotation

/-- A range of byte offsets, from `start` up to but not including `stop`. -/
structure Span where
  start : Nat
  stop : Nat
deriving DecidableEq, Inhabited

/-- A classified piece of source text. -/
structure Token where
  kind : Kind
  /-- The source text exactly as it stands. -/
  text : String
  span : Span
  /-- Where the first character stands. -/
  position : Position
  /-- The number of line feeds inside `text`. -/
  lineBreaks : Nat
deriving DecidableEq, Inhabited

namespace Token

/-- The token of a kind whose text begins at a place. -/
def ofText (kind : Kind) (place : Place) (text : List Char) : Token where
  kind := kind
  text := String.ofList text
  span := ⟨place.offset, place.offset + byteSize text⟩
  position := place.position
  lineBreaks := text.count '\n'

/-- How a message quotes a token: delimiters by name, all others by their text. -/
def quote (t : Token) : String :=
  if t.kind = .delimiter then Kind.delimiter.describe else "`" ++ t.text ++ "`"

end Token

end BlockNotation
