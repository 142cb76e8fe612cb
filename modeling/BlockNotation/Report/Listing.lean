import BlockNotation.Modifier.Analysis
import BlockNotation.Text.Quoted

/-!
# Listings

Listings give one record a line, its fields separated by tabs.
-/

namespace BlockNotation

/-- A token with its position, kind and text. -/
def Token.record (t : Token) : String :=
  s!"{t.position.line}:{t.position.column}\t{t.kind.name}\t" ++ BlockNotation.quote t.text

/-- A classified block with its line, text and classification. -/
def classificationRecord (source : String) (result : Atomic × Classification) : String :=
  s!"{lineOfOffset source result.1.span.start}\t" ++ result.1.labelText ++ "\t" ++
    result.2.describe

end BlockNotation
