import BlockNotation.Modifier.Analysis

/-!
# Declared classifiers

Configuration files and fixtures may declare classifiers. Together with the built-in ones, which
are asked first, they make a registry. A declaration without any pattern is refused.
-/

namespace BlockNotation

structure Declaration where
  name : String
  key : String
  category : String
  list : Bool
  exact : List String
  beginnings : List String
  endings : List String
deriving DecidableEq, Inhabited

/-- A declared classifier has no patterns. -/
structure NoPatterns where
  name : String
deriving DecidableEq, Inhabited

def NoPatterns.message (e : NoPatterns) : String :=
  s!"classifier '{e.name}' has no exact, prefix or suffix patterns"

namespace Declaration

/-- The classifier that is declared: its exact words come first, then the beginnings, then the
endings. -/
def toClassifier (d : Declaration) : Except NoPatterns Classifier :=
  if d.exact.isEmpty && d.beginnings.isEmpty && d.endings.isEmpty then .error ⟨d.name⟩
  else
    let bare := (Classifier.ofCategory d.name (.ofName d.category)).withKey d.key
    let marked := if d.list then bare.marksList else bare
    let withExact := d.exact.foldl Classifier.matchingExactly marked
    let withBeginnings := d.beginnings.foldl Classifier.matchingBeginning withExact
    .ok (d.endings.foldl Classifier.matchingEnding withBeginnings)

/-- The built-in registry followed by declared classifiers. -/
def registry (declarations : List Declaration) : Except NoPatterns Registry :=
  declarations.foldlM (fun r d => r.add <$> d.toClassifier) Registry.builtin

end Declaration

end BlockNotation
