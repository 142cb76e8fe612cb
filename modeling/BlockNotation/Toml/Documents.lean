import BlockNotation.Fixture.Basic
import BlockNotation.Toml.Decode
import BlockNotation.Toml.Reader

/-!
# Documents in TOML

The keys of configuration files and of front matter, with the types and defaults of what they hold.
Classifiers are declared in the items of an array. Unknown keys mean nothing there; at the top of
front matter they are refused.
-/

namespace BlockNotation

namespace Declaration

/-- The fields of a declaration in order. -/
def fields : List String := ["name", "key", "category", "list", "exact", "prefix", "suffix"]

def ofTable (t : Toml.Table) : Except Toml.Error Declaration := do
  let patterns key := t.fieldD key (.list .text) []
  return {
    name := ← t.field "name" .text
    key := ← t.fieldD "key" .text categoryKey
    category := ← t.field "category" .text
    list := ← t.fieldD "list" .boolean false
    exact := ← patterns "exact"
    beginnings := ← patterns "prefix"
    endings := ← patterns "suffix" }

/-- The declarations of a document. -/
def allOfTable (t : Toml.Table) : Except Toml.Error (List Declaration) :=
  t.fieldD "classifier" (.list (.record fields ofTable)) []

end Declaration

namespace ExpectedWarning

/-- The fields of an expected warning in order. -/
def fields : List String := ["contains", "line"]

def ofTable (t : Toml.Table) : Except Toml.Error ExpectedWarning :=
  return ⟨← t.field "contains" .text, ← t.field? "line" .natural⟩

end ExpectedWarning

namespace Expectations

/-- The keys that expectations may use. -/
def keys : List String :=
  ["description", "expect_parse_error", "expect_error", "expect_warnings", "expect_categories",
    "classifier"]

def ofTable (t : Toml.Table) : Except Toml.Error Expectations := do
  if t.any fun (key, _) => !keys.contains key then .error .mistyped
  return {
    description := ← t.field? "description" .text
    parseError := ← t.fieldD "expect_parse_error" .boolean false
    error := ← t.field? "expect_error" .text
    warnings := ← t.field? "expect_warnings"
      (.list (.record ExpectedWarning.fields ExpectedWarning.ofTable))
    categories := ← t.field? "expect_categories" (.list .text)
    declarations := ← Declaration.allOfTable t }

end Expectations

namespace Toml

/-- A reader of documents, which gives no reasons. -/
def reader : TomlReader where
  declarations text := (read text >>= Declaration.allOfTable).mapError fun _ => none
  expectations text := (read text >>= Expectations.ofTable).mapError fun _ => none

end Toml

end BlockNotation
