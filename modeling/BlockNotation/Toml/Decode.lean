import BlockNotation.Toml.Value

/-!
# Values of an expected type

Takes the entries of a TOML table apart. A decoder of a value fails on a value of another type.
-/

namespace BlockNotation.Toml

abbrev Table := List (String × Value)

abbrev Decoder (α : Type) := Value → Except Error α

namespace Decoder

def text : Decoder String
  | .text s => .ok s
  | _ => .error .mistyped

def boolean : Decoder Bool
  | .boolean b => .ok b
  | _ => .error .mistyped

/-- An integer that is not negative. -/
def natural : Decoder Nat
  | .integer (.ofNat n) => .ok n
  | _ => .error .mistyped

def list {α : Type} (item : Decoder α) : Decoder (List α)
  | .array items => items.mapM item
  | _ => .error .mistyped

/-- A record is a table, or an array that gives its fields in order. An array may leave out fields
at the end; items after the last field mean nothing. -/
def record {α : Type} (fields : List String) (decode : Table → Except Error α) : Decoder α
  | .table entries => decode entries
  | .array items => decode (fields.zip items)
  | _ => .error .mistyped

end Decoder

namespace Table

/-- An entry that may be missing. -/
def field? {α : Type} (t : Table) (key : String) (decode : Decoder α) :
    Except Error (Option α) :=
  match t.lookup key with
  | some v => some <$> decode v
  | none => .ok none

/-- An entry that stands for a default when it is missing. -/
def fieldD {α : Type} (t : Table) (key : String) (decode : Decoder α) (default : α) :
    Except Error α := do
  return (← t.field? key decode).getD default

/-- An entry that must be there. -/
def field {α : Type} (t : Table) (key : String) (decode : Decoder α) : Except Error α := do
  match ← t.field? key decode with
  | some a => return a
  | none => .error .mistyped

end Table

end BlockNotation.Toml
