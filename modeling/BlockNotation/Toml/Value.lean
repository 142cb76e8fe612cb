/-!
# TOML values and tables

A document is a table. Its text gives it piece by piece: key-value lines, under headers that name
the table they belong to. A key may lead through further tables, which come into being on the way.
This module puts the pieces together and refuses those that would define something twice.
-/

namespace BlockNotation.Toml

inductive Value where
  | text (s : String)
  | integer (n : Int)
  | boolean (b : Bool)
  /-- A floating-point number, a date or a time. No document asks for one, so it is not kept. -/
  | unused
  | array (items : List Value)
  | table (entries : List (String × Value))
deriving Inhabited

/-- Why a text is not the document that was asked for. -/
inductive Error where
  /-- The text is not TOML. -/
  | malformed
  /-- Something is defined twice. -/
  | duplicate
  /-- A value is missing, unknown, or not of the type asked for. -/
  | mistyped
deriving DecidableEq, Inhabited

/-- How a table came into being. -/
inductive Origin where
  /-- By the header of a table inside it. -/
  | implicit
  /-- By a dotted key. -/
  | dotted
  /-- By its own header. -/
  | defined
deriving DecidableEq, Inhabited

/-- A value of a document that is being put together. -/
inductive Node where
  | value (v : Value)
  | table (origin : Origin) (entries : List (String × Node))
  | tables (items : List (List (String × Node)))

abbrev Entries := List (String × Node)

namespace Node

mutual

def toValue : Node → Value
  | .value v => v
  | .table _ entries => .table (valuesOf entries)
  | .tables items => .array (tableValuesOf items)

def valuesOf : List (String × Node) → List (String × Value)
  | [] => []
  | (key, node) :: entries => (key, node.toValue) :: valuesOf entries

def tableValuesOf : List (List (String × Node)) → List Value
  | [] => []
  | entries :: items => .table (valuesOf entries) :: tableValuesOf items

end

end Node

namespace Entries

/-- Sets a key, in place if it is there already. -/
def put (key : String) (node : Node) : Entries → Entries
  | [] => [(key, node)]
  | (k, n) :: entries => if k = key then (key, node) :: entries else (k, n) :: put key node entries

/-- Edits the table that a path leads to, making the tables on the way that are missing. A path
inside a key leads through no table with a header of its own. `edit` is told whether the table it
gets was made by a dotted key. -/
def descend (dotted : Bool) (edit : Bool → Entries → Except Error Entries) :
    List String → Bool → Entries → Except Error Entries
  | [], made, entries => edit made entries
  | key :: path, _, entries =>
    match entries.lookup key with
    | none => do
      let inner ← descend dotted edit path dotted []
      return put key (.table (if dotted then .dotted else .implicit) inner) entries
    | some (.value _) => .error .duplicate
    | some (.table origin inner) =>
      if dotted && origin = .defined then .error .duplicate
      else do
        let inner ← descend dotted edit path (origin = .dotted) inner
        return put key (.table origin inner) entries
    | some (.tables items) =>
      match items.getLast? with
      | none => .error .duplicate
      | some last => do
        let last ← descend dotted edit path false last
        return put key (.tables (items.dropLast ++ [last])) entries

/-- Adds a value under a key. -/
def add (entries : Entries) (key : List String) (v : Value) : Except Error Entries :=
  match key.getLast? with
  | none => .error .malformed
  | some last =>
    let path := key.dropLast
    descend true (fun made table =>
      if made = path.isEmpty || (table.lookup last).isSome then .error .duplicate
      else .ok (put last (.value v) table)) path false entries

/-- Adds the values of several lines. -/
def addAll (entries : Entries) (lines : List (List String × Value)) : Except Error Entries :=
  lines.foldlM (fun entries (key, v) => entries.add key v) entries

end Entries

/-- The lines below one header. -/
structure Section where
  key : List String
  /-- Does the header add a table to an array of tables? -/
  repeated : Bool
  lines : List (List String × Value)

/-- Adds the table of a section to a document. -/
def Section.addTo (s : Section) (document : Entries) : Except Error Entries :=
  match s.key.getLast? with
  | none => .error .malformed
  | some last =>
    Entries.descend false (fun _ table =>
      match s.repeated, table.lookup last with
      | true, none => do return table.put last (.tables [← Entries.addAll [] s.lines])
      | true, some (.tables items) => do
        return table.put last (.tables (items ++ [← Entries.addAll [] s.lines]))
      | false, none => do return table.put last (.table .defined (← Entries.addAll [] s.lines))
      | false, some (.table .implicit entries) => do
        return table.put last (.table .defined (← Entries.addAll entries s.lines))
      | _, _ => .error .duplicate) s.key.dropLast false document

/-- The table of a document with some lines in front of its first section. -/
def tableOf (lines : List (List String × Value)) (sections : List Section) :
    Except Error (List (String × Value)) := do
  let entries ← sections.foldlM (fun document s => s.addTo document) (← Entries.addAll [] lines)
  return Node.valuesOf entries

end BlockNotation.Toml
