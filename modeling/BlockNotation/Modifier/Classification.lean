import BlockNotation.Modifier.Category

/-!
# Classifications

What the modifier of an atomic block says about it: a category under each of some keys, and
whether the block gives a list. The entries are kept in the order of their keys, and a key once
set keeps its category.
-/

namespace BlockNotation

/-- The key that a classifier sets unless it names another. -/
def categoryKey : String := "category"

structure Classification where
  /-- Keys with their categories, by increasing key. -/
  entries : List (String × Category)
  /-- Does the block give a list? -/
  list : Bool
deriving DecidableEq, Inhabited

namespace Classification

def empty : Classification := ⟨[], false⟩

def get? (c : Classification) (key : String) : Option Category := c.entries.lookup key

def category? (c : Classification) : Option Category := c.get? categoryKey

def isSet (c : Classification) (key : String) : Bool := (c.get? key).isSome

def isEmpty (c : Classification) : Bool := c.entries.isEmpty && !c.list

/-- Entries in order, with one more. -/
def insertEntry (key : String) (value : Category) :
    List (String × Category) → List (String × Category)
  | [] => [(key, value)]
  | entry :: entries =>
    if key < entry.1 then (key, value) :: entry :: entries
    else entry :: insertEntry key value entries

/-- Sets a key that is not set yet; otherwise changes nothing. -/
def set (c : Classification) (key : String) (value : Category) (list : Bool) : Classification :=
  if c.isSet key then c else ⟨insertEntry key value c.entries, c.list || list⟩

/-- The entries as text, or a dash for none. -/
def describe (c : Classification) : String :=
  if c.isEmpty then "-"
  else
    ", ".intercalate
      (c.entries.map (fun (key, value) => s!"{key} = {value.name}") ++
        if c.list then ["list"] else [])

end Classification

end BlockNotation
