/-!
# File trees

A directory as the program sees it. A path is a text whose parts are separated by slashes; empty
parts and single dots lead nowhere, and two dots lead to the directory above. A path that ends in
a slash must lead to a directory. The directories around the outermost one are out of sight, and
look empty.
-/

namespace BlockNotation

/-- What stands at a path. The content of a file is missing if it is no UTF-8 text. -/
inductive Entry where
  | file (content : Option String)
  | directory (entries : List (String × Entry))
deriving Inhabited

/-- Why a file cannot be read. -/
inductive FileError where
  | notFound
  | notDirectory
  | isDirectory
  | notText
  /-- Any other reason, in the words of the operating system. -/
  | other (message : String)
deriving DecidableEq, Inhabited

def FileError.message : FileError → String
  | .notFound => "No such file or directory (os error 2)"
  | .notDirectory => "Not a directory (os error 20)"
  | .isDirectory => "Is a directory (os error 21)"
  | .notText => "stream did not contain valid UTF-8"
  | .other message => message

/-- The files that a run of the program can look at. -/
abbrev Files := String → Except FileError Entry

/-- The text of the file at a path. -/
def Files.read (files : Files) (path : String) : Except FileError String :=
  match files path with
  | .error e => .error e
  | .ok (.directory _) => .error .isDirectory
  | .ok (.file none) => .error .notText
  | .ok (.file (some content)) => .ok content

/-- The parts of a path. -/
def pathParts (path : String) : List String := (path.splitOn "/").filter (· ≠ "")

namespace Entry

/-- The names in a directory; a file has none. -/
def children : Entry → List (String × Entry)
  | .file _ => []
  | .directory entries => entries

def isDirectory : Entry → Bool
  | .file _ => false
  | .directory _ => true

/-- Follows the parts of a path from an entry. `above` holds the directories around it that are in
sight, nearest first. -/
def follow (above : List Entry) (here : Entry) : List String → Except FileError Entry
  | [] => .ok here
  | part :: parts =>
    if !here.isDirectory then .error .notDirectory
    else if part = "." then follow above here parts
    else if part = ".." then
      match above with
      | [] => follow [] (.directory []) parts
      | parent :: above => follow above parent parts
    else
      match here.children.lookup part with
      | none => .error .notFound
      | some entry => follow (here :: above) entry parts

/-- The entry that a path leads to from a directory. -/
def resolve (directory : Entry) : Files := fun path =>
  if path.isEmpty then .error .notFound
  else
    let start := if path.startsWith "/" then .directory [] else directory
    match follow [] start (pathParts path) with
    | .error e => .error e
    | .ok entry =>
      if path.endsWith "/" && !entry.isDirectory then .error .notDirectory else .ok entry

/-- Entries with another one under a name, in place of the one that was there. -/
def putChild (name : String) (entry : Entry) : List (String × Entry) → List (String × Entry)
  | [] => [(name, entry)]
  | (n, e) :: entries =>
    if n = name then (name, entry) :: entries else (n, e) :: putChild name entry entries

/-- Puts an entry below a directory, at the end of a path of names, making the directories on the
way. -/
def insert (entry : Entry) : List String → Entry → Entry
  | [], here => match here with
    | .directory entries => .directory (entries ++ entry.children)
    | .file _ => entry
  | [name], here =>
    match entry, here.children.lookup name with
    | .directory _, some (.directory entries) =>
      .directory (putChild name (.directory entries) here.children)
    | _, _ => .directory (putChild name entry here.children)
  | name :: path, here =>
    let child := (here.children.lookup name).getD (.directory [])
    .directory (putChild name (insert entry path child) here.children)

/-- Puts an entry below a directory, where the parts of a path lead from the directory with the
names `here`, given in reverse. A directory that two dots leave again is made as well. -/
def insertFrom (entry : Entry) (here : List String) : List String → Entry → Entry
  | [], root => insert entry here.reverse root
  | part :: parts, root =>
    if part = "." then insertFrom entry here parts root
    else if part = ".." then
      insertFrom entry here.tail parts (insert (.directory []) here.reverse root)
    else insertFrom entry (part :: here) parts root

/-- Puts an entry at a path below a directory. -/
def insertAt (entry : Entry) (path : String) (root : Entry) : Entry :=
  insertFrom entry [] (pathParts path) root

end Entry

end BlockNotation
