import BlockNotation.File.Tree
import BlockNotation.Fixture.Basic

/-!
# Suites of fixtures

The fixtures below a directory fall into categories, one for each directory that holds any. A run
may be limited to some categories; a category is named by its path, and naming one takes in those
below it. Categories run in the order of their names and fixtures in the order of their paths.
-/

namespace BlockNotation

/-- The ending of the names of fixture files. -/
def fixtureEnding : String := ".test.blk"

def isFixtureName (name : String) : Bool := fixtureEnding.toList.isSuffixOf name.toList

/-- A file of a suite: the parts of its path below the directory of the suite, and the file. -/
structure SuiteFile where
  path : List String
  content : Except FileError String

/-- A category with its files. -/
structure SuiteCategory where
  name : String
  files : List SuiteFile

/-- How a category is named in reports. -/
def SuiteCategory.label (c : SuiteCategory) : String :=
  if c.name.isEmpty then "(root)" else c.name

mutual

/-- The fixture files in a directory that a path leads to, at any depth. -/
def Entry.fixtures (path : List String) : Entry → List SuiteFile
  | .file _ => []
  | .directory entries => Entry.fixturesAmong path entries

def Entry.fixturesAmong (path : List String) : List (String × Entry) → List SuiteFile
  | [] => []
  | (name, .directory children) :: entries =>
    (Entry.directory children).fixtures (path ++ [name]) ++ Entry.fixturesAmong path entries
  | (name, .file content) :: entries =>
    let file : SuiteFile := ⟨path ++ [name], match content with
      | some text => .ok text
      | none => .error .notText⟩
    if isFixtureName name then file :: Entry.fixturesAmong path entries
    else Entry.fixturesAmong path entries

end

/-- The category of a file: the directory it is in, with backslashes read as slashes. -/
def SuiteFile.category (f : SuiteFile) : String :=
  ("/".intercalate f.path.dropLast).map fun c => if c = '\\' then '/' else c

/-- Does one path come before another, or are they the same? Paths are compared part by part. -/
def pathLe : List String → List String → Bool
  | [], _ => true
  | _ :: _, [] => false
  | p :: ps, q :: qs => if p = q then pathLe ps qs else p < q

/-- The categories of some files. -/
def categoriesOf (files : List SuiteFile) : List SuiteCategory :=
  let names := (files.map SuiteFile.category).mergeSort (fun a b => a ≤ b)
  names.eraseReps.map fun name =>
    ⟨name, (files.filter (·.category = name)).mergeSort fun f g => pathLe f.path g.path⟩

/-- The categories of a suite. -/
def Entry.suite (e : Entry) : List SuiteCategory := categoriesOf (e.fixtures [])

/-- A requested name without the slashes around it. -/
def requestedName (request : String) : String :=
  let trimmed := request.toList.dropWhile (· = '/')
  String.ofList (trimmed.reverse.dropWhile (· = '/')).reverse

/-- Does a requested name take in a category? -/
def takesIn (request category : String) : Bool :=
  category = requestedName request ||
    ((requestedName request).toList ++ ['/']).isPrefixOf category.toList

/-- The categories that a request takes in. -/
def takenIn (all : List SuiteCategory) (request : String) : List SuiteCategory :=
  all.filter (takesIn request ·.name)

/-- Puts a category among others that stand in the order of their names, in place of the one that
has its name. -/
def insertCategory (c : SuiteCategory) : List SuiteCategory → List SuiteCategory
  | [] => [c]
  | d :: ds =>
    if c.name < d.name then c :: d :: ds
    else if c.name = d.name then c :: ds
    else d :: insertCategory c ds

/-- Puts what a request takes in among the categories chosen before. -/
def choose (all chosen : List SuiteCategory) (request : String) : List SuiteCategory :=
  (takenIn all request).foldl (fun cs c => insertCategory c cs) chosen

/-- The categories that the requests take in, one request after the other. -/
def selected (all : List SuiteCategory) (requests : List String) : List SuiteCategory :=
  requests.foldl (choose all) []

/-- The requests that take in nothing. -/
def unmatched (all : List SuiteCategory) (requests : List String) : List String :=
  requests.filter fun request => (takenIn all request).isEmpty

/-! ## Runs -/

/-- What became of a fixture file. -/
structure FixtureResult where
  description : Option String
  fault : Option String

/-- Runs the fixture in a file. -/
def runFixture (toml : TomlReader) (content : Except FileError String) : FixtureResult :=
  match content with
  | .error e => ⟨none, some ("cannot read file: " ++ e.message)⟩
  | .ok text =>
    match Fixture.ofText toml text with
    | .error fault => ⟨none, some fault.message⟩
    | .ok fixture =>
      ⟨fixture.expectations.description, match fixture.check with
        | .error fault => some fault.message
        | .ok () => none⟩

def FixtureResult.passed (r : FixtureResult) : Bool := r.fault.isNone

/-- A file name without the fixture endings at its end. -/
def bareName (name : String) : String :=
  String.ofList (go name.length name.toList)
where
  /-- Drops the ending as often as it stands there, at most `n` times. -/
  go : Nat → List Char → List Char
    | 0, cs => cs
    | n + 1, cs =>
      let ending := fixtureEnding.toList
      if ending.isSuffixOf cs then go n (cs.take (cs.length - ending.length)) else cs

end BlockNotation
