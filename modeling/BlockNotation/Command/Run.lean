import BlockNotation.Command.Arguments
import BlockNotation.Fixture.Suite
import BlockNotation.Report.Dump
import BlockNotation.Report.Listing
import BlockNotation.Report.Outline
import BlockNotation.Toml.Documents

/-!
# Runs of the program

`runArguments` gives everything a run of the program does: what it writes to its two streams and its
exit code, for a command line, the files it can look at and a library that reads TOML. `run` takes
the reader of this development for that library.
-/

namespace BlockNotation

/-- Something written to the error stream. -/
inductive Notice where
  | line (text : String)
  | diagnostic (d : Diagnostic)
deriving DecidableEq, Inhabited

/-- What a run of the program leaves behind. -/
structure Outcome where
  exitCode : Nat
  /-- The lines written to the output stream. -/
  output : List String
  notices : List Notice
deriving DecidableEq, Inhabited

/-- A run that only fails, with a line about why. -/
def Outcome.failure (exitCode : Nat) (message : String) : Outcome :=
  ⟨exitCode, [], [.line message]⟩

/-- A text of several lines, each with its line feed. -/
def textOfLines (ls : List String) : String := String.join (ls.map (· ++ "\n"))

/-! ## Parsing -/

/-- Why the registry for a run cannot be made. -/
inductive ConfigError where
  | unreadable (path : String) (error : FileError)
  | invalid (why : Refusal)
  | classifier (error : NoPatterns)
deriving DecidableEq, Inhabited

def ConfigError.message : ConfigError → String
  | .unreadable path e => s!"cannot read '{path}': {e.message}"
  | .invalid why => why.message "TOML parse error"
  | .classifier e => e.message

section Parsing

variable (toml : TomlReader)

/-- The registry that a configuration file describes. -/
def loadRegistry (files : Files) (path : String) : Except ConfigError Registry :=
  match files.read path with
  | .error e => .error (.unreadable path e)
  | .ok text =>
    match toml.declarations text with
    | .error why => .error (.invalid why)
    | .ok declarations => (Declaration.registry declarations).mapError .classifier

/-- The token listing that was asked for. -/
def tokenListing (o : ParseOptions) (tokens : List Token) : List String :=
  if o.tokens then tokens.map Token.record else []

/-- The reports on a script that were asked for: its outline, if nothing was. -/
def codeReports (o : ParseOptions) (source : String) (code : Code)
    (results : List (Atomic × Classification)) : List String :=
  (if o.tree then [code.dump.render 0] else []) ++
    (if o.modifiers then results.map (classificationRecord source) else []) ++
    (if o.tokens || o.tree || o.modifiers then [] else code.outline)

/-- Reports on the script that a source file holds. -/
def parseSource (o : ParseOptions) (file source : String) (registry : Registry) : Outcome :=
  match tokenize source with
  | .error e => ⟨1, [], [.diagnostic ((ParseError.lexical e).toDiagnostic 0)]⟩
  | .ok tokens =>
    let listing := tokenListing o tokens
    match parseTokens tokens 0 with
    | .error e => ⟨1, listing, [.diagnostic (e.toDiagnostic 0)]⟩
    | .ok code =>
      let (results, log) := registry.analyse code (.empty 0)
      let warnings := log.warnings.map fun w => Notice.diagnostic w.toDiagnostic
      if o.check then ⟨0, listing, warnings ++ [.line s!"ok: {file} parsed successfully"]⟩
      else ⟨0, listing ++ codeReports o source code results, warnings⟩

/-- Runs the command `parse`. -/
def runParse (files : Files) (file : String) (o : ParseOptions) : Outcome :=
  let registry := match o.config with
    | some path => loadRegistry toml files path
    | none => .ok .builtin
  match registry with
  | .error e => .failure 1 ("error: " ++ e.message)
  | .ok registry =>
    match files.read file with
    | .error e => .failure 1 s!"error: cannot read '{file}': {e.message}"
    | .ok source => parseSource o file source registry

end Parsing

/-! ## Testing -/

/-- A text in an ANSI style, unless colours are off. -/
def styled (noColor : Bool) (style text : String) : String :=
  if noColor then text else s!"\x1b[{style}m{text}\x1b[0m"

/-- A fixture that was run, with the path and the name it is reported under. -/
structure FixtureRun where
  path : String
  name : String
  result : FixtureResult

section Testing

variable (toml : TomlReader)

namespace FixtureRun

/-- Runs the fixture in a file. It is known by its description, or else by its file name. -/
def ofFile (path fileName : String) (content : Except FileError String) : FixtureRun :=
  let result := runFixture toml content
  ⟨path, result.description.getD (bareName fileName), result⟩

def statusLine (noColor : Bool) (r : FixtureRun) : String :=
  let status := if r.result.passed then styled noColor "32" "PASS" else styled noColor "31" "FAIL"
  s!"  {status}  {r.name}"

end FixtureRun

/-- What the fixtures run so far have come to: how many passed, and the paths of the others with the
reasons why they failed. -/
structure Summary where
  passed : Nat
  failures : List (String × String)

namespace Summary

def empty : Summary := ⟨0, []⟩

def failed (s : Summary) : Nat := s.failures.length

/-- Takes in one more fixture. -/
def add (s : Summary) (r : FixtureRun) : Summary :=
  match r.result.fault with
  | none => { s with passed := s.passed + 1 }
  | some reason => { s with failures := s.failures ++ [(r.path, reason)] }

/-- The lines about a failure. -/
def failureLines (failure : String × String) : List String :=
  ["", s!"  --- {failure.1} ---"] ++
    (lines failure.2.toList).map fun line => "  " ++ String.ofList line

/-- The line that says how a run has ended. -/
def verdict (noColor : Bool) (s : Summary) : String :=
  if s.failed = 0 then
    "test result: " ++ styled noColor "32" "ok" ++ s!". {s.passed} passed, 0 failed"
  else
    "test result: " ++ styled noColor "31" "FAILED" ++
      s!". {s.passed} passed, {s.failed} failed (of {s.passed + s.failed})"

/-- The lines at the end of a run. -/
def report (noColor : Bool) (s : Summary) : List String :=
  (if s.failures.isEmpty then [] else ["", "failures:"] ++ s.failures.flatMap failureLines) ++
    ["", s.verdict noColor]

def exitCode (s : Summary) : Nat := if s.failed = 0 then 0 else 1

end Summary

/-- A path with further parts below it. -/
def joinPath (root : String) (parts : List String) : String :=
  root ++ (if root.endsWith "/" then "" else "/") ++ "/".intercalate parts

/-- The fixtures of a category of the suite at a path. -/
def SuiteCategory.runs (root : String) (c : SuiteCategory) : List FixtureRun :=
  c.files.map fun f => .ofFile toml (joinPath root f.path) (f.path.getLast?.getD "") f.content

/-- A run of fixtures in progress: the lines written so far and the summary. -/
structure SuiteRun where
  written : List String
  summary : Summary

namespace SuiteRun

variable (noColor : Bool)

/-- Takes in a fixture that was run and writes its status line. -/
def add (s : SuiteRun) (r : FixtureRun) : SuiteRun :=
  ⟨s.written ++ [r.statusLine noColor], s.summary.add r⟩

/-- Runs the fixtures of a category of the suite at a path, under a heading. -/
def addCategory (root : String) (s : SuiteRun) (c : SuiteCategory) : SuiteRun :=
  (c.runs toml root).foldl (add noColor)
    { s with written := s.written ++ ["", styled noColor "1" c.label] }

/-- What a run leaves behind when it has gone through its fixtures. -/
def finish (s : SuiteRun) : Outcome where
  exitCode := s.summary.exitCode
  output := []
  notices := (s.written ++ s.summary.report noColor).map .line

end SuiteRun

/-- Runs the fixtures of some categories, after lines about them. -/
def runCategories (noColor : Bool) (root : String) (before : List String)
    (categories : List SuiteCategory) : Outcome :=
  (categories.foldl (SuiteRun.addCategory toml noColor root) ⟨before, .empty⟩).finish noColor

/-- The line about a requested category that is not there. -/
def unmatchedWarning (all : List SuiteCategory) (request : String) : String :=
  s!"warning: category '{requestedName request}' not found (available: " ++
    ", ".intercalate (all.map SuiteCategory.label) ++ ")"

/-- The line about a path without fixtures. -/
def noFixtures (path : String) : String := s!"no {fixtureEnding} files found in {path}"

/-- Runs the command `test` on a single file. -/
def runSingle (path : String) (content : Option String) (o : TestOptions) : Outcome :=
  if o.listCategories then .failure 0 "(single file, no categories)"
  else
    let content := match content with
      | some text => Except.ok text
      | none => Except.error FileError.notText
    let r := FixtureRun.ofFile toml path ((pathParts path).getLast?.getD "?") content
    (SuiteRun.add o.noColor ⟨[], .empty⟩ r).finish o.noColor

/-- Runs the command `test` on a suite. -/
def runSuite (path : String) (all : List SuiteCategory) (o : TestOptions) : Outcome :=
  if o.listCategories then
    if all.isEmpty then .failure 0 (noFixtures path)
    else
      ⟨0, [], Notice.line "available categories:" ::
        all.map fun c => .line s!"  {c.label} ({c.files.length} tests)"⟩
  else if all.isEmpty then .failure 1 (noFixtures path)
  else if o.categories.isEmpty then runCategories toml o.noColor path [] all
  else
    let warnings := (unmatched all o.categories).map (unmatchedWarning all)
    match selected all o.categories with
    | [] => ⟨1, [], (warnings ++ ["no matching categories found"]).map .line⟩
    | chosen => runCategories toml o.noColor path warnings chosen

/-- Runs the command `test`. -/
def runTest (files : Files) (path : String) (o : TestOptions) : Outcome :=
  match files path with
  | .ok (.file content) => runSingle toml path content o
  | .ok (.directory entries) => runSuite toml path (Entry.directory entries).suite o
  | .error _ => runSuite toml path [] o

end Testing

/-! ## The whole program -/

/-- The paths that a request looks at. -/
def Request.paths : Request → List String
  | .parse file o => o.config.toList ++ [file]
  | .test path _ => [path]
  | .version => []
  | .help => []

def versionLine : String := "blocktext 0.1.0"

def helpLines : List String :=
  ["Parser and modifier analyser for textual block scripts", "",
    "Usage: blocktext [--no-color] <command>", "", "Commands:",
    "  parse <file>  Parse a script and print its outline",
    "  test <path>   Run .test.blk fixture files"]

def runRequest (toml : TomlReader) (files : Files) : Request → Outcome
  | .parse file o => runParse toml files file o
  | .test path o => runTest toml files path o
  | .version => ⟨0, [versionLine], []⟩
  | .help => ⟨0, helpLines, []⟩

/-- Runs the program on the words of a command line. -/
def runArguments (toml : TomlReader) (files : Files) (words : List String) : Outcome :=
  match Request.ofArguments words with
  | .error e => .failure 2 e.message
  | .ok request => runRequest toml files request

/-- Runs the program with the reader of TOML at hand. -/
def run (files : Files) (words : List String) : Outcome := runArguments Toml.reader files words

end BlockNotation
