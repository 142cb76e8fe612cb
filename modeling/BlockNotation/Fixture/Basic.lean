import BlockNotation.Modifier.Declaration
import BlockNotation.Script.Parse

/-!
# Fixtures

A fixture is a file that holds a script and what is expected of it. The expectations stand in
front, as TOML between two fences of three dashes. `Fixture.ofText` takes a fixture apart and
`Fixture.check` compares the expectations with what reading and analysing the script gives. Reading
TOML is left to a library (`TomlReader`).
-/

namespace BlockNotation

structure ExpectedWarning where
  /-- A text that the message must hold. -/
  contains : String
  /-- The line on which the warning must start. -/
  line : Option Nat
deriving DecidableEq, Inhabited

/-- What a fixture expects of its script. -/
structure Expectations where
  description : Option String
  /-- Reading must fail. -/
  parseError : Bool
  /-- Reading must fail with a message that holds this text. -/
  error : Option String
  /-- Warnings to be matched one to one. -/
  warnings : Option (List ExpectedWarning)
  /-- The categories of the classified blocks, in source order. -/
  categories : Option (List String)
  /-- Further classifiers for this script. -/
  declarations : List Declaration
deriving DecidableEq, Inhabited

/-- Why a document is refused. A reader may leave out the reason. -/
abbrev Refusal := Option String

/-- A message about a refused document: what it is about and the reason, if there is one. -/
def Refusal.message (subject : String) : Refusal → String
  | some reason => subject ++ ": " ++ reason
  | none => subject

/-- A library that reads TOML, for the two kinds of document that there are. -/
structure TomlReader where
  /-- The classifiers that a configuration file declares. -/
  declarations : String → Except Refusal (List Declaration)
  /-- The expectations in the front matter of a fixture. -/
  expectations : String → Except Refusal Expectations

structure Fixture where
  expectations : Expectations
  source : String
deriving DecidableEq, Inhabited

/-- Why a fixture fails. -/
inductive Fault where
  | neverOpened
  | neverClosed
  | invalidFrontMatter (why : Refusal)
  | classifier (error : NoPatterns)
  | parsed
  | unparsed (error : ParseError)
  | otherError (wanted : String) (error : ParseError)
  | categories (expected actual : List String)
  /-- The number of warnings expected, and those found with their lines. -/
  | warningCount (expected : Nat) (actual : List (Warning × Nat))
  | warningText (number : Nat) (message wanted : String)
  | warningLine (number line wanted : Nat)
deriving DecidableEq, Inhabited

namespace Fault

def message : Fault → String
  | .neverOpened => "front matter must open with ---"
  | .neverClosed => "front matter is never closed with ---"
  | .invalidFrontMatter why => why.message "invalid front matter"
  | .classifier e => "classifier error: " ++ e.message
  | .parsed => "parsing succeeded but a failure was expected"
  | .unparsed e => "unexpected parse error: " ++ e.message
  | .otherError wanted e => s!"error should mention \"{wanted}\"\n  actual: {e.message}"
  | .categories expected actual =>
    "category mismatch\n  expected: [" ++ ", ".intercalate expected ++ "]\n  actual:   [" ++
      ", ".intercalate actual ++ "]"
  | .warningCount expected actual =>
    let found := match actual with
      | [] => "    (none)"
      | _ => "\n".intercalate
        (actual.map fun (w, line) => s!"    {w.describe} (line {line})")
    s!"expected {expected} warning(s), got {actual.length}\n" ++ found
  | .warningText number message wanted =>
    s!"warning #{number}: \"{message}\" does not mention \"{wanted}\""
  | .warningLine number line wanted =>
    s!"warning #{number}: reported on line {line}, expected line {wanted}"

end Fault

def Expectations.expectsFailure (e : Expectations) : Bool := e.parseError || e.error.isSome

/-- Does a text hold another? -/
def holdsText (wanted : List Char) : List Char → Bool
  | [] => wanted.isEmpty
  | c :: cs => wanted.isPrefixOf (c :: cs) || holdsText wanted cs

namespace Fixture

/-- Parts a text at its first line that begins with three dashes. The line feed in front of the
dashes belongs to neither part. -/
def splitAtFence : List Char → Option (List Char × List Char)
  | [] => none
  | '\n' :: '-' :: '-' :: '-' :: rest => some ([], rest)
  | c :: cs => (splitAtFence cs).map fun (front, rest) => (c :: front, rest)

/-- The text after the end of the line that the opening fence stands on. -/
def afterOpening (cs : List Char) : List Char :=
  match cs.dropWhile (· = '\r') with
  | '\n' :: rest => rest
  | _ => cs

/-- The text after the line end that follows the closing fence. -/
def afterClosing : List Char → List Char
  | '\r' :: '\n' :: rest => rest
  | '\n' :: rest => rest
  | cs => cs

/-- A text without the carriage returns at its end. -/
def trimReturns (cs : List Char) : List Char := (cs.reverse.dropWhile (· = '\r')).reverse

/-- The front matter and the script of a fixture file. Byte order marks in front are skipped. -/
def split (cs : List Char) : Except Fault (List Char × List Char) :=
  match cs.dropWhile (· = '\uFEFF') with
  | '-' :: '-' :: '-' :: rest =>
    match splitAtFence (afterOpening rest) with
    | some (front, rest) => .ok (trimReturns front, afterClosing rest)
    | none => .error .neverClosed
  | _ => .error .neverOpened

/-- The fixture with some front matter and a script. -/
def ofParts (toml : TomlReader) (front source : List Char) : Except Fault Fixture :=
  match toml.expectations (String.ofList front) with
  | .ok expectations => .ok ⟨expectations, String.ofList source⟩
  | .error why => .error (.invalidFrontMatter why)

/-- The fixture that a file holds. -/
def ofText (toml : TomlReader) (text : String) : Except Fault Fixture := do
  let (front, source) ← split text.toList
  ofParts toml front source

/-- Compares the categories of classified blocks with expected names. -/
def checkCategories (results : List (Atomic × Classification)) (names : List String) :
    Except Fault Unit :=
  let actual := results.filterMap fun (_, c) => c.category?.map Category.name
  let expected := names.map uppercase
  if actual = expected then .ok () else .error (.categories expected actual)

/-- Compares one warning with what is expected of the warning with its number. -/
def checkWarning (source : String) (number : Nat) (w : Warning) (wanted : ExpectedWarning) :
    Except Fault Unit :=
  if !holdsText wanted.contains.toList w.message.toList then
    .error (.warningText number w.message wanted.contains)
  else
    let line := lineOfOffset source w.span.start
    match wanted.line with
    | some expected =>
      if line = expected then .ok () else .error (.warningLine number line expected)
    | none => .ok ()

/-- Compares warnings with those expected, one by one, counting from `number`. -/
def checkEachWarning (source : String) (number : Nat) :
    List Warning → List ExpectedWarning → Except Fault Unit
  | w :: ws, e :: es => do
    checkWarning source number w e
    checkEachWarning source (number + 1) ws es
  | _, _ => .ok ()

/-- Compares warnings with those expected. -/
def checkWarnings (source : String) (warnings : List Warning) (expected : List ExpectedWarning) :
    Except Fault Unit :=
  if warnings.length = expected.length then checkEachWarning source 1 warnings expected
  else
    .error (.warningCount expected.length
      (warnings.map fun w => (w, lineOfOffset source w.span.start)))

/-- Compares the error of a script that was expected to fail with the text expected. -/
def checkError (f : Fixture) (e : ParseError) : Except Fault Unit :=
  match f.expectations.error with
  | some wanted =>
    if holdsText wanted.toList e.message.toList then .ok () else .error (.otherError wanted e)
  | none => .ok ()

/-- Compares a script that could be read with its expectations. -/
def checkCode (f : Fixture) (r : Registry) (code : Code) : Except Fault Unit := do
  let (results, log) := r.analyse code (.empty 0)
  if let some names := f.expectations.categories then checkCategories results names
  if let some expected := f.expectations.warnings then
    checkWarnings f.source log.warnings expected

/-- Compares the script of a fixture with its expectations. -/
def check (f : Fixture) : Except Fault Unit :=
  match Declaration.registry f.expectations.declarations with
  | .error e => .error (.classifier e)
  | .ok r =>
    match parse f.source 0, f.expectations.expectsFailure with
    | .error e, true => f.checkError e
    | .ok _, true => .error .parsed
    | .error e, false => .error (.unparsed e)
    | .ok code, false => f.checkCode r code

end Fixture

end BlockNotation
