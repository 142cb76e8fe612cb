/-!
# Command lines

The program has two commands. `parse` reads a script and reports on it, `test` runs fixtures. A
command line whose first word that is no option is not the name of a command is a `parse` of the
file it names.
-/

namespace BlockNotation

structure ParseOptions where
  noColor : Bool
  check : Bool
  tokens : Bool
  tree : Bool
  modifiers : Bool
  config : Option String
  file : Option String
deriving DecidableEq, Inhabited

structure TestOptions where
  noColor : Bool
  categories : List String
  listCategories : Bool
  path : Option String
deriving DecidableEq, Inhabited

/-- What a command line asks for. -/
inductive Request where
  | parse (file : String) (options : ParseOptions)
  | test (path : String) (options : TestOptions)
  | version
  | help
deriving DecidableEq, Inhabited

/-- What is wrong with a command line. -/
inductive UsageError where
  | missingCommand
  | missingPath
  | missingValue (option : String)
  | repeatedOption (option : String)
  | unexpected (word : String)
deriving DecidableEq, Inhabited

def UsageError.message : UsageError → String
  | .missingCommand => "error: a command or a script file is required"
  | .missingPath => "error: a path is required"
  | .missingValue option => s!"error: a value is required for '{option}'"
  | .repeatedOption option => s!"error: '{option}' cannot be used multiple times"
  | .unexpected word => s!"error: unexpected argument '{word}'"

/-- A word of a command line. -/
inductive Word where
  /-- The word `--`, after which no word is an option. -/
  | separator
  | long (name : String) (value : Option String)
  | short (letter : Char) (value : Option String)
  | plain
deriving DecidableEq, Inhabited

namespace Word

/-- The text after an equals sign, if there is one. -/
def attached : List Char → Option String
  | '=' :: value => some (String.ofList value)
  | _ => none

def ofString (s : String) : Word :=
  match s.toList with
  | ['-', '-'] => .separator
  | '-' :: '-' :: rest =>
    .long (String.ofList (rest.takeWhile (· ≠ '='))) (attached (rest.dropWhile (· ≠ '=')))
  | ['-', letter] => .short letter none
  | '-' :: letter :: rest => .short letter (attached rest <|> some (String.ofList rest))
  | _ => .plain

/-- Can a word be the value of the option before it? -/
def isValue (s : String) : Bool := ofString s = .plain

end Word

/-- Sets a flag that was not set before and has no value. -/
def setFlag (word : String) (value : Option String) (current : Bool) : Except UsageError Bool :=
  if value.isSome then .error (.unexpected word)
  else if current then .error (.repeatedOption word)
  else .ok true

/-- Sets the one path of a command. -/
def setPath (word : String) (current : Option String) : Except UsageError (Option String) :=
  if current.isSome then .error (.unexpected word) else .ok (some word)

/-- Sets an option that may be given once. -/
def setOnce (option value : String) (current : Option String) :
    Except UsageError (Option String) :=
  if current.isSome then .error (.repeatedOption option) else .ok (some value)

/-- The words of a `parse` command, `plain` once options have ended. -/
def parseRequest (plain : Bool) (o : ParseOptions) : List String → Except UsageError Request
  | [] =>
    match o.file with
    | some file => .ok (.parse file o)
    | none => .error .missingPath
  | word :: rest =>
    match if plain then Word.plain else Word.ofString word with
    | .separator => parseRequest true o rest
    | .plain => do parseRequest plain { o with file := ← setPath word o.file } rest
    | .long "help" none | .short 'h' _ => .ok .help
    | .long "no-color" v => do
      parseRequest plain { o with noColor := ← setFlag word v o.noColor } rest
    | .long "check" v => do
      parseRequest plain { o with check := ← setFlag word v o.check } rest
    | .long "tokens" v => do
      parseRequest plain { o with tokens := ← setFlag word v o.tokens } rest
    | .long "cst" v => do
      parseRequest plain { o with tree := ← setFlag word v o.tree } rest
    | .long "modifiers" v => do
      parseRequest plain { o with modifiers := ← setFlag word v o.modifiers } rest
    | .long "config" (some value) => do
      parseRequest plain { o with config := ← setOnce word value o.config } rest
    | .long "config" none =>
      match rest with
      | value :: rest =>
        if Word.isValue value then do
          parseRequest plain { o with config := ← setOnce word value o.config } rest
        else .error (.missingValue word)
      | [] => .error (.missingValue word)
    | _ => .error (.unexpected word)

/-- The words of a `test` command, `plain` once options have ended. -/
def testRequest (plain : Bool) (o : TestOptions) : List String → Except UsageError Request
  | [] =>
    match o.path with
    | some path => .ok (.test path o)
    | none => .error .missingPath
  | word :: rest =>
    match if plain then Word.plain else Word.ofString word with
    | .separator => testRequest true o rest
    | .plain => do testRequest plain { o with path := ← setPath word o.path } rest
    | .long "help" none | .short 'h' _ => .ok .help
    | .long "no-color" v => do
      testRequest plain { o with noColor := ← setFlag word v o.noColor } rest
    | .long "list-categories" v => do
      testRequest plain { o with listCategories := ← setFlag word v o.listCategories } rest
    | .long "category" (some value) | .short 'c' (some value) =>
      testRequest plain { o with categories := o.categories ++ [value] } rest
    | .long "category" none | .short 'c' none =>
      match rest with
      | value :: rest =>
        if Word.isValue value then
          testRequest plain { o with categories := o.categories ++ [value] } rest
        else .error (.missingValue word)
      | [] => .error (.missingValue word)
    | _ => .error (.unexpected word)

/-- The words in front of a command, and the command. `colorless` tells whether `--no-color` was
among the words before. -/
def commandRequest (colorless : Bool) : List String → Except UsageError Request
  | [] => .error .missingCommand
  | word :: rest =>
    match Word.ofString word with
    | .plain =>
      if word = "parse" then parseRequest false default rest |>.map (withoutColor colorless)
      else if word = "test" then testRequest false default rest |>.map (withoutColor colorless)
      else if word = "help" then .ok .help
      else .error (.unexpected word)
    | .long "help" none | .short 'h' _ => .ok .help
    | .long "version" none | .short 'V' _ => .ok .version
    | .long "no-color" v => do commandRequest (← setFlag word v colorless) rest
    | _ => .error (.unexpected word)
where
  /-- A request for which `--no-color` may also have been given in front of its command. -/
  withoutColor (colorless : Bool) : Request → Request
    | .parse file o => .parse file { o with noColor := o.noColor || colorless }
    | .test path o => .test path { o with noColor := o.noColor || colorless }
    | request => request

/-- The names of commands. -/
def commandNames : List String := ["parse", "test", "help"]

/-- Puts the command `parse` in front of the first word that is no option, unless that word names
a command. -/
def withCommand : List String → List String
  | [] => []
  | word :: rest =>
    if word.startsWith "-" then word :: withCommand rest
    else if commandNames.contains word then word :: rest
    else "parse" :: word :: rest

/-- What a command line asks for. -/
def Request.ofArguments (words : List String) : Except UsageError Request :=
  commandRequest false (withCommand words)

end BlockNotation
