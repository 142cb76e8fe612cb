import BlockNotation.Repetition
import BlockNotation.Toml.Value

/-!
# Reading TOML

A reader of TOML text: comments, bare, quoted and dotted keys, the four kinds of string, integers
in four bases, floating-point numbers, dates and times, booleans, arrays, inline tables, and the
headers of tables and of arrays of tables.
Lines end in a line feed, or in a carriage return and a line feed. `read` gives the table of a
whole document.
-/

namespace BlockNotation.Toml

/-- A reader takes characters off the front of a text. -/
abbrev Reader := StateT (List Char) (Except Error)

namespace Reader

def malformed {α : Type} : Reader α := fun _ => .error .malformed

def many {α : Type} (p : Reader (Option α)) : Reader (List α) := repetition List.length p

/-- The next character, which stays in place. -/
def peek : Reader (Option Char) := return (← get).head?

/-- Takes as many characters as have a property. -/
def takeWhile (p : Char → Bool) : Reader (List Char) := fun cs =>
  .ok (cs.takeWhile p, cs.dropWhile p)

/-- Takes a given text if it stands here. -/
def take? (text : String) : Reader Bool := fun cs =>
  if text.toList.isPrefixOf cs then .ok (true, cs.drop text.length) else .ok (false, cs)

/-- Takes a given text. -/
def take (text : String) : Reader Unit := do
  if !(← take? text) then malformed

/-- Takes the next character, whatever it is. -/
def takeAny : Reader Char := fun cs =>
  match cs with
  | [] => .error .malformed
  | c :: rest => .ok (c, rest)

def isSpace (c : Char) : Bool := c = ' ' || c = '\t'

def skipSpace : Reader Unit := do
  let _ ← takeWhile isSpace

/-- Characters that may stand in a comment or a string: all but controls, a tab apart. -/
def isPlain (c : Char) : Bool := c = '\t' || (' ' ≤ c && c ≠ '\x7f')

/-- Takes a line end if there is one. -/
def newline? : Reader Bool := do
  if ← take? "\n" then return true else take? "\r\n"

/-- Takes a comment, which begins with `#`, up to the end of its line. -/
def comment : Reader Unit := do
  let _ ← takeWhile isPlain

/-- Takes what may stand between a statement and the end of its line, and that end. -/
def lineEnd : Reader Unit := do
  skipSpace
  if (← peek) = some '#' then comment
  if (← peek).isNone then return
  if !(← newline?) then malformed

/-- White space, line ends and comments between the items of an array. -/
def filler? : Reader (Option Unit) := do
  match ← peek with
  | some '#' =>
    comment
    if ← newline? then return some () else malformed
  | some c =>
    if isSpace c then
      skipSpace
      return some ()
    else if ← newline? then return some ()
    else return none
  | none => return none

def skipFiller : Reader Unit := do
  let _ ← many filler?

/-! ## Strings -/

def hexValue? (c : Char) : Option Nat :=
  if c.isDigit then some (c.toNat - '0'.toNat)
  else if 'a' ≤ c.toLower && c.toLower ≤ 'f' then some (c.toLower.toNat - 'a'.toNat + 10)
  else none

/-- The number that digits write in a base. -/
def number (base : Nat) (digits : List Nat) : Nat := digits.foldl (fun n d => n * base + d) 0

/-- The character with a number written in a fixed count of hexadecimal digits. -/
def numberedChar (count : Nat) : Reader Char := fun cs =>
  match (cs.take count).mapM hexValue? with
  | some digits =>
    let n := number 16 digits
    if digits.length = count && n.isValidChar then .ok (Char.ofNat n, cs.drop count)
    else .error .malformed
  | none => .error .malformed

/-- The character that an escape stands for, after its backslash. -/
def escape : Reader Char := do
  match ← takeAny with
  | 'b' => return '\x08'
  | 't' => return '\t'
  | 'n' => return '\n'
  | 'f' => return '\x0c'
  | 'r' => return '\r'
  | '"' => return '"'
  | '\\' => return '\\'
  | 'u' => numberedChar 4
  | 'U' => numberedChar 8
  | _ => malformed

/-- The next character of a string on one line, none at its end. Only double quotes allow
escapes. -/
def lineChar? (mark : Char) : Reader (Option Char) := do
  let c ← takeAny
  if c = mark then return none
  else if c = '\\' && mark = '"' then return some (← escape)
  else if isPlain c then return some c
  else malformed

/-- A backslash at the end of a line joins it with the next text. -/
def joinedLines? : Reader Bool := do
  let before ← get
  skipSpace
  if ← newline? then
    let _ ← many do
      match ← peek with
      | some c =>
        if isSpace c then
          skipSpace
          return some ()
        else if ← newline? then return some ()
        else return none
      | none => return none
    return true
  else
    set before
    return false

/-- The next characters of a string over several lines, none at its end. Up to two quotes may
stand inside it or right before its end. -/
def blockChars? (mark : Char) : Reader (Option (List Char)) := do
  let quotes := ((← get).takeWhile (· = mark)).length
  if quotes = 3 then
    set ((← get).drop 3)
    return none
  else if 0 < quotes then
    if 5 < quotes then malformed
    let kept := if quotes < 3 then quotes else quotes - 3
    set ((← get).drop kept)
    return some (List.replicate kept mark)
  else if ← newline? then return some ['\n']
  else
    let c ← takeAny
    if c = '\\' && mark = '"' then
      if ← joinedLines? then return some [] else return some [← escape]
    else if isPlain c then return some [c]
    else malformed

/-- A string in quotes of one kind, single or triple. -/
def quoted (mark : Char) : Reader String := do
  if ← take? (String.ofList [mark, mark, mark]) then
    let _ ← newline?
    return String.ofList (← many (blockChars? mark)).flatten
  else
    take (String.ofList [mark])
    return String.ofList (← many (lineChar? mark))

/-! ## Keys -/

def isBare (c : Char) : Bool := c.isAlphanum || c = '_' || c = '-'

/-- A key without dots. -/
def simpleKey : Reader String := do
  match ← peek with
  | some '"' =>
    take "\""
    return String.ofList (← many (lineChar? '"'))
  | some '\'' =>
    take "'"
    return String.ofList (← many (lineChar? '\''))
  | _ =>
    let name ← takeWhile isBare
    if name.isEmpty then malformed else return String.ofList name

/-- A dot and the part of a key after it. -/
def nextKey? : Reader (Option String) := do
  skipSpace
  if ← take? "." then
    skipSpace
    return some (← simpleKey)
  else return none

/-- The deepest nesting of arrays and inline tables, and the greatest number of parts of a key. -/
def maxLevels : Nat := 79

/-- A key, whose parts are joined by dots. -/
def key : Reader (List String) := do
  let first ← simpleKey
  let parts := first :: (← many nextKey?)
  if parts.length ≤ maxLevels then return parts else malformed

/-! ## Values -/

/-- Digits in a base, with single underscores between them. -/
def digits (base : Nat) : Reader (List Nat) := fun cs =>
  go cs
where
  /-- Digits, after which an underscore must be followed by another digit. -/
  go : List Char → Except Error (List Nat × List Char)
    | [] => .error .malformed
    | c :: rest =>
      match (hexValue? c).filter (· < base) with
      | none => .error .malformed
      | some d =>
        match rest with
        | '_' :: rest => (go rest).map fun (ds, rest) => (d :: ds, rest)
        | e :: rest' =>
          if ((hexValue? e).filter (· < base)).isSome then
            (go (e :: rest')).map fun (ds, rest) => (d :: ds, rest)
          else .ok ([d], e :: rest')
        | [] => .ok ([d], [])

/-- A decimal number without superfluous zeros in front. -/
def decimal : Reader Nat := do
  if ← take? "0" then return 0 else return number 10 (← digits 10)

/-- An integer that fits in 64 bits with its sign. -/
def integer : Reader Int := do
  let n ← if ← take? "0x" then Int.ofNat <$> (number 16 <$> digits 16)
    else if ← take? "0o" then Int.ofNat <$> (number 8 <$> digits 8)
    else if ← take? "0b" then Int.ofNat <$> (number 2 <$> digits 2)
    else if ← take? "-" then (fun n => -Int.ofNat n) <$> decimal
    else do
      let _ ← take? "+"
      Int.ofNat <$> decimal
  if -0x8000000000000000 ≤ n && n < 0x8000000000000000 then return n else malformed

/-- The digits behind the point of a number, and the exponent behind its mark. -/
def fraction? : Reader Bool := do
  if ← take? "." then
    let _ ← digits 10
    return true
  else return false

def exponent? : Reader Bool := do
  if (← take? "e") || (← take? "E") then
    if !(← take? "-") then
      let _ ← take? "+"
    let _ ← digits 10
    return true
  else return false

/-- A number with a fraction, an exponent or both, or what stands for one that is no number or
not finite. -/
def float : Reader Unit := do
  if !(← take? "-") then
    let _ ← take? "+"
  if (← take? "inf") || (← take? "nan") then return
  let _ ← decimal
  let fraction ← fraction?
  let exponent ← exponent?
  if !fraction && !exponent then malformed

/-! ## Dates and times -/

/-- A number in a range, written in a fixed count of digits. -/
def bounded (count least most : Nat) : Reader Nat := fun cs =>
  let written := cs.take count
  let n := number 10 (written.map fun c => c.toNat - '0'.toNat)
  if written.length = count && written.all Char.isDigit && least ≤ n && n ≤ most then
    .ok (n, cs.drop count)
  else .error .malformed

def daysIn (year month : Nat) : Nat :=
  if month = 2 then
    if year % 4 = 0 && (year % 100 ≠ 0 || year % 400 = 0) then 29 else 28
  else if [4, 6, 9, 11].contains month then 30
  else 31

def date : Reader Unit := do
  let year ← bounded 4 0 9999
  take "-"
  let month ← bounded 2 1 12
  take "-"
  let _ ← bounded 2 1 (daysIn year month)

/-- A time of day to the second, which may be a leap second, or to a part of it. -/
def time : Reader Unit := do
  let _ ← bounded 2 0 23
  take ":"
  let _ ← bounded 2 0 59
  take ":"
  let _ ← bounded 2 0 60
  if ← take? "." then
    if (← takeWhile Char.isDigit).isEmpty then malformed

/-- The distance of a time from universal time, which may be left out. -/
def offset? : Reader Unit := do
  if (← take? "Z") || (← take? "z") then return
  if (← take? "+") || (← take? "-") then
    let _ ← bounded 2 0 23
    take ":"
    let _ ← bounded 2 0 59

/-- What may follow a date: a mark or a blank, a time and its offset. -/
def timeOfDate : Reader Unit := do
  if !((← take? "T") || (← take? "t") || (← take? " ")) then malformed
  time
  offset?

/-- A date, a time, or both. -/
def moment : Reader Unit := do
  if (← tryCatch (some <$> date) fun _ => return none).isSome then
    tryCatch timeOfDate fun _ => return
  else time

/-- A value that holds no other. -/
def scalar : Reader Value := do
  match ← peek with
  | some '"' => return .text (← quoted '"')
  | some '\'' => return .text (← quoted '\'')
  | some 't' =>
    take "true"
    return .boolean true
  | some 'f' =>
    take "false"
    return .boolean false
  | _ => tryCatch (moment *> return .unused) fun _ => tryCatch (float *> return .unused) fun _ =>
    return .integer (← integer)

/-- A key, an equals sign and a value. -/
def keyValue (value : Reader Value) : Reader (List String × Value) := do
  let key ← key
  skipSpace
  take "="
  skipSpace
  return (key, ← value)

/-- The next item of an array, with the comma after it. -/
def item? (value : Reader Value) : Reader (Option Value) := do
  skipFiller
  if (← peek) = some ']' then return none
  let v ← value
  skipFiller
  if (← peek) = some ']' then return some v
  take ","
  return some v

def array (value : Reader Value) : Reader Value := do
  take "["
  let items ← many (item? value)
  take "]"
  return .array items

/-- A comma and the next entry of an inline table. -/
def nextPair? (value : Reader Value) : Reader (Option (List String × Value)) := do
  skipSpace
  if ← take? "," then
    skipSpace
    return some (← keyValue value)
  else return none

/-- A table on one line, in braces. -/
def inlineTable (value : Reader Value) : Reader Value := do
  take "\x7b"
  skipSpace
  if ← take? "\x7d" then return .table []
  let first ← keyValue value
  let later ← many (nextPair? value)
  skipSpace
  take "\x7d"
  let entries ← liftM (Entries.addAll [] (first :: later))
  return .table (Node.valuesOf entries)

/-- A value in which at most `levels` arrays and inline tables are open at once. -/
def value : Nat → Reader Value
  | 0 => scalar
  | levels + 1 => do
    match ← peek with
    | some '[' => array (value levels)
    | some '\x7b' => inlineTable (value levels)
    | _ => scalar

/-! ## Documents -/

/-- A line of a document that says something. -/
inductive Statement where
  | entry (key : List String) (value : Value)
  | header (key : List String) (repeated : Bool)

def header : Reader Statement := do
  let repeated ← take? "[["
  if !repeated then take "["
  skipSpace
  let key ← key
  skipSpace
  take (if repeated then "]]" else "]")
  return .header key repeated

/-- The next line of a document, none at its end. -/
def line? : Reader (Option (Option Statement)) := do
  skipSpace
  match ← peek with
  | none => return none
  | some c =>
    let statement ←
      if c = '\n' || c = '\r' || c = '#' then pure none
      else if c = '[' then some <$> header
      else do
        let (key, v) ← keyValue (value maxLevels)
        pure (some (.entry key v))
    lineEnd
    return some statement

end Reader

/-- Sorts statements into those in front of the first header and those below each. -/
def sectionsOf : List Reader.Statement → List (List String × Value) × List Section
  | [] => ([], [])
  | .entry key v :: statements =>
    let (lines, sections) := sectionsOf statements
    ((key, v) :: lines, sections)
  | .header key repeated :: statements =>
    let (lines, sections) := sectionsOf statements
    ([], ⟨key, repeated, lines⟩ :: sections)

/-- The table that a text writes. A byte order mark in front is skipped. -/
def read (text : String) : Except Error (List (String × Value)) := do
  let cs := match text.toList with
    | '\uFEFF' :: cs => cs
    | cs => cs
  let (statements, _) ← Reader.many Reader.line? cs
  let (lines, sections) := sectionsOf (statements.filterMap id)
  tableOf lines sections

end BlockNotation.Toml
