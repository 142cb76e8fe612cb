import BlockNotation.Repetition
import BlockNotation.Script.Error

/-!
# Parsers over a token list

A parser reads tokens from a cursor and gives a value or fails. A parser of something that may be
absent gives `none` and takes no token when the next token cannot begin it. Every test of the next
token leaves the kinds it looked for in the cursor, so that at a token nobody could use, the kinds
that would have been useful there are known.
-/

namespace BlockNotation

/-- A point in a token list, and what a parser has learned on the way there. -/
structure Cursor where
  /-- The tokens still to be read. -/
  rest : List Token
  /-- The number of tokens still to be read. -/
  ahead : Nat
  ahead_eq : ahead = rest.length
  /-- The number of tokens taken. -/
  index : Nat
  /-- Where the last token taken ends. -/
  lastEnd : Nat
  /-- The kinds looked for at the next token. -/
  tried : List Kind
deriving DecidableEq

namespace Cursor

/-- Where the next construct starts, given where the last token ended. -/
def startOf (lastEnd : Nat) : List Token → Nat
  | [] => lastEnd
  | t :: _ => t.span.start

/-- The start of a token list. -/
def ofTokens (tokens : List Token) : Cursor where
  rest := tokens
  ahead := tokens.length
  ahead_eq := rfl
  index := 0
  lastEnd := startOf 0 tokens
  tried := []

/-- Where the next construct starts. -/
def start (s : Cursor) : Nat := startOf s.lastEnd s.rest

/-- The span of the next token; empty at the end of the input. -/
def nextSpan (s : Cursor) : Span :=
  match s.rest with
  | [] => ⟨s.lastEnd, s.lastEnd⟩
  | t :: _ => t.span

/-- The next token and the cursor after it. -/
def next? : Cursor → Option (Token × Cursor)
  | ⟨[], _, _, _, _, _⟩ => none
  | ⟨t :: rest, ahead, h, index, _, _⟩ =>
    some (t, ⟨rest, ahead - 1, by simp [h], index + 1, t.span.stop, []⟩)

/-- Remembers that some kinds were looked for at the next token. -/
def note (s : Cursor) (kinds : List Kind) : Cursor := { s with tried := s.tried ++ kinds }

end Cursor

/-- What went wrong in the grammar's terms. -/
inductive Cause where
  | unexpected (rule : Rule) (expected : List Kind) (endOfInput : Bool)
  | tooDeep (rule : Rule)
deriving DecidableEq, Inhabited

/-- A failure at the next token, after `index` tokens were taken. -/
structure Failure where
  cause : Cause
  index : Nat
  found : Option Token
  span : Span
deriving DecidableEq, Inhabited

/-- The error that a failure under a nesting limit amounts to. -/
def Failure.toError (limit : Nat) (f : Failure) : ParseError :=
  match f.cause with
  | .unexpected rule expected endOfInput =>
    .unexpected ⟨rule, expected, endOfInput, f.found, f.span⟩
  | .tooDeep rule => .tooDeep ⟨rule, limit, f.found, f.span⟩

abbrev Parser := StateT Cursor (Except Failure)

namespace Parser

/-- Fails at the next token. -/
def fail {α : Type} (cause : Cause) : Parser α := fun s =>
  .error ⟨cause, s.index, s.rest.head?, s.nextSpan⟩

/-- Takes the next token if it is of one of some kinds. -/
def takeAny (kinds : List Kind) : Parser (Option Token) := fun s =>
  match s.next? with
  | none => .ok (none, s.note kinds)
  | some (t, s') =>
    if kinds.contains t.kind then .ok (some t, s') else .ok (none, s.note kinds)

/-- Takes the next token if it is of a kind. -/
def take? (kind : Kind) : Parser (Option Token) := takeAny [kind]

/-- Takes a token of a kind that a rule demands. -/
def take (rule : Rule) (kind : Kind) : Parser Token := do
  match ← take? kind with
  | some token => return token
  | none => fail (.unexpected rule [kind] false)

/-- Is the next token of a kind? -/
def sees (kind : Kind) : Parser Bool := fun s =>
  .ok ((s.rest.head?.map (·.kind)) = some kind, s.note [kind])

/-- Remembers that some kinds were looked for at the next token. -/
def note (kinds : List Kind) : Parser Unit := modify (·.note kinds)

/-- Where the next construct starts. -/
def start : Parser Nat := return (← get).start

/-- Where the last token taken ends. -/
def lastEnd : Parser Nat := return (← get).lastEnd

/-- Repeats a parser until it gives nothing. A round that takes no token is the last. -/
def many {α : Type} (p : Parser (Option α)) : Parser (List α) := repetition Cursor.ahead p

end Parser

end BlockNotation
