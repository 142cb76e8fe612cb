import BlockNotation.Diagnostic
import BlockNotation.Grammar.Table
import BlockNotation.Token.Stream

/-!
# Errors of reading a script

Reading fails for one of four reasons: the grammar itself is inconsistent, some text is no token,
a token stands where the grammar does not allow it, or blocks are nested too deeply. All wording
is here.
-/

namespace BlockNotation

/-- The words for a list of things that would have been accepted. -/
def oneOf : List String → String
  | [] => "nothing"
  | [only] => only
  | several => "one of " ++ ", ".intercalate several

def GrammarError.message : GrammarError → String
  | .duplicateRule r => s!"grammar rule `{r.describe}` is defined more than once"
  | .undefinedRule r (some parent) =>
    s!"grammar rule `{parent.describe}` references undefined rule `{r.describe}`"
  | .undefinedRule r none => s!"start rule `{r.describe}` is not defined"
  | .leftRecursion cycle => "left recursion: " ++ " -> ".intercalate (cycle.map Rule.describe)
  | .emptyLoop r =>
    s!"grammar rule `{r.describe}` repeats a body that can match without consuming input"
  | .ambiguousChoice r overlap =>
    s!"ambiguous alternatives in grammar rule `{r.describe}`: both can start with " ++
      oneOf (overlap.map Kind.describe)
  | .nullableAlternatives r =>
    s!"ambiguous alternatives in grammar rule `{r.describe}`: more than one can match nothing"

namespace LexicalError

/-- The first character of what could not be read. -/
def span (e : LexicalError) : Span :=
  ⟨e.place.offset, e.place.offset + byteSize (e.remainder.toList.take 1)⟩

/-- The number of characters an excerpt shows at most. -/
def excerptLength : Nat := 24

/-- The beginning of what could not be read, as far as it stands on one line. -/
def excerpt (e : LexicalError) : String :=
  let line := ((lines e.remainder.toList).head?).getD []
  let shown := String.ofList (line.take excerptLength)
  if excerptLength < line.length then shown ++ "..." else shown

def message (e : LexicalError) : String :=
  s!"unrecognized input at {e.place.position.line}:{e.place.position.column}: `{e.excerpt}`"

end LexicalError

/-- A token, or the end of the input, stands where the grammar does not allow it. -/
structure SyntaxError where
  /-- The rule that was being read. -/
  rule : Rule
  /-- The kinds that would have been accepted. -/
  expected : List Kind
  /-- Would the end of the input have been accepted too? -/
  endOfInput : Bool
  /-- The token found, none at the end of the input. -/
  found : Option Token
  span : Span
deriving DecidableEq, Inhabited

def SyntaxError.message (e : SyntaxError) : String :=
  let found := match e.found with
    | some token => token.quote
    | none => "end of input"
  let accepted :=
    oneOf (e.expected.map Kind.describe ++ if e.endOfInput then ["end of input"] else [])
  let context := if e.expected.isEmpty then "" else " in " ++ e.rule.describe
  s!"expected {accepted}{context}, found {found}"

/-- Clauses, expressions and predicates are nested too deeply. -/
structure NestingError where
  /-- The rule that would have opened one level too many. -/
  rule : Rule
  limit : Nat
  found : Option Token
  span : Span
deriving DecidableEq, Inhabited

def NestingError.message (e : NestingError) : String :=
  s!"{e.rule.describe} nested more than {e.limit} levels deep"

/-- Why a script could not be read. -/
inductive ParseError where
  | grammar (error : GrammarError)
  | lexical (error : LexicalError)
  | unexpected (error : SyntaxError)
  | tooDeep (error : NestingError)
deriving DecidableEq, Inhabited

namespace ParseError

def message : ParseError → String
  | .grammar e => "invalid grammar: " ++ e.message
  | .lexical e => e.message
  | .unexpected e => e.message
  | .tooDeep e => e.message

/-- The part of the source an error is about. -/
def span? : ParseError → Option Span
  | .grammar _ => none
  | .lexical e => some e.span
  | .unexpected e => some e.span
  | .tooDeep e => some e.span

/-- The report of an error in a source file. -/
def toDiagnostic (fileId : Nat) : ParseError → Diagnostic
  | .grammar e =>
    { severity := .error
      message := (ParseError.grammar e).message
      labels := []
      notes := ["the built-in grammar is inconsistent"] }
  | .lexical e => .pointing .error e.message fileId e.span "no token matches here"
  | .unexpected e =>
    .pointing .error e.message fileId e.span
      (if e.found.isSome then "unexpected token" else "unexpected end of input")
  | .tooDeep e => .pointing .error e.message fileId e.span "nesting limit reached here"

end ParseError

end BlockNotation
