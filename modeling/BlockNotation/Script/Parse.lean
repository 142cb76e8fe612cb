import BlockNotation.Grammar.Script
import BlockNotation.Script.Cursor
import BlockNotation.Script.Tree

/-!
# Reading scripts

A predictive parser for the script grammar. The parsers of nested structures are given the parsers
of what they nest. Clauses, expressions and predicates count as levels of nesting: `Parser.brackets`
and `Parser.clause` nest themselves as long as there are levels left, and fail with none left.
`parseTokens` allows `maxNesting` levels, `parseTokensWithin` any number.

A parser whose name ends in a question mark gives `none`, and takes nothing, when the next token
cannot begin what it reads.
-/

namespace BlockNotation

namespace Shape

def rule : Shape → Rule
  | .round => .expression
  | .angle => .predicate

def opening : Shape → Kind
  | .round => .openRound
  | .angle => .openAngle

def closing : Shape → Kind
  | .round => .closeRound
  | .angle => .closeAngle

end Shape

namespace Parser

/-! ## Atomic blocks

The parsers of this section read brackets with a parser they are given. -/

section Atomic

variable (brackets : Shape → Parser Brackets)

/-- Brackets of a shape. -/
def brackets? (shape : Shape) : Parser (Option Brackets) := do
  if ← sees shape.opening then return some (← brackets shape) else return none

/-- A literal, or an atomic block in brackets. -/
def value? : Parser (Option Value) := do
  match ← takeAny Family.literal.kinds with
  | some token => return some (.literal token)
  | none =>
    match ← brackets? brackets .round with
    | some expression => return some (.bracketed .round expression)
    | none => return (← brackets? brackets .angle).map (.bracketed .angle)

/-- A value, or braces around an optional value and an optional identifier. -/
def argument? : Parser (Option Argument) := do
  match ← take? .openCurly with
  | some opening =>
    let value ← value? brackets
    let id ← take? .identifier
    let closing ← take .argument .closeCurly
    return some (.curly opening value id closing)
  | none => return (← value? brackets).map .bare

/-- An argument that a rule demands. -/
def argument : Parser Argument := do
  match ← argument? brackets with
  | some argument => return argument
  | none => fail (.unexpected .argument Rule.argument.lead false)

/-- A predicate, or braces around an optional predicate and an optional identifier. -/
def condition? : Parser (Option Condition) := do
  match ← take? .openCurly with
  | some opening =>
    let predicate ← brackets? brackets .angle
    let id ← take? .identifier
    let closing ← take .condition .closeCurly
    return some (.curly opening predicate id closing)
  | none => return (← brackets? brackets .angle).map .bare

/-- A condition that a rule demands. -/
def condition : Parser Condition := do
  match ← condition? brackets with
  | some condition => return condition
  | none => fail (.unexpected .condition Rule.condition.lead false)

/-- A label or an argument. -/
def element? : Parser (Option Element) := do
  match ← take? .label with
  | some token => return some (.label token)
  | none => return (← argument? brackets).map .argument

/-- The mark `::` and a label. -/
def modifier? : Parser (Option Modifier) := do
  match ← take? .doubleColon with
  | some marker =>
    let label ← take .modifier .label
    return some ⟨marker, label⟩
  | none => return none

/-- A remark and an identifier, in either order. -/
def annotations? : Parser (Option Annotations) := do
  match ← take? .remark with
  | some remark => return some (.remark remark (← take? .identifier))
  | none =>
    match ← take? .identifier with
    | some id => return some (.identified id (← take? .remark))
    | none => return none

/-- Elements, then an optional modifier and optional annotations. -/
def atomic? : Parser (Option Atomic) := do
  let start ← start
  let elements ← many (element? brackets)
  if elements.isEmpty then return none
  else
    let modifier ← modifier?
    let annotations ← annotations?
    return some ⟨elements, modifier, annotations, ⟨start, ← lastEnd⟩⟩

end Atomic

/-- Brackets of a shape around what another parser reads. -/
def bracketsOf (atomic : Parser (Option Atomic)) (shape : Shape) : Parser Brackets := do
  let opening ← take shape.rule shape.opening
  let atomic ← atomic
  let closing ← take shape.rule shape.closing
  return ⟨opening, atomic, closing⟩

/-! ## Stacks

The parsers of this section read brackets and clauses with parsers they are given. -/

section Stack

variable (brackets : Shape → Parser Brackets) (clause : Parser Clause)

/-- The word `else` and a clause. -/
def elseBranch? : Parser (Option ElseBranch) := do
  match ← take? .elseWord with
  | some keyword => return some ⟨keyword, ← clause⟩
  | none => return none

def ifElse? : Parser (Option Composite) := do
  let start ← start
  match ← take? .ifWord with
  | some keyword =>
    let condition ← condition brackets
    let thenWord ← take? .thenWord
    let annotations ← annotations?
    let body ← clause
    let otherwise ← elseBranch? clause
    return some
      (.ifElse keyword condition thenWord annotations body otherwise ⟨start, ← lastEnd⟩)
  | none => return none

/-- A keyword, what the loop depends on, annotations and the clause that is repeated. -/
def loop? {α : Type} (word : Kind) (head : Parser α)
    (make : Token → α → Option Annotations → Clause → Span → Composite) :
    Parser (Option Composite) := do
  let start ← start
  match ← take? word with
  | some keyword =>
    let head ← head
    let annotations ← annotations?
    let body ← clause
    return some (make keyword head annotations body ⟨start, ← lastEnd⟩)
  | none => return none

/-- A loop that depends on nothing. -/
def forever? : Parser (Option Composite) :=
  loop? clause .foreverWord (return ()) fun keyword _ => .forever keyword

def repeatTimes? : Parser (Option Composite) :=
  loop? clause .repeatWord (argument brackets) .repeatTimes

def repeatUntil? : Parser (Option Composite) :=
  loop? clause .repeatUntilWord (condition brackets) .repeatUntil

/-- A control structure. -/
def composite? : Parser (Option Composite) := do
  match ← ifElse? brackets clause with
  | some composite => return some composite
  | none =>
    match ← forever? clause with
    | some composite => return some composite
    | none =>
      match ← repeatTimes? brackets clause with
      | some composite => return some composite
      | none => repeatUntil? brackets clause

def block? : Parser (Option Block) := do
  match ← atomic? brackets with
  | some atomic => return some (.atomic atomic)
  | none => return (← composite? brackets clause).map .composite

/-- Is the next token a delimiter and the one after it the beginning of a block? -/
def seesNextBlock : Parser Bool := fun s =>
  .ok (match s.rest with
    | t :: u :: _ => t.kind = .delimiter && Rule.block.lead.contains u.kind
    | _ => false, s.note [.delimiter])

/-- A delimiter and the block that follows it. -/
def nextBlock? : Parser (Option Block) := do
  if ← seesNextBlock then
    let _ ← take? .delimiter
    block? brackets clause
  else return none

/-- The delimiter after the last block of a stack. What could have followed it is a block. -/
def trailingDelimiter : Parser Unit := do
  match ← take? .delimiter with
  | some _ => note Rule.block.lead
  | none => return ()

/-- Blocks with a delimiter between each two, and perhaps one more after the last. -/
def stack? : Parser (Option Stack) := do
  let start ← start
  match ← block? brackets clause with
  | some first =>
    let later ← many (nextBlock? brackets clause)
    let stop ← lastEnd
    trailingDelimiter
    return some ⟨first :: later, ⟨start, stop⟩⟩
  | none => return none

end Stack

/-- A delimiter, what another parser reads, and `end`, each of them optional. -/
def clauseOf (stack : Parser (Option Stack)) : Parser Clause := do
  let delimiter ← take? .delimiter
  let body ← stack
  let closing ← take? .endWord
  return ⟨delimiter, body, closing⟩

/-! ## Scripts

The parsers of this section read stacks with a parser they are given. -/

/-- The next remark after any number of delimiters. -/
def nextRemark? : Parser (Option Token) := do
  let _ ← many (take? .delimiter)
  take? .remark

/-- Remarks, each followed by any number of delimiters. -/
def comments? : Parser (Option Comments) := do
  match ← take? .remark with
  | some first =>
    let later ← many nextRemark?
    let last := (later.getLast?).getD first
    return some ⟨first :: later, ⟨first.span.start, last.span.stop⟩⟩
  | none => return none

/-- A delimiter, which leaves nothing in the tree, or a run of remarks. -/
def separator? : Parser (Option (List Segment)) := do
  match ← take? .delimiter with
  | some _ => return some []
  | none => return (← comments?).map fun comments => [.comments comments]

/-- The end of the input. In front of a token, all kinds looked for there would have been
accepted. -/
def finish : Parser Unit := do
  let s ← get
  if s.rest.isEmpty then return () else fail (.unexpected .code (Kind.sorted s.tried) true)

section Script

variable (stack : Parser (Option Stack))

/-- One or more separators, and the stack after them if there is one. -/
def nextSegments? : Parser (Option (List Segment)) := do
  let separators ← many separator?
  if separators.isEmpty then return none
  else
    let stack ← stack
    return some (separators.flatten ++ (stack.map Segment.stack).toList)

/-- Stacks with separators between them. -/
def segments : Parser (List Segment) := do
  match ← stack with
  | some first => return .stack first :: (← many (nextSegments? stack)).flatten
  | none => return []

/-- Leading delimiters and remarks, then stacks with separators between them. -/
def code (sourceId : Nat) : Parser Code := do
  let start ← start
  let _ ← many (take? .delimiter)
  let comments ← comments?
  let segments ← segments stack
  return ⟨comments, segments, ⟨start, max (← lastEnd) start⟩, sourceId⟩

/-- A whole script and nothing after it. -/
def scriptOf (sourceId : Nat) : Parser Code := do
  let code ← code stack sourceId
  finish
  return code

end Script

/-! ## Levels of nesting -/

/-- Brackets around an optional atomic block, which take up one of the levels that may be opened. -/
def brackets : Nat → Shape → Parser Brackets
  | 0, shape => fail (.tooDeep shape.rule)
  | levels + 1, shape => bracketsOf (atomic? (brackets levels)) shape

/-- A clause around an optional stack, which takes up one of the levels that may be opened. -/
def clause : Nat → Parser Clause
  | 0 => fail (.tooDeep .clause)
  | levels + 1 => clauseOf (stack? (brackets levels) (clause levels))

/-- A stack in which some levels may be opened. -/
def stackWithin? (levels : Nat) : Parser (Option Stack) :=
  stack? (brackets levels) (clause levels)

/-- A script in which some levels may be open at once. -/
def script (levels sourceId : Nat) : Parser Code := scriptOf (stackWithin? levels) sourceId

end Parser

/-- The deepest nesting of clauses, expressions and predicates, counted together. -/
def maxNesting : Nat := 32

/-- The script of a token list, in which at most `limit` levels are open at once. -/
def parseTokensWithin (limit : Nat) (tokens : List Token) (sourceId : Nat) :
    Except ParseError Code :=
  match Parser.script limit sourceId (.ofTokens tokens) with
  | .ok (code, _) => .ok code
  | .error failure => .error (failure.toError limit)

/-- The script of a token list. -/
def parseTokens (tokens : List Token) (sourceId : Nat) : Except ParseError Code :=
  parseTokensWithin maxNesting tokens sourceId

/-- The script of a source text. -/
def parse (source : String) (sourceId : Nat) : Except ParseError Code :=
  match tokenize source with
  | .error error => .error (.lexical error)
  | .ok tokens => parseTokens tokens sourceId

end BlockNotation
