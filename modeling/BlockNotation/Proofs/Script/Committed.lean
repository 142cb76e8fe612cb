import BlockNotation.Script.Parse

/-!
# Parsers that test first and demand then

A parser can also be written so that it asks the table whether the next token begins a rule, and
if so demands what the rule consists of. What it demands then is there, so that wherever it looks
again it finds what the test has promised. `Committed.script` is written this way, with a failure
`dead` of any kind at each point where the promise would be broken: an opening token, a block, a
control structure, an element, a value or a remark that is missing.

None of these failures is ever reached: whatever `dead` does, the outcome is that of
`Parser.script` (`Committed.script_eq` in `BlockNotation.Proofs.Script.Promises`).
-/

namespace BlockNotation

namespace Committed

open BlockNotation.Parser (take? takeAny fail start lastEnd many take)

/-- Does a token of one of these kinds come next? -/
def seesAny (kinds : List Kind) : Parser Bool := fun s =>
  .ok (s.rest.head?.any (kinds.contains ·.kind), s.note kinds)

/-- Can the next token begin a rule? -/
def seesRule (rule : Rule) : Parser Bool := seesAny rule.lead

/-- What is demanded of a rule, where the next token can begin it. -/
def ifSeen {α : Type} (rule : Rule) (p : Parser α) : Parser (Option α) := do
  if ← seesRule rule then return some (← p) else return none

section Dead

variable (dead : (α : Type) → Rule → List Kind → Parser α)

/-- The token that a rule opens with. -/
def opening (rule : Rule) (kind : Kind) : Parser Token := do
  match ← take? kind with
  | some token => return token
  | none => dead _ rule [kind]

/-! ## Atomic blocks -/

section Atomic

variable (brackets : Shape → Parser Brackets)

/-- Can the next token begin a value? -/
def seesValue : Parser Bool := do
  if ← seesAny Family.literal.kinds then return true
  else if ← seesRule .expression then return true
  else seesRule .predicate

def value : Parser Value := do
  if ← seesRule .expression then return .bracketed .round (← brackets .round)
  else if ← seesRule .predicate then return .bracketed .angle (← brackets .angle)
  else
    match ← takeAny Family.literal.kinds with
    | some token => return .literal token
    | none => dead _ .argument Rule.argument.lead

def value? : Parser (Option Value) := do
  if ← seesValue then return some (← value dead brackets) else return none

def argument : Parser Argument := do
  match ← take? .openCurly with
  | some opening =>
    let value ← value? dead brackets
    let id ← take? .identifier
    let closing ← take .argument .closeCurly
    return .curly opening value id closing
  | none =>
    match ← value? dead brackets with
    | some value => return .bare value
    | none => fail (.unexpected .argument Rule.argument.lead false)

def condition : Parser Condition := do
  match ← take? .openCurly with
  | some opening =>
    let predicate ← ifSeen .predicate (brackets .angle)
    let id ← take? .identifier
    let closing ← take .condition .closeCurly
    return .curly opening predicate id closing
  | none =>
    match ← ifSeen .predicate (brackets .angle) with
    | some predicate => return .bare predicate
    | none => fail (.unexpected .condition Rule.condition.lead false)

def element? : Parser (Option Element) := do
  match ← take? .label with
  | some token => return some (.label token)
  | none => return (← ifSeen .argument (argument dead brackets)).map .argument

def atomic : Parser Atomic := do
  let start ← start
  let elements ← many (element? dead brackets)
  if elements.isEmpty then dead _ .atomic Rule.atomic.lead
  else
    let modifier ← Parser.modifier?
    let annotations ← Parser.annotations?
    return ⟨elements, modifier, annotations, ⟨start, ← lastEnd⟩⟩

end Atomic

def brackets (levels : Nat) (shape : Shape) : Parser Brackets :=
  match levels with
  | 0 => fail (.tooDeep shape.rule)
  | levels + 1 => do
    let opening ← opening dead shape.rule shape.opening
    let atomic ← ifSeen .atomic (atomic dead (brackets levels))
    let closing ← take shape.rule shape.closing
    return ⟨opening, atomic, closing⟩

/-! ## Stacks -/

section Stack

variable (levels : Nat) (clause : Parser Clause)

def ifElse : Parser Composite := do
  let start ← start
  let keyword ← opening dead .ifElse .ifWord
  let condition ← condition (brackets dead levels)
  let thenWord ← take? .thenWord
  let annotations ← Parser.annotations?
  let body ← clause
  let otherwise ← Parser.elseBranch? clause
  return .ifElse keyword condition thenWord annotations body otherwise ⟨start, ← lastEnd⟩

/-- A loop, from its keyword on. -/
def loop {α : Type} (rule : Rule) (word : Kind) (head : Parser α)
    (make : Token → α → Option Annotations → Clause → Span → Composite) : Parser Composite := do
  let start ← start
  let keyword ← opening dead rule word
  let head ← head
  let annotations ← Parser.annotations?
  let body ← clause
  return make keyword head annotations body ⟨start, ← lastEnd⟩

def forever : Parser Composite :=
  loop dead clause .forever .foreverWord (return ()) fun keyword _ => .forever keyword

def repeatTimes : Parser Composite :=
  loop dead clause .repeatTimes .repeatWord (argument dead (brackets dead levels)) .repeatTimes

def repeatUntil : Parser Composite :=
  loop dead clause .repeatUntil .repeatUntilWord (condition (brackets dead levels)) .repeatUntil

def composite : Parser Composite := do
  if ← seesRule .ifElse then ifElse dead levels clause
  else if ← seesRule .forever then forever dead clause
  else if ← seesRule .repeatTimes then repeatTimes dead levels clause
  else if ← seesRule .repeatUntil then repeatUntil dead levels clause
  else dead _ .composite Rule.composite.lead

def block : Parser Block := do
  if ← seesRule .atomic then return .atomic (← atomic dead (brackets dead levels))
  else if ← seesRule .composite then return .composite (← composite dead levels clause)
  else dead _ .block Rule.block.lead

def nextBlock? : Parser (Option Block) := do
  if ← Parser.seesNextBlock then
    let _ ← take? .delimiter
    return some (← block dead levels clause)
  else return none

def stack : Parser Stack := do
  let start ← start
  let first ← block dead levels clause
  let later ← many (nextBlock? dead levels clause)
  let stop ← lastEnd
  Parser.trailingDelimiter
  return ⟨first :: later, ⟨start, stop⟩⟩

end Stack

def clause : Nat → Parser Clause
  | 0 => fail (.tooDeep .clause)
  | levels + 1 => do
    let delimiter ← take? .delimiter
    let body ← ifSeen .stack (stack dead levels (clause levels))
    let closing ← take? .endWord
    return ⟨delimiter, body, closing⟩

/-! ## Scripts -/

def comments : Parser Comments := do
  let first ← opening dead .comments .remark
  let later ← many Parser.nextRemark?
  let last := (later.getLast?).getD first
  return ⟨first :: later, ⟨first.span.start, last.span.stop⟩⟩

/-- Does a delimiter or a remark come next? -/
def seesSeparator : Parser Bool := do
  if ← seesAny [.delimiter] then return true else seesRule .comments

def separator : Parser (Option (List Segment)) := do
  match ← take? .delimiter with
  | some _ => return some []
  | none => return some [.comments (← comments dead)]

def separator? : Parser (Option (List Segment)) := do
  if ← seesSeparator then separator dead else return none

def nextSegments? (levels : Nat) : Parser (Option (List Segment)) := do
  if ← seesSeparator then
    let separators ← many (separator? dead)
    let stack ← ifSeen .stack (stack dead levels (clause dead levels))
    return some (separators.flatten ++ (stack.map Segment.stack).toList)
  else return none

def segments (levels : Nat) : Parser (List Segment) := do
  match ← ifSeen .stack (stack dead levels (clause dead levels)) with
  | some first => return .stack first :: (← many (nextSegments? dead levels)).flatten
  | none => return []

def code (levels sourceId : Nat) : Parser Code := do
  let start ← start
  let _ ← many (take? .delimiter)
  let comments ← ifSeen .comments (comments dead)
  let segments ← segments dead levels
  return ⟨comments, segments, ⟨start, max (← lastEnd) start⟩, sourceId⟩

def script (levels sourceId : Nat) : Parser Code := do
  let code ← code dead levels sourceId
  Parser.finish
  return code

end Dead

end Committed

end BlockNotation
