import BlockNotation.Script.Tree

/-!
# Views of a script tree

Spans and texts of nodes, and the list of all atomic blocks of a script. `Code.atomicBlocks` lists
them depth first in source order: a block comes before the blocks in its arguments, and a control
structure gives those of its condition or count before those of its bodies.
-/

namespace BlockNotation

namespace Modifier

def name (m : Modifier) : String := m.label.text

def span (m : Modifier) : Span := ⟨m.marker.span.start, m.label.span.stop⟩

end Modifier

namespace Annotations

def remark? : Annotations → Option Token
  | .remark r _ => some r
  | .identified _ r => r

def id? : Annotations → Option Token
  | .remark _ id => id
  | .identified id _ => some id

end Annotations

def Brackets.span (b : Brackets) : Span := ⟨b.opening.span.start, b.closing.span.stop⟩

def Value.span : Value → Span
  | .literal token => token.span
  | .bracketed _ brackets => brackets.span

namespace Argument

def value? : Argument → Option Value
  | .curly _ value _ _ => value
  | .bare value => some value

def id? : Argument → Option Token
  | .curly _ _ id _ => id
  | .bare _ => none

def span : Argument → Span
  | .curly opening _ _ closing => ⟨opening.span.start, closing.span.stop⟩
  | .bare value => value.span

end Argument

namespace Condition

def predicate? : Condition → Option Brackets
  | .curly _ predicate _ _ => predicate
  | .bare predicate => some predicate

def span : Condition → Span
  | .curly opening _ _ closing => ⟨opening.span.start, closing.span.stop⟩
  | .bare predicate => predicate.span

end Condition

namespace Element

def label? : Element → Option Token
  | .label token => some token
  | .argument _ => none

def argument? : Element → Option Argument
  | .label _ => none
  | .argument a => some a

end Element

namespace Atomic

def labels (a : Atomic) : List Token := a.elements.filterMap Element.label?

def arguments (a : Atomic) : List Argument := a.elements.filterMap Element.argument?

/-- The labels of a block joined by spaces, with `_` in place of each argument. -/
def labelText (a : Atomic) : String :=
  " ".intercalate (a.elements.map fun
    | .label token => token.text
    | .argument _ => "_")

end Atomic

namespace Composite

def span : Composite → Span
  | .ifElse _ _ _ _ _ _ span => span
  | .forever _ _ _ span => span
  | .repeatTimes _ _ _ _ span => span
  | .repeatUntil _ _ _ _ span => span

def annotations : Composite → Option Annotations
  | .ifElse _ _ _ annotations _ _ _ => annotations
  | .forever _ annotations _ _ => annotations
  | .repeatTimes _ _ annotations _ _ => annotations
  | .repeatUntil _ _ annotations _ _ => annotations

/-- The bodies of a control structure, in source order. -/
def clauses : Composite → List Clause
  | .ifElse _ _ _ _ body none _ => [body]
  | .ifElse _ _ _ _ body (some branch) _ => [body, branch.clause]
  | .forever _ _ body _ => [body]
  | .repeatTimes _ _ _ body _ => [body]
  | .repeatUntil _ _ _ body _ => [body]

end Composite

def Block.span : Block → Span
  | .atomic a => a.span
  | .composite c => c.span

namespace Clause

def isEmpty (c : Clause) : Bool := c.body.isNone

def blocks (c : Clause) : List Block :=
  match c.body with
  | some stack => stack.blocks
  | none => []

/-- The span of what the clause holds, if it holds anything. -/
def span? (c : Clause) : Option Span := do
  let start ← c.delimiter.map (·.span.start)
    <|> c.body.map (·.span.start) <|> c.closing.map (·.span.start)
  let stop ← c.closing.map (·.span.stop)
    <|> c.body.map (·.span.stop) <|> c.delimiter.map (·.span.stop)
  return ⟨start, stop⟩

end Clause

/-! ## The walk -/

mutual

/-- An atomic block and all atomic blocks inside it. -/
def Atomic.atomics : Atomic → List Atomic
  | a@⟨elements, _, _, _⟩ => a :: Element.atomicsOfAll elements

def Element.atomicsOfAll : List Element → List Atomic
  | [] => []
  | .label _ :: elements => Element.atomicsOfAll elements
  | .argument a :: elements => a.atomics ++ Element.atomicsOfAll elements

def Argument.atomics : Argument → List Atomic
  | .curly _ none _ _ => []
  | .curly _ (some value) _ _ => value.atomics
  | .bare value => value.atomics

def Value.atomics : Value → List Atomic
  | .literal _ => []
  | .bracketed _ brackets => brackets.atomics

def Brackets.atomics : Brackets → List Atomic
  | ⟨_, none, _⟩ => []
  | ⟨_, some atomic, _⟩ => atomic.atomics

end

def Condition.atomics (c : Condition) : List Atomic :=
  match c.predicate? with
  | some predicate => predicate.atomics
  | none => []

mutual

/-- The atomic blocks of a stack, those inside others included. -/
def Stack.atomics : Stack → List Atomic
  | ⟨blocks, _⟩ => Block.atomicsOfAll blocks

def Block.atomicsOfAll : List Block → List Atomic
  | [] => []
  | block :: blocks => block.atomics ++ Block.atomicsOfAll blocks

def Block.atomics : Block → List Atomic
  | .atomic a => a.atomics
  | .composite c => c.atomics

def Composite.atomics : Composite → List Atomic
  | .ifElse _ condition _ _ body none _ => condition.atomics ++ body.atomics
  | .ifElse _ condition _ _ body (some branch) _ =>
    condition.atomics ++ body.atomics ++ branch.atomics
  | .forever _ _ body _ => body.atomics
  | .repeatTimes _ count _ body _ => count.atomics ++ body.atomics
  | .repeatUntil _ condition _ body _ => condition.atomics ++ body.atomics

def ElseBranch.atomics : ElseBranch → List Atomic
  | ⟨_, clause⟩ => clause.atomics

def Clause.atomics : Clause → List Atomic
  | ⟨_, none, _⟩ => []
  | ⟨_, some stack, _⟩ => stack.atomics

end

namespace Code

def stackList (c : Code) : List Stack :=
  c.segments.filterMap fun
    | .stack stack => some stack
    | .comments _ => none

/-- Every atomic block of a script, in source order. -/
def atomicBlocks (c : Code) : List Atomic := c.stackList.flatMap Stack.atomics

def isEmpty (c : Code) : Bool := c.segments.isEmpty

end Code

end BlockNotation
