import BlockNotation.Token.Basic

/-!
# Script trees

A script is a sequence of stacks and runs of remarks. A stack is a sequence of blocks; a block is
an atomic block, which is a line of labels and arguments, or a composite block, which holds further
stacks in its clauses. Arguments hold literals, or atomic blocks in round or angle brackets.

Every node keeps the tokens it was read from, except the delimiters between blocks.
-/

namespace BlockNotation

/-- The suffix `:: name` of an atomic block. -/
structure Modifier where
  marker : Token
  label : Token
deriving DecidableEq, Inhabited

/-- A remark and an identifier that follow a block, in either order, one of them at least. -/
inductive Annotations where
  | remark (remark : Token) (id : Option Token)
  | identified (id : Token) (remark : Option Token)
deriving DecidableEq, Inhabited

/-- The brackets around an atomic block: round for an expression, angle for a predicate. -/
inductive Shape where
  | round
  | angle
deriving DecidableEq, Inhabited

mutual

/-- A leaf block, such as `move {10} steps`. -/
structure Atomic where
  elements : List Element
  modifier : Option Modifier
  annotations : Option Annotations
  span : Span

/-- A piece of the text of an atomic block. -/
inductive Element where
  | label (token : Token)
  | argument (argument : Argument)

/-- An argument of a block, in braces or bare. -/
inductive Argument where
  | curly (opening : Token) (value : Option Value) (id : Option Token) (closing : Token)
  | bare (value : Value)

/-- What an argument holds. -/
inductive Value where
  | literal (token : Token)
  | bracketed (shape : Shape) (brackets : Brackets)

/-- Brackets around at most one atomic block. -/
structure Brackets where
  opening : Token
  atomic : Option Atomic
  closing : Token

end

/-- The condition of `if` and `repeat until`: a predicate, in braces or bare. -/
inductive Condition where
  | curly (opening : Token) (predicate : Option Brackets) (id : Option Token) (closing : Token)
  | bare (predicate : Brackets)

mutual

/-- Blocks one after the other. -/
structure Stack where
  blocks : List Block
  span : Span

inductive Block where
  | atomic (atomic : Atomic)
  | composite (composite : Composite)

/-- A control structure. -/
inductive Composite where
  | ifElse (keyword : Token) (condition : Condition) (thenWord : Option Token)
    (annotations : Option Annotations) (body : Clause) (otherwise : Option ElseBranch) (span : Span)
  | forever (keyword : Token) (annotations : Option Annotations) (body : Clause) (span : Span)
  | repeatTimes (keyword : Token) (count : Argument) (annotations : Option Annotations)
    (body : Clause) (span : Span)
  | repeatUntil (keyword : Token) (condition : Condition) (annotations : Option Annotations)
    (body : Clause) (span : Span)

/-- The second half of an `if`. -/
structure ElseBranch where
  keyword : Token
  clause : Clause

/-- The body of a control structure. Every part may be missing. -/
structure Clause where
  delimiter : Option Token
  body : Option Stack
  closing : Option Token

end

/-- A run of remarks. -/
structure Comments where
  remarks : List Token
  span : Span
deriving DecidableEq, Inhabited

/-- A part of a script after its leading remarks. -/
inductive Segment where
  | stack (stack : Stack)
  | comments (comments : Comments)

/-- A whole script. -/
structure Code where
  /-- The remarks before the first stack. -/
  comments : Option Comments
  segments : List Segment
  span : Span
  /-- The number of the source file the script was read from. -/
  sourceId : Nat

end BlockNotation
