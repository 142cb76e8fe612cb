import BlockNotation.Script.Tree
import BlockNotation.Text.Quoted

/-!
# Dumps of script trees

A dump shows every node of a tree with all its parts, one part a line, indented by four spaces for
each level. An absent part is `None`, a present one stands inside `Some(...)`.
-/

namespace BlockNotation

/-- A text laid out over lines: a leaf, or labelled items between two brackets. -/
inductive Outlay where
  | leaf (text : String)
  | node (opening : String) (items : List (String × Outlay)) (closing : String)

namespace Outlay

/-- The white space in front of a line at some level. -/
def margin (level : Nat) : String := String.ofList (List.replicate (4 * level) ' ')

mutual

/-- The text of a layout whose first line begins at some level. A node without items stays on one
line. -/
def render (level : Nat) : Outlay → String
  | .leaf text => text
  | .node opening [] closing => opening ++ closing
  | .node opening (item :: items) closing =>
    opening ++ "\n" ++ renderItems (level + 1) (item :: items) ++ margin level ++ closing

def renderItems (level : Nat) : List (String × Outlay) → String
  | [] => ""
  | (label, item) :: items =>
    margin level ++ label ++ item.render level ++ ",\n" ++ renderItems level items

end

def record (name : String) (fields : List (String × Outlay)) : Outlay :=
  .node (name ++ " \x7b") (fields.map fun (label, item) => (label ++ ": ", item)) "\x7d"

def variant (name : String) (item : Outlay) : Outlay := .node (name ++ "(") [("", item)] ")"

def list (items : List Outlay) : Outlay := .node "[" (items.map fun item => ("", item)) "]"

def number (n : Nat) : Outlay := .leaf (toString n)

def absent : Outlay := .leaf "None"

def present (item : Outlay) : Outlay := variant "Some" item

def optional {α : Type} (f : α → Outlay) : Option α → Outlay
  | none => absent
  | some a => present (f a)

end Outlay

open Outlay

def Span.dump (s : Span) : Outlay := .leaf s!"{s.start}..{s.stop}"

def Token.dump (t : Token) : Outlay :=
  record "Token" [("kind", .leaf t.kind.name), ("text", .leaf (BlockNotation.quote t.text)),
    ("span", t.span.dump),
    ("position", record "Position"
      [("line", number t.position.line), ("column", number t.position.column)]),
    ("line_breaks", number t.lineBreaks)]

def Modifier.dump (m : Modifier) : Outlay :=
  record "Modifier" [("marker", m.marker.dump), ("label", m.label.dump)]

def Annotations.dump : Annotations → Outlay
  | .remark r id => record "Remark" [("comment", r.dump), ("id", optional Token.dump id)]
  | .identified id r => record "Identified" [("id", id.dump), ("comment", optional Token.dump r)]

/-- The name of the node that brackets of a shape make. -/
def Shape.nodeName : Shape → String
  | .round => "Expression"
  | .angle => "Predicate"

mutual

def Atomic.dump : Atomic → Outlay
  | ⟨elements, modifier, annotations, span⟩ =>
    record "Atomic" [("elements", list (Element.dumpAll elements)),
      ("modifier", optional Modifier.dump modifier),
      ("annotations", optional Annotations.dump annotations), ("span", span.dump)]

def Element.dumpAll : List Element → List Outlay
  | [] => []
  | .label token :: elements => variant "Label" token.dump :: Element.dumpAll elements
  | .argument a :: elements => variant "Argument" a.dump :: Element.dumpAll elements

def Argument.dump : Argument → Outlay
  | .curly opening none id closing =>
    record "Curly" [("open", opening.dump), ("value", absent), ("id", optional Token.dump id),
      ("close", closing.dump)]
  | .curly opening (some value) id closing =>
    record "Curly" [("open", opening.dump), ("value", present value.dump),
      ("id", optional Token.dump id), ("close", closing.dump)]
  | .bare value => variant "Bare" value.dump

def Value.dump : Value → Outlay
  | .literal token => variant "Literal" token.dump
  | .bracketed shape brackets => variant shape.nodeName (brackets.dump shape)

def Brackets.dump (shape : Shape) : Brackets → Outlay
  | ⟨opening, none, closing⟩ =>
    record shape.nodeName [("open", opening.dump), ("atomic", absent), ("close", closing.dump)]
  | ⟨opening, some atomic, closing⟩ =>
    record shape.nodeName [("open", opening.dump), ("atomic", present atomic.dump),
      ("close", closing.dump)]

end

def Condition.dump : Condition → Outlay
  | .curly opening predicate id closing =>
    record "Curly" [("open", opening.dump),
      ("predicate", optional (Brackets.dump .angle) predicate), ("id", optional Token.dump id),
      ("close", closing.dump)]
  | .bare predicate => variant "Bare" (predicate.dump .angle)

mutual

def Stack.dump : Stack → Outlay
  | ⟨blocks, span⟩ =>
    record "Stack" [("blocks", list (Block.dumpAll blocks)), ("span", span.dump)]

def Block.dumpAll : List Block → List Outlay
  | [] => []
  | block :: blocks => block.dump :: Block.dumpAll blocks

def Block.dump : Block → Outlay
  | .atomic a => variant "Atomic" a.dump
  | .composite c => variant "Composite" c.dump

def Composite.dump : Composite → Outlay
  | .ifElse keyword condition thenWord annotations body none span =>
    variant "IfElse" (record "IfElse" [("keyword", keyword.dump), ("condition", condition.dump),
      ("then", optional Token.dump thenWord),
      ("annotations", optional Annotations.dump annotations), ("then_clause", body.dump),
      ("else_branch", absent), ("span", span.dump)])
  | .ifElse keyword condition thenWord annotations body (some branch) span =>
    variant "IfElse" (record "IfElse" [("keyword", keyword.dump), ("condition", condition.dump),
      ("then", optional Token.dump thenWord),
      ("annotations", optional Annotations.dump annotations), ("then_clause", body.dump),
      ("else_branch", present branch.dump), ("span", span.dump)])
  | .forever keyword annotations body span =>
    variant "Forever" (record "Forever" [("keyword", keyword.dump),
      ("annotations", optional Annotations.dump annotations), ("body", body.dump),
      ("span", span.dump)])
  | .repeatTimes keyword count annotations body span =>
    variant "Repeat" (record "Repeat" [("keyword", keyword.dump), ("count", count.dump),
      ("annotations", optional Annotations.dump annotations), ("body", body.dump),
      ("span", span.dump)])
  | .repeatUntil keyword condition annotations body span =>
    variant "RepeatUntil" (record "RepeatUntil" [("keyword", keyword.dump),
      ("condition", condition.dump), ("annotations", optional Annotations.dump annotations),
      ("body", body.dump), ("span", span.dump)])

def ElseBranch.dump : ElseBranch → Outlay
  | ⟨keyword, clause⟩ =>
    record "ElseBranch" [("keyword", keyword.dump), ("clause", clause.dump)]

def Clause.dump : Clause → Outlay
  | ⟨delimiter, none, closing⟩ =>
    record "Clause" [("delimiter", optional Token.dump delimiter), ("body", absent),
      ("end", optional Token.dump closing)]
  | ⟨delimiter, some stack, closing⟩ =>
    record "Clause" [("delimiter", optional Token.dump delimiter), ("body", present stack.dump),
      ("end", optional Token.dump closing)]

end

def Comments.dump (c : Comments) : Outlay :=
  record "Comments" [("remarks", list (c.remarks.map Token.dump)), ("span", c.span.dump)]

def Segment.dump : Segment → Outlay
  | .stack s => variant "Stack" s.dump
  | .comments c => variant "Comments" c.dump

/-- A whole script with all its parts. -/
def Code.dump (c : Code) : Outlay :=
  record "Code" [("comments", optional Comments.dump c.comments),
    ("segments", list (c.segments.map Segment.dump)), ("span", c.span.dump),
    ("source_id", number c.sourceId)]

end BlockNotation
