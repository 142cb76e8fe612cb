import BlockNotation.Script.Walk

/-!
# Outlines of scripts

An outline shows each block on a line, indented by two spaces for each control structure around
it, and each stack ends with an empty line.
-/

namespace BlockNotation

/-- The text of a condition: the block in its predicate, if it has one. -/
def Condition.outline (c : Condition) : String :=
  let inner := match c.predicate?.bind (·.atomic) with
    | some atomic => atomic.labelText
    | none => ""
  "<" ++ inner ++ ">"

/-- The text of a count: a literal as it stands, anything else as `_`. -/
def Argument.outline (a : Argument) : String :=
  match a.value? with
  | some (.literal token) => token.text
  | _ => "_"

/-- A line inside some number of control structures. -/
def indented (depth : Nat) (line : String) : String :=
  String.ofList (List.replicate (2 * depth) ' ') ++ line

mutual

/-- The lines of a stack inside some number of control structures. -/
def Stack.outline (depth : Nat) : Stack → List String
  | ⟨blocks, _⟩ => Block.outlineAll depth blocks

def Block.outlineAll (depth : Nat) : List Block → List String
  | [] => []
  | block :: blocks => block.outline depth ++ Block.outlineAll depth blocks

def Block.outline (depth : Nat) : Block → List String
  | .atomic a => [indented depth a.labelText]
  | .composite c => c.outline depth

def Composite.outline (depth : Nat) : Composite → List String
  | .ifElse _ condition _ _ body none _ =>
    indented depth ("if " ++ condition.outline) :: body.outline (depth + 1)
  | .ifElse _ condition _ _ body (some branch) _ =>
    indented depth ("if " ++ condition.outline) :: body.outline (depth + 1) ++
      indented depth "else" :: branch.outline (depth + 1)
  | .forever _ _ body _ => indented depth "forever" :: body.outline (depth + 1)
  | .repeatTimes _ count _ body _ =>
    indented depth ("repeat " ++ count.outline) :: body.outline (depth + 1)
  | .repeatUntil _ condition _ body _ =>
    indented depth ("repeat until " ++ condition.outline) :: body.outline (depth + 1)

def ElseBranch.outline (depth : Nat) : ElseBranch → List String
  | ⟨_, clause⟩ => clause.outline depth

def Clause.outline (depth : Nat) : Clause → List String
  | ⟨_, none, _⟩ => []
  | ⟨_, some stack, _⟩ => stack.outline depth

end

/-- The lines of a script. -/
def Code.outline (c : Code) : List String := c.stackList.flatMap fun s => s.outline 0 ++ [""]

end BlockNotation
