import BlockNotation.Grammar.Lead

/-!
# Grammar tables

A table is a list of rule definitions with the facts a predictive parser asks for: which rules can
match nothing, and which kinds of token each rule can begin with. `Table.build` accepts a list of
definitions only if reading it with one token of lookahead is well defined: every rule that is
used is defined, once; no rule can be entered again before a token is taken; no repeated body can
match nothing; and the alternatives of a choice can be told apart by their first token.
-/

namespace BlockNotation

/-- Why a list of definitions is no grammar table. -/
inductive GrammarError where
  | duplicateRule (rule : Rule)
  /-- A rule without definition. The start rule is referenced by no rule. -/
  | undefinedRule (rule : Rule) (referencedBy : Option Rule)
  /-- Each rule of the cycle can be entered from the one before it without taking a token; the
  last is the first again. -/
  | leftRecursion (cycle : List Rule)
  /-- A repeated body inside this rule can match nothing. -/
  | emptyLoop (rule : Rule)
  /-- Two alternatives of a choice inside this rule can begin with the same kinds. -/
  | ambiguousChoice (rule : Rule) (overlap : List Kind)
  /-- Two alternatives of a choice inside this rule can match nothing. -/
  | nullableAlternatives (rule : Rule)
deriving DecidableEq, Inhabited

/-- Rule definitions and what follows from them. -/
structure Table where
  start : Rule
  definitions : List (Rule × Production)
  /-- The rules that can match nothing. -/
  emptyRules : List Rule
  /-- The kinds each defined rule can begin with. -/
  leads : Leads
deriving Inhabited

namespace Table

/-- The table of a list of definitions, valid or not. -/
def ofDefinitions (start : Rule) (definitions : List (Rule × Production)) : Table :=
  let empty := emptyRulesOf definitions
  ⟨start, definitions, empty, leadsOf definitions empty⟩

variable (t : Table)

def definition? (r : Rule) : Option Production := t.definitions.lookup r

def isDefined (r : Rule) : Bool := (t.definition? r).isSome

/-- Can the rule match nothing? -/
def isNullable (r : Rule) : Bool := t.emptyRules.contains r

/-- The kinds a rule can begin with. -/
def first (r : Rule) : List Kind := t.leads.kinds r

/-- Can the rule begin with a token of kind `k`? -/
def starts (r : Rule) (k : Kind) : Bool := (t.first r).contains k

/-- The kinds a production can begin with. -/
def firstOf (p : Production) : List Kind := t.leads.ofProduction t.emptyRules p

theorem firstOf_eq (p : Production) :
    t.firstOf p = Kind.all.filter fun k => p.startsWith t.isNullable (t.starts · k) k := rfl

/-- The first rule that is defined a second time. -/
def duplicate? : List Rule → List Rule → Option Rule
  | _, [] => none
  | seen, r :: rs => if seen.contains r then some r else duplicate? (r :: seen) rs

/-- The first reference to a rule without definition, with the rule that makes it. -/
def danglingReference? : Option (Rule × Rule) :=
  t.definitions.findSome? fun (name, body) =>
    (body.references.find? (!t.isDefined ·)).map (·, name)

/-- The rules that a rule can enter before it takes a token. -/
def entries (r : Rule) : List Rule :=
  match t.definition? r with
  | some body => body.entered t.isNullable
  | none => []

section Recursion

variable (entries : Rule → List Rule)

mutual

/-- Follows entries from `r`, which `path` leads to, and gives the rules known to enter no cycle,
or else a cycle. `clear` holds those known already. -/
def visit (path clear : List Rule) (r : Rule) : Except (List Rule) (List Rule) :=
  if clear.contains r then .ok clear
  else if path.contains r then .error (path.dropWhile (· ≠ r) ++ [r])
  else (visitAll (path ++ [r]) clear (entries r)).map (r :: ·)
termination_by (outside path, 0)
decreasing_by exact .left _ _ (outside_append_lt (by simpa using ‹¬path.contains r = true›))

/-- Follows entries from each of several rules in turn. -/
def visitAll (path clear : List Rule) : List Rule → Except (List Rule) (List Rule)
  | [] => .ok clear
  | r :: rs =>
    match visit path clear r with
    | .error cycle => .error cycle
    | .ok clear => visitAll path clear rs
termination_by rs => (outside path, rs.length + 1)

end

end Recursion

/-- A cycle of rules, each entered from the one before it without taking a token. -/
def cycle? : Option (List Rule) :=
  match visitAll t.entries [] [] (t.definitions.map (·.1)) with
  | .error cycle => some cycle
  | .ok _ => none

/-- The kinds shared by the first two of several sets that share any. -/
def overlap? : List (List Kind) → Option (List Kind)
  | [] => none
  | lead :: leads =>
    (leads.findSome? fun other =>
      let shared := lead.filter (other.contains ·)
      if shared.isEmpty then none else some shared) <|> overlap? leads

/-- What is wrong with a choice between some alternatives inside rule `r`. -/
def choiceFault? (r : Rule) (alternatives : List Production) : Option GrammarError :=
  match overlap? (alternatives.map t.firstOf) with
  | some shared => some (.ambiguousChoice r shared)
  | none =>
    if 1 < alternatives.countP (·.nullable t.isNullable) then some (.nullableAlternatives r)
    else none

/-- What is wrong with repeating a body inside rule `r`. -/
def loopFault? (r : Rule) (body : Production) : Option GrammarError :=
  if body.nullable t.isNullable then some (.emptyLoop r) else none

section Faults

variable (r : Rule)

mutual

/-- The first fault inside a production of rule `r`: a choice is looked at before its alternatives
and a repetition before its body. -/
def fault? : Production → Option GrammarError
  | .terminal _ => none
  | .rule _ => none
  | .seq parts => faultInAll? parts
  | .choice alternatives => t.choiceFault? r alternatives <|> faultInAll? alternatives
  | .optional body => fault? body
  | .many body => t.loopFault? r body <|> fault? body
  | .atLeastOne body => t.loopFault? r body <|> fault? body

def faultInAll? : List Production → Option GrammarError
  | [] => none
  | p :: ps => fault? p <|> faultInAll? ps

end

end Faults

/-- The first thing wrong with a table. -/
def error? : Option GrammarError :=
  (duplicate? [] (t.definitions.map (·.1))).map .duplicateRule
    <|> (if t.isDefined t.start then none else some (.undefinedRule t.start none))
    <|> t.danglingReference?.map (fun (missing, name) => .undefinedRule missing (some name))
    <|> t.cycle?.map .leftRecursion
    <|> t.definitions.findSome? fun (name, body) => t.fault? name body

/-- The table of a list of definitions, or the first thing wrong with them. -/
def build (start : Rule) (definitions : List (Rule × Production)) : Except GrammarError Table :=
  let table := ofDefinitions start definitions
  match table.error? with
  | some error => .error error
  | none => .ok table

end Table

end BlockNotation
