import BlockNotation.Token.Kind

/-!
# Rules and productions

A grammar defines each of its rules by a production over token kinds, families of kinds and other
rules. The functions on productions here ask what can happen before any token is taken: whether a
production can match nothing, which kinds it can begin with, and which rules it can enter. Each
takes the answer for rules as an argument, so that it can be iterated to a fixed point.
-/

namespace BlockNotation

/-- The rules of the notation. -/
inductive Rule where
  | code
  | comments
  | stack
  | block
  | atomic
  | composite
  | ifElse
  | forever
  | repeatTimes
  | repeatUntil
  | clause
  | modifier
  | annotations
  | argument
  | condition
  | expression
  | predicate
deriving DecidableEq, Inhabited

namespace Rule

/-- Every rule, in the order in which a table lists them. -/
def all : List Rule :=
  [.code, .comments, .stack, .block, .atomic, .composite, .ifElse, .forever, .repeatTimes,
    .repeatUntil, .clause, .modifier, .annotations, .argument, .condition, .expression, .predicate]

@[simp] theorem mem_all (r : Rule) : r ∈ all := by cases r <;> decide

/-- How a table names a rule. -/
def name : Rule → String
  | .code => "Code"
  | .comments => "Comments"
  | .stack => "Stack"
  | .block => "Block"
  | .atomic => "Atomic"
  | .composite => "Composite"
  | .ifElse => "IfElse"
  | .forever => "Forever"
  | .repeatTimes => "Repeat"
  | .repeatUntil => "RepeatUntil"
  | .clause => "Clause"
  | .modifier => "Modifier"
  | .annotations => "Annotations"
  | .argument => "Argument"
  | .condition => "Condition"
  | .expression => "Expression"
  | .predicate => "Predicate"

/-- How a message names a rule. -/
def describe (r : Rule) : String := r.name.toLower

end Rule

/-- What a production matches with one token. -/
inductive Terminal where
  | kind (k : Kind)
  | family (f : Family)
deriving DecidableEq, Inhabited

def Terminal.kinds : Terminal → List Kind
  | .kind k => [k]
  | .family f => f.kinds

/-- The right-hand side of a rule. -/
inductive Production where
  | terminal (t : Terminal)
  | rule (r : Rule)
  | seq (parts : List Production)
  | choice (alternatives : List Production)
  | optional (body : Production)
  | many (body : Production)
  | atLeastOne (body : Production)
deriving Inhabited

namespace Production

/-- The production that matches one token of a kind. -/
def token (k : Kind) : Production := .terminal (.kind k)

mutual

/-- The rules a production mentions, in reading order. -/
def references : Production → List Rule
  | .terminal _ => []
  | .rule r => [r]
  | .seq parts => referencesOfAll parts
  | .choice alternatives => referencesOfAll alternatives
  | .optional body => body.references
  | .many body => body.references
  | .atLeastOne body => body.references

def referencesOfAll : List Production → List Rule
  | [] => []
  | p :: ps => p.references ++ referencesOfAll ps

end

section Empty

variable (empty : Rule → Bool)

mutual

/-- Can the production match no token at all? `empty` answers for rules. -/
def nullable : Production → Bool
  | .terminal _ => false
  | .rule r => empty r
  | .seq parts => allNullable parts
  | .choice alternatives => anyNullable alternatives
  | .optional _ => true
  | .many _ => true
  | .atLeastOne body => body.nullable

def allNullable : List Production → Bool
  | [] => true
  | p :: ps => p.nullable && allNullable ps

def anyNullable : List Production → Bool
  | [] => false
  | p :: ps => p.nullable || anyNullable ps

end

theorem allNullable_eq (ps : List Production) :
    allNullable empty ps = ps.all (nullable empty) := by
  induction ps <;> simp_all [allNullable]

theorem anyNullable_eq (ps : List Production) :
    anyNullable empty ps = ps.any (nullable empty) := by
  induction ps <;> simp_all [anyNullable]

variable (starts : Rule → Bool) (k : Kind)

mutual

/-- Can a match of the production begin with a token of kind `k`? `starts` answers for rules. -/
def startsWith : Production → Bool
  | .terminal t => t.kinds.contains k
  | .rule r => starts r
  | .seq parts => seqStartsWith parts
  | .choice alternatives => anyStartsWith alternatives
  | .optional body => body.startsWith
  | .many body => body.startsWith
  | .atLeastOne body => body.startsWith

def seqStartsWith : List Production → Bool
  | [] => false
  | p :: ps => p.startsWith || (p.nullable empty && seqStartsWith ps)

def anyStartsWith : List Production → Bool
  | [] => false
  | p :: ps => p.startsWith || anyStartsWith ps

end

theorem anyStartsWith_eq (ps : List Production) :
    anyStartsWith empty starts k ps = ps.any (startsWith empty starts k) := by
  induction ps <;> simp_all [anyStartsWith]

mutual

/-- The rules that can be entered before the production takes a token, in reading order. -/
def entered : Production → List Rule
  | .terminal _ => []
  | .rule r => [r]
  | .seq parts => seqEntered parts
  | .choice alternatives => anyEntered alternatives
  | .optional body => body.entered
  | .many body => body.entered
  | .atLeastOne body => body.entered

def seqEntered : List Production → List Rule
  | [] => []
  | p :: ps => p.entered ++ if p.nullable empty then seqEntered ps else []

def anyEntered : List Production → List Rule
  | [] => []
  | p :: ps => p.entered ++ anyEntered ps

end

end Empty

/-- Induction on productions, with the hypothesis for each member of a list. -/
@[elab_as_elim]
theorem induction {motive : Production → Prop} (terminal : ∀ τ, motive (.terminal τ))
    (rule : ∀ r, motive (.rule r)) (seq : ∀ ps, (∀ p ∈ ps, motive p) → motive (.seq ps))
    (choice : ∀ ps, (∀ p ∈ ps, motive p) → motive (.choice ps))
    (optional : ∀ p, motive p → motive (.optional p)) (many : ∀ p, motive p → motive (.many p))
    (atLeastOne : ∀ p, motive p → motive (.atLeastOne p)) (p : Production) : motive p :=
  @Production.rec motive (fun ps => ∀ p ∈ ps, motive p) terminal rule seq choice optional many
    atLeastOne (by simp) (fun _ _ hp hps => List.forall_mem_cons.2 ⟨hp, hps⟩) p

theorem startsWith_mono {f g : Rule → Bool} (h : ∀ r, f r = true → g r = true)
    {empty : Rule → Bool} {k : Kind} (p : Production) :
    p.startsWith empty f k = true → p.startsWith empty g k = true := by
  induction p using Production.induction with
  | terminal τ => exact id
  | rule r => exact h r
  | seq ps ih =>
    simp only [startsWith]
    induction ps with
    | nil => exact id
    | cons p ps ihs =>
      have hps := ihs fun q hq => ih q (List.mem_cons_of_mem _ hq)
      have hp := ih p List.mem_cons_self
      simp only [seqStartsWith, Bool.or_eq_true, Bool.and_eq_true]
      exact Or.imp hp (And.imp_right hps)
  | choice ps ih =>
    simp only [startsWith, anyStartsWith_eq, List.any_eq_true]
    rintro ⟨p, hp, hstart⟩
    exact ⟨p, hp, ih p hp hstart⟩
  | optional p ih => exact ih
  | many p ih => exact ih
  | atLeastOne p ih => exact ih

end Production

end BlockNotation
