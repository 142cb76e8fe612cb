import BlockNotation.Diagnostic
import BlockNotation.Modifier.Classifier
import BlockNotation.Script.Walk

/-!
# Analysis of modifiers

A registry of classifiers is asked, in order, about the modifier of each atomic block of a script.
The first to claim a key keeps it; every later one that claims the same key is reported as a
warning about the block, and changes nothing.
-/

namespace BlockNotation

/-- A finding about a part of a source file that does not keep it from being read. -/
structure Warning where
  message : String
  span : Span
  sourceId : Nat
deriving DecidableEq, Inhabited

namespace Warning

def describe (w : Warning) : String := "warning: " ++ w.message

def toDiagnostic (w : Warning) : Diagnostic :=
  .pointing .warning w.message w.sourceId w.span ""

end Warning

/-- Something that takes findings, each about a span. -/
class Sink (σ : Type) where
  report : σ → Span → String → σ

/-- The warnings about one source file, oldest first. -/
structure WarningLog where
  sourceId : Nat
  warnings : List Warning
deriving DecidableEq, Inhabited

namespace WarningLog

def empty (sourceId : Nat) : WarningLog := ⟨sourceId, []⟩

def report (log : WarningLog) (context : Span) (message : String) : WarningLog :=
  { log with warnings := log.warnings ++ [⟨message, context, log.sourceId⟩] }

def isEmpty (log : WarningLog) : Bool := log.warnings.isEmpty

instance : Sink WarningLog := ⟨report⟩

end WarningLog

/-- The warning for a classifier whose key is already set. -/
def conflictMessage : String := "multiple modifiers with conflicting meaning"

/-- Classifiers in the order in which they are asked. -/
structure Registry where
  classifiers : List Classifier
deriving Inhabited

namespace Registry

def builtin : Registry := ⟨Classifier.builtin⟩

/-- Adds a classifier, to be asked after all others. -/
def add (r : Registry) (c : Classifier) : Registry := ⟨r.classifiers ++ [c]⟩

variable {σ : Type} [Sink σ]

/-- Asks one classifier about a label in lower case. -/
def ask (text : String) (context : Span) (state : Classification × σ) (c : Classifier) :
    Classification × σ :=
  if !c.accepts text then state
  else if state.1.isSet c.key then (state.1, Sink.report state.2 context conflictMessage)
  else (state.1.set c.key c.category c.list, state.2)

/-- The classification of a modifier with a label, if there is a modifier. Conflicts are reported
about `context`. -/
def classifyLabel (r : Registry) (label : Option String) (context : Span) (sink : σ) :
    Classification × σ :=
  match label with
  | none => (.empty, sink)
  | some label => r.classifiers.foldl (ask (lowercase label) context) (.empty, sink)

/-- The classification of an atomic block. -/
def classify (r : Registry) (a : Atomic) (sink : σ) : Classification × σ :=
  r.classifyLabel (a.modifier.map Modifier.name) a.span sink

/-- The classifications of several atomic blocks, in order. -/
def classifyAll (r : Registry) : List Atomic → σ → List (Atomic × Classification) × σ
  | [], sink => ([], sink)
  | a :: as, sink =>
    let (c, sink) := r.classify a sink
    let (cs, sink) := r.classifyAll as sink
    ((a, c) :: cs, sink)

/-- The classifications of all atomic blocks of a script, in source order, with the warnings about
them. -/
def analyse (r : Registry) (code : Code) (log : WarningLog) :
    List (Atomic × Classification) × WarningLog :=
  r.classifyAll code.atomicBlocks log

end Registry

end BlockNotation
