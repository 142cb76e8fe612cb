import BlockNotation.Token.Basic

/-!
# Diagnostics

What a report about a source file says: how serious it is, in which words, and which places of
which file it points at.
-/

namespace BlockNotation

inductive Severity where
  | error
  | warning
deriving DecidableEq, Inhabited

/-- A place that a diagnostic points at. -/
structure Pointer where
  primary : Bool
  fileId : Nat
  range : Span
  message : String
deriving DecidableEq, Inhabited

structure Diagnostic where
  severity : Severity
  message : String
  labels : List Pointer
  notes : List String
deriving DecidableEq, Inhabited

def Severity.name : Severity → String
  | .error => "error"
  | .warning => "warning"

/-- A diagnostic as a text: its message, then a line for each place and each note. -/
def Diagnostic.text (d : Diagnostic) : String :=
  "\n".intercalate ([d.severity.name ++ ": " ++ d.message] ++
    d.labels.map (fun p => s!"  at bytes {p.range.start} to {p.range.stop}: {p.message}") ++
    d.notes.map (fun note => "  note: " ++ note))

/-- A diagnostic that points at one place. -/
def Diagnostic.pointing (severity : Severity) (message : String) (fileId : Nat) (range : Span)
    (label : String) : Diagnostic where
  severity := severity
  message := message
  labels := [⟨true, fileId, range, label⟩]
  notes := []

end BlockNotation
