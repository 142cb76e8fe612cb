import BlockNotation.Proofs.Modifier.Precedence

/-!
# The log of several calls

What a call answers does not depend on what the log holds already, and all it does to the log is to
put its own warnings at the end (`Appends`). Both pass from the steps of a call to the call, and
from calls to a run of them, so that the log of a run is the calls' own logs one behind the other
(`runs_concatenate`).
-/

namespace BlockNotation

variable {α β ι : Type}

/-- A log with more warnings at the end. -/
def WarningLog.extend (log : WarningLog) (new : List Warning) : WarningLog :=
  ⟨log.sourceId, log.warnings ++ new⟩

/-- A call gives one answer and the same new warnings, but for the source they name, whatever log
it is made on. -/
def Appends (f : WarningLog → α × WarningLog) : Prop :=
  ∃ (answer : α) (new : Nat → List Warning),
    ∀ log, f log = (answer, log.extend (new log.sourceId))

/-- The warnings that a call leaves in a fresh log. -/
def newWarnings (f : WarningLog → α × WarningLog) (sourceId : Nat) : List Warning :=
  (f (.empty sourceId)).2.warnings

/-- Calls made one after another on one log. -/
def inTurn (f : ι → WarningLog → α × WarningLog) : List ι → WarningLog → List α × WarningLog
  | [], log => ([], log)
  | i :: is, log =>
    let (answer, log) := f i log
    let (answers, log) := inTurn f is log
    (answer :: answers, log)

namespace Appends

variable {f : WarningLog → α × WarningLog}

theorem pure (answer : α) : Appends fun log => (answer, log) :=
  ⟨answer, fun _ => [], fun log => by simp [WarningLog.extend]⟩

theorem report (answer : α) (context : Span) (message : String) :
    Appends fun log : WarningLog => (answer, Sink.report log context message) :=
  ⟨answer, fun id => [⟨message, context, id⟩], fun _ => rfl⟩

theorem bind {g : α → WarningLog → β × WarningLog} (hf : Appends f)
    (hg : ∀ answer, Appends (g answer)) : Appends fun log => g (f log).1 (f log).2 := by
  obtain ⟨answer, new, hf⟩ := hf
  obtain ⟨answer', new', hg⟩ := hg answer
  refine ⟨answer', fun id => new id ++ new' id, fun log => ?_⟩
  simp only [hf, hg, WarningLog.extend, List.append_assoc]

/-- What a call does on a log, from what it does on fresh ones. -/
theorem eq_fresh (h : Appends f) (log : WarningLog) (id : Nat) :
    f log = ((f (.empty id)).1, log.extend (newWarnings f log.sourceId)) := by
  obtain ⟨answer, new, h⟩ := h
  simp [newWarnings, h, WarningLog.extend, WarningLog.empty]

theorem inTurn {f : ι → WarningLog → α × WarningLog} (h : ∀ i, Appends (f i)) :
    ∀ is, Appends (inTurn f is)
  | [] => .pure []
  | i :: is => (h i).bind fun answer => (Appends.inTurn h is).bind fun answers =>
    .pure (answer :: answers)

end Appends

theorem inTurn_eq_fresh {f : ι → WarningLog → α × WarningLog} (h : ∀ i, Appends (f i)) :
    ∀ (is : List ι) (log : WarningLog) (id : Nat), inTurn f is log =
      (is.map fun i => (f i (.empty id)).1,
        log.extend (is.flatMap fun i => newWarnings (f i) log.sourceId))
  | [], log, _ => by simp [inTurn, WarningLog.extend]
  | i :: is, log, id => by
    simp only [inTurn, (h i).eq_fresh log id, inTurn_eq_fresh h is _ id]
    simp [WarningLog.extend]

namespace Registry

variable (r : Registry)

theorem appends_ask (text : String) (context : Span) (state : Classification) (c : Classifier) :
    Appends fun log : WarningLog => ask text context (state, log) c := by
  unfold ask
  cases c.accepts text
  · exact .pure state
  · cases hset : state.isSet c.key
    · simpa [hset] using Appends.pure (state.set c.key c.category c.list)
    · simpa [hset] using Appends.report state context conflictMessage

theorem appends_classifyLabel (label : Option String) (context : Span) :
    Appends fun log : WarningLog => r.classifyLabel label context log := by
  have hfold : ∀ (text : String) (cs : List Classifier) (state : Classification),
      Appends fun log : WarningLog => cs.foldl (ask text context) (state, log) := by
    intro text cs
    induction cs with
    | nil => exact .pure
    | cons c cs ih => exact fun state => (appends_ask text context state c).bind ih
  cases label with
  | none => exact .pure Classification.empty
  | some label => exact hfold (lowercase label) r.classifiers .empty

/-- An atomic block together with its classification. -/
def entry (a : Atomic) (log : WarningLog) : (Atomic × Classification) × WarningLog :=
  ((a, (r.classify a log).1), (r.classify a log).2)

theorem appends_entry (a : Atomic) : Appends (r.entry a) :=
  (r.appends_classifyLabel (a.modifier.map Modifier.name) a.span).bind fun c => .pure (a, c)

/-- The blocks of a script are classified one after another. -/
theorem classifyAll_eq_inTurn : ∀ (as : List Atomic) (log : WarningLog),
    r.classifyAll as log = inTurn r.entry as log
  | [], _ => rfl
  | a :: as, log => by simp only [classifyAll, inTurn, entry, classifyAll_eq_inTurn as]

/-- Every atomic block of a script is classified as it is alone, whatever the log holds. -/
theorem analyse_fst (code : Code) (log : WarningLog) : (r.analyse code log).1 =
    code.atomicBlocks.map fun a => (a, (r.classify a (WarningLog.empty 0)).1) := by
  rw [analyse, classifyAll_eq_inTurn, inTurn_eq_fresh r.appends_entry _ _ 0]
  rfl

theorem appends_analyse (code : Code) : Appends (r.analyse code) := by
  have heq : r.analyse code = inTurn r.entry code.atomicBlocks :=
    funext (r.classifyAll_eq_inTurn code.atomicBlocks)
  rw [heq]
  exact .inTurn r.appends_entry code.atomicBlocks

/-- How many classifiers lose over an atomic block. -/
def losses (a : Atomic) : Nat :=
  match a.modifier with
  | some m => Classifier.losses (r.accepting m.name)
  | none => 0

end Registry

theorem WarningLog.conflicts_eq (context : Span) (n : Nat) (log : WarningLog) :
    Sink.conflicts context n log =
      log.extend (List.replicate n ⟨conflictMessage, context, log.sourceId⟩) := by
  induction n with
  | zero => simp [Sink.conflicts, extend]
  | succ n ih =>
    rw [Sink.conflicts_succ, ih, List.replicate_succ', extend, extend, ← List.append_assoc]
    rfl

/-- A block leaves one warning for each classifier that loses over it. -/
theorem Registry.newWarnings_classify (r : Registry) (a : Atomic) (id : Nat) :
    newWarnings (r.classify a) id =
      List.replicate (r.losses a) ⟨conflictMessage, a.span, id⟩ := by
  unfold newWarnings classify losses
  cases a.modifier with
  | none => rfl
  | some m =>
    have hreports := (r.decided_classifyLabel m.name a.span (WarningLog.empty id)).reports
    rw [WarningLog.conflicts_eq] at hreports
    exact congrArg WarningLog.warnings hreports

/-! ## Runs -/

/-- A use of an analysis and its log, by whoever holds them. -/
inductive Call where
  | classifyLabel (label : Option String) (context : Span)
  | classify (a : Atomic)
  | analyse (code : Code)
  | report (context : Span) (message : String)

inductive Answer where
  | classification (c : Classification)
  | classifications (cs : List (Atomic × Classification))
  | nothing

def Call.run (r : Registry) : Call → WarningLog → Answer × WarningLog
  | .classifyLabel label context, log =>
    let (c, log) := r.classifyLabel label context log
    (.classification c, log)
  | .classify a, log =>
    let (c, log) := r.classify a log
    (.classification c, log)
  | .analyse code, log =>
    let (cs, log) := r.analyse code log
    (.classifications cs, log)
  | .report context message, log => (.nothing, log.report context message)

theorem Call.appends_run (r : Registry) : ∀ c : Call, Appends (c.run r)
  | .classifyLabel label context =>
    (r.appends_classifyLabel label context).bind fun c => .pure (Answer.classification c)
  | .classify a =>
    (r.appends_classifyLabel _ a.span).bind fun c => .pure (Answer.classification c)
  | .analyse code => (r.appends_analyse code).bind fun cs => .pure (Answer.classifications cs)
  | .report context message => .report Answer.nothing context message

/-- In a run of calls on one log every call answers as on a fresh log, and its warnings are those
it leaves in a fresh log for the same source, behind those of the calls before it. A script is
analysed block by block, each block as it is classified alone, and each leaves its own conflicts,
which are all about its span. -/
theorem runs_concatenate (r : Registry) (log : WarningLog) :
    (∀ calls : List Call,
      (∀ id, (inTurn (Call.run r) calls log).1 = calls.map fun c => (c.run r (.empty id)).1) ∧
      (inTurn (Call.run r) calls log).2 =
        log.extend (calls.flatMap fun c => newWarnings (c.run r) log.sourceId)) ∧
    ∀ code : Code,
      (∀ id, (r.analyse code log).1 =
        code.atomicBlocks.map fun a => (a, (r.classify a (WarningLog.empty id)).1)) ∧
      (r.analyse code log).2 =
        log.extend (code.atomicBlocks.flatMap fun a => newWarnings (r.classify a) log.sourceId) ∧
      ∀ a ∈ code.atomicBlocks, newWarnings (r.classify a) log.sourceId =
        List.replicate (r.losses a) ⟨conflictMessage, a.span, log.sourceId⟩ := by
  constructor
  · intro calls
    have hrun := inTurn_eq_fresh (Call.appends_run r) calls log
    exact ⟨fun id => congrArg Prod.fst (hrun id), congrArg Prod.snd (hrun 0)⟩
  · intro code
    have hrun := inTurn_eq_fresh r.appends_entry code.atomicBlocks log
    simp only [← r.classifyAll_eq_inTurn] at hrun
    exact ⟨fun id => congrArg Prod.fst (hrun id), congrArg Prod.snd (hrun 0),
      fun a _ => r.newWarnings_classify a log.sourceId⟩

end BlockNotation
