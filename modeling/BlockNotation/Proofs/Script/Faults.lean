import BlockNotation.Proofs.Grammar.StuckPoints
import BlockNotation.Proofs.Script.Abreast
import BlockNotation.Proofs.Script.Limit
import BlockNotation.Proofs.Script.Promises

/-!
# The errors of scripts

A script that is not read to its end fails at one of the seven points where reading can get stuck,
or it could have ended where it fails and leaves a token over. All seven are reached, and each of
the three rules that nest can be nested too deeply (`parseTokens_faults`).

Where a token is left over, some kind was looked for at that token: a delimiter, for one, is never
left over (`Done.wanted_ne_nil`).
-/

namespace BlockNotation

variable {n : Nat}

theorem Rule.nests_iff {r : Rule} : r.nests = true ↔ r ∈ [.clause, .expression, .predicate] := by
  cases r <;> decide

theorem Exceeds.nests {t : Table} {r q : Rule} {p : Production} {ks rest : List Kind}
    (h : Exceeds t n r p ks q rest) : q.nests = true := by
  induction h with
  | here hq => exact hq
  | rule _ _ _ ih | nested _ _ _ ih | seqHead _ ih | seqTail _ _ ih | choice _ _ ih
  | optional _ _ ih | manyHead _ _ ih | manyTail _ _ _ ih | atLeastOneHead _ ih
  | atLeastOneTail _ _ ih => exact ih

/-- A script that has ended could have gone on with a delimiter. -/
theorem Done.wanted_ne_nil {w : List Token} {rest wanted : List Kind}
    (h : Done scriptTable n .code (.rule .code) (kindsOf w) rest wanted) : wanted ≠ [] := by
  rintro rfl
  obtain ⟨ds, hds⟩ := exists_kindsOf [.delimiter]
  have hends := h.ends [.delimiter] (by simp)
  rw [← hds, ← kindsOf_append] at hends
  have hfollows := Parser.follows_code (n := n) (r := .code) 0 (.ofTokens (w ++ ds))
  cases hrun : Parser.code (Parser.stackWithin? n) 0 (.ofTokens (w ++ ds)) with
  | error f =>
    rw [hrun] at hfollows
    cases hfollows with
    | stuck _ _ run read => cases hends.unique (read.reads_tokens run.rest)
    | tooDeep _ _ read => exact read.dead _ hends
  | ok x =>
    obtain ⟨code, s⟩ := x
    rw [hrun] at hfollows
    cases hfollows with
    | done _ _ run read =>
      have hrest : kindsOf s.rest = kindsOf ds := by
        have hending := (read.reads_tokens run.rest).unique hends
        rwa [Ending.done.injEq] at hending
      have hspent : Spent s.rest := by
        intro t ht
        have hk : t.kind ∈ kindsOf s.rest := List.mem_map_of_mem ht
        rwa [hrest, hds, List.mem_singleton] at hk
      rw [Parser.rest_eq_nil_of_code hrun hspent, hds] at hrest
      cases hrest

/-- The errors a token list can have: at a point where reading gets stuck, or where the script could
have ended. -/
theorem parseTokensWithin_fault {ts : List Token} {id : Nat} {e : SyntaxError}
    (h : parseTokensWithin n ts id = .error (.unexpected e)) :
    e.endOfInput = false ∧ (e.rule, e.expected) ∈ scriptFaults ∨
      e.endOfInput = true ∧ e.rule = .code ∧ e.expected ≠ [] := by
  have hj := script_judged n ts id
  unfold parseTokensWithin at h
  generalize Parser.script n id (.ofTokens ts) = res at h hj
  cases hj with
  | accepted => cases h
  | @leftover f w rest wanted _ _ cause _ _ read =>
    simp only [Failure.toError, cause, Except.error.injEq, ParseError.unexpected.injEq] at h
    subst h
    obtain ⟨k, hk⟩ := List.exists_mem_of_ne_nil wanted read.wanted_ne_nil
    exact .inr ⟨rfl, rfl, List.ne_nil_of_mem (Kind.mem_sorted.2 hk)⟩
  | @stuck f rule expected w rest _ cause _ _ read =>
    simp only [Failure.toError, cause, Except.error.injEq, ParseError.unexpected.injEq] at h
    subst h
    have hcode : scriptTable.guards scriptFaults enteredBlindly .code [] (.rule .code) = true := by
      decide
    exact .inl ⟨rfl, read.reads.fault_mem guarded_scriptTable hcode .nothing⟩
  | tooDeep _ cause => simp [Failure.toError, cause] at h

theorem nests_of_parseTokensWithin {ts : List Token} {id : Nat} {d : NestingError}
    (h : parseTokensWithin n ts id = .error (.tooDeep d)) : d.rule.nests = true := by
  have hj := script_judged n ts id
  unfold parseTokensWithin at h
  generalize Parser.script n id (.ofTokens ts) = res at h hj
  cases hj with
  | accepted => cases h
  | leftover _ _ cause | stuck _ cause => simp [Failure.toError, cause] at h
  | tooDeep _ cause _ _ read =>
    simp only [Failure.toError_tooDeep cause, Except.error.injEq, ParseError.tooDeep.injEq] at h
    subst h
    exact read.nests

/-! ## All of them are reached -/

/-- Tokens of some kinds. -/
def bare (ks : List Kind) : List Token := ks.map fun k => { (default : Token) with kind := k }

/-- The syntax error of a token list, in the grammar's terms: the rule, the kinds expected, and
whether the script could have ended. -/
def fault? (ts : List Token) : Option (Rule × List Kind × Bool) :=
  match parseTokens ts 0 with
  | .error (.unexpected e) => some (e.rule, e.expected, e.endOfInput)
  | _ => none

/-- The rule that a token list nests too deeply. -/
def deepRule? (ts : List Token) : Option Rule :=
  match parseTokens ts 0 with
  | .error (.tooDeep d) => some d.rule
  | _ => none

theorem exists_of_fault? {ts : List Token} {rule : Rule} {expected : List Kind} {ended : Bool}
    (h : fault? ts = some (rule, expected, ended)) : ∃ e : SyntaxError,
    parseTokens ts 0 = .error (.unexpected e) ∧ e.rule = rule ∧ e.expected = expected ∧
      e.endOfInput = ended := by
  unfold fault? at h
  split at h
  · rename_i e he
    cases h
    exact ⟨e, he, rfl, rfl, rfl⟩
  · cases h

theorem exists_of_deepRule? {ts : List Token} {rule : Rule} (h : deepRule? ts = some rule) :
    ∃ d : NestingError, parseTokens ts 0 = .error (.tooDeep d) ∧ d.rule = rule := by
  unfold deepRule? at h
  split at h
  · rename_i d hd
    cases h
    exact ⟨d, hd, rfl⟩
  · cases h

/-- Scripts with each of the faults, in the order of `scriptFaults`. -/
def faultyKinds : List (List Kind) :=
  [[.ifWord], [.ifWord, .openCurly], [.repeatWord], [.openCurly], [.label, .doubleColon],
    [.openRound], [.openAngle]]

theorem fault?_faultyKinds : faultyKinds.map (fun ks => fault? (bare ks)) =
    scriptFaults.map fun fault => some (fault.1, fault.2, false) := by
  simp only [scriptFaults, scriptTable_first]
  decide +kernel

theorem fault_reached {rule : Rule} {expected : List Kind} (h : (rule, expected) ∈ scriptFaults) :
    ∃ ts e, parseTokens ts 0 = .error (.unexpected e) ∧ e.rule = rule ∧ e.expected = expected ∧
      e.endOfInput = false := by
  have hmem : some (rule, expected, false) ∈ faultyKinds.map fun ks => fault? (bare ks) := by
    rw [fault?_faultyKinds]
    exact List.mem_map.2 ⟨_, h, rfl⟩
  obtain ⟨ks, -, hks⟩ := List.mem_map.1 hmem
  exact ⟨_, exists_of_fault? hks⟩

/-- A rule that nests, opened over and over by one token. -/
theorem nesting_reached {rule : Rule} (h : rule.nests = true) :
    ∃ ts d, parseTokens ts 0 = .error (.tooDeep d) ∧ d.rule = rule := by
  have hdeep : ∃ k : Kind, deepRule? (bare (List.replicate (maxNesting + 1) k)) = some rule := by
    cases rule with
    | clause => exact ⟨.foreverWord, by decide +kernel⟩
    | expression => exact ⟨.openRound, by decide +kernel⟩
    | predicate => exact ⟨.openAngle, by decide +kernel⟩
    | _ => cases h
  obtain ⟨k, hk⟩ := hdeep
  exact ⟨_, exists_of_deepRule? hk⟩

/-! ## The errors of scripts -/

/-- Outside the points where reading can get stuck no token and no rule is demanded that is missing:
a syntax error has one of seven forms, or the script could have ended and some kinds were looked for
at the token left over. A nesting error is that of a clause, an expression or a predicate. Each of
these is the error of some token list. The failures of a demand that was tested for are none of
them: the outcome is the same whatever happens there. -/
theorem parseTokens_faults (dead : (α : Type) → Rule → List Kind → Parser α) :
    (∀ rule expected,
      (∃ ts id e, parseTokens ts id = .error (.unexpected e) ∧ e.rule = rule ∧
        e.expected = expected ∧ e.endOfInput = false) ↔ (rule, expected) ∈ scriptFaults) ∧
    (∀ ts id e, parseTokens ts id = .error (.unexpected e) → e.endOfInput = true →
      e.rule = .code ∧ e.expected ≠ []) ∧
    (∃ ts id e, parseTokens ts id = .error (.unexpected e) ∧ e.endOfInput = true) ∧
    (∀ rule, (∃ ts id d, parseTokens ts id = .error (.tooDeep d) ∧ d.rule = rule) ↔
      rule ∈ [Rule.clause, .expression, .predicate]) ∧
    ∀ ts id, (Committed.script dead maxNesting id (.ofTokens ts)).map Prod.fst =
      (Parser.script maxNesting id (.ofTokens ts)).map Prod.fst := by
  refine ⟨fun rule expected => ⟨?_, fun h => ?_⟩, fun ts id e he hend => ?_, ?_,
    fun rule => ⟨?_, fun h => ?_⟩, fun ts id => Committed.script_eq dead maxNesting id _⟩
  · rintro ⟨ts, id, e, he, rfl, rfl, hend⟩
    rcases parseTokensWithin_fault he with h | h
    · exact h.2
    · rw [hend] at h
      cases h.1
  · obtain ⟨ts, he⟩ := fault_reached h
    exact ⟨ts, 0, he⟩
  · rcases parseTokensWithin_fault he with h | h
    · rw [hend] at h
      cases h.1
    · exact h.2
  · obtain ⟨e, he, hend⟩ := syntaxError?_strayBracket
    exact ⟨strayBracket, 0, e, parseTokensWithin_unexpected.2 ⟨1, he⟩, hend⟩
  · rintro ⟨ts, id, d, hd, rfl⟩
    exact Rule.nests_iff.1 (nests_of_parseTokensWithin hd)
  · obtain ⟨ts, hd⟩ := nesting_reached (Rule.nests_iff.2 h)
    exact ⟨ts, 0, hd⟩

/-- A brace alone is a fault of an argument. -/
theorem parseTokens_faults_openCurly : ∃ e : SyntaxError,
    parseTokens (bare [.openCurly]) 0 = .error (.unexpected e) ∧
      (e.rule, e.expected) ∈ scriptFaults := by
  obtain ⟨hfaults, -⟩ := parseTokens_faults fun _ rule _ => Parser.fail (.tooDeep rule)
  have h : fault? (bare [.openCurly]) = some (.argument, [.closeCurly], false) := by decide +kernel
  obtain ⟨e, he, hrule, hexpected, hend⟩ := exists_of_fault? h
  exact ⟨e, he, (hfaults _ _).1 ⟨_, 0, e, he, rfl, rfl, hend⟩⟩

end BlockNotation
