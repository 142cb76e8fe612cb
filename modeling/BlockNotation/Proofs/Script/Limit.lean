import BlockNotation.Proofs.Grammar.Expansion
import BlockNotation.Proofs.Script.Levels
import BlockNotation.Proofs.Script.Tracking

/-!
# The nesting limit

Levels cost tokens: an expression or predicate takes its bracket before it opens another level, and
a clause follows the word of its control structure. So no script opens more levels than it has
tokens (`Exceeds.spends`), and a limit beyond that is none (`parseTokensUnlimited`).

Any other limit changes nothing but that a script which opens more levels is given up at the first
activation beyond it (`limit_only_refuses`).
-/

namespace BlockNotation

/-! ## Levels cost tokens -/

namespace Production

variable (empty : Rule → Bool)

mutual

/-- By how much the tokens that a production takes outnumber the levels it opens, at least, at any
point where it opens one; one more than that. -/
def slack : Production → Nat
  | .terminal _ => 2
  | .rule r => if r = .clause then 0 else 1
  | .seq parts => seqSlack parts
  | .choice alternatives => leastSlack alternatives
  | .optional body => body.slack
  | .many body => body.slack
  | .atLeastOne body => body.slack

def seqSlack : List Production → Nat
  | [] => 2
  | p :: ps => min p.slack (seqSlack ps + if p.nullable empty then 0 else 1)

def leastSlack : List Production → Nat
  | [] => 2
  | p :: ps => min p.slack (leastSlack ps)

end

theorem leastSlack_le : ∀ {ps : List Production} {p : Production}, p ∈ ps →
    leastSlack empty ps ≤ slack empty p
  | q :: ps, p, h => by
    rcases List.mem_cons.1 h with rfl | h
    · exact Nat.min_le_left _ _
    · exact Nat.le_trans (Nat.min_le_right _ _) (leastSlack_le h)

end Production

/-- A rule that nests has a token to spare for the level it opens. -/
theorem slack_rule_le {q : Rule} {body : Production} (h : scriptTable.definition? q = some body) :
    (Production.rule q).slack scriptTable.isNullable + (if q.nests then 1 else 0) ≤
      body.slack scriptTable.isNullable := by
  have hall : (Rule.all.all fun q => (scriptRules.lookup q).all fun body =>
      (Production.rule q).slack (emptyRules.contains ·) + (if q.nests then 1 else 0) ≤
        body.slack (emptyRules.contains ·)) = true := by
    decide +kernel
  have hq := List.all_eq_true.1 hall q (Rule.mem_all q)
  have h' : scriptRules.lookup q = some body := h
  rw [h', Option.all_some] at hq
  rw [scriptTable_isNullable]
  exact of_decide_eq_true hq

/-- What a production that cannot match nothing has read is not nothing. -/
theorem Reads.lt_of_not_nullable {n : Nat} {r : Rule} {p : Production} {ks rest : List Kind}
    (h : Reads scriptTable n r p ks (.done rest))
    (hp : p.nullable scriptTable.isNullable = false) : rest.length < ks.length := by
  obtain ⟨w, rfl, hw⟩ := h.derives
  cases w with
  | nil =>
    have hnull : p.nullable scriptTable.isNullable = true := nullable_iff.2 hw
    simp [hp] at hnull
  | cons k w =>
    simp only [List.length_append, List.length_cons]
    omega

/-- Before a level too many is opened, a token was taken for nearly every level that is open. -/
theorem Exceeds.spends {n : Nat} {r q : Rule} {p : Production} {ks rest : List Kind}
    (h : Exceeds scriptTable n r p ks q rest) :
    n + rest.length + p.slack scriptTable.isNullable ≤ ks.length + 1 := by
  induction h with
  | @here r q ks hq =>
    simp only [Production.slack]
    split <;> omega
  | @rule n r q q' p ks rest h hq _ ih | @nested n r q q' p ks rest h hq _ ih =>
    have hle := slack_rule_le h
    simp only [hq, if_true, Bool.false_eq_true, if_false] at hle
    omega
  | seqHead _ ih =>
    simp only [Production.slack, Production.seqSlack] at ih ⊢
    omega
  | @seqTail n r q p ps ks middle rest first _ ih =>
    simp only [Production.slack, Production.seqSlack] at ih ⊢
    have hle : middle.length ≤ ks.length := first.length_le
    cases hp : p.nullable scriptTable.isNullable with
    | true => simp only [if_true]; omega
    | false =>
      have hlt := first.lt_of_not_nullable hp
      simp only [Bool.false_eq_true, if_false]
      omega
  | choice h _ ih =>
    have hle := Production.leastSlack_le scriptTable.isNullable (List.mem_of_find?_eq_some h)
    simp only [Production.slack]
    omega
  | optional _ _ ih | manyHead _ _ ih | atLeastOneHead _ ih =>
    simpa only [Production.slack] using ih
  | @manyTail _ _ _ _ ks middle _ _ first _ ih | @atLeastOneTail _ _ _ _ ks middle _ first _ ih =>
    have hle : middle.length ≤ ks.length := first.length_le
    simp only [Production.slack] at ih ⊢
    omega

/-! ## Without a limit -/

variable {n m : Nat} {ts : List Token} {id : Nat}

theorem Failure.toError_tooDeep {f : Failure} {rule : Rule} (h : f.cause = .tooDeep rule) :
    f.toError n = .tooDeep ⟨rule, n, f.found, f.span⟩ := by
  simp only [toError, h]

/-- With more levels, nothing changes unless levels were wanted. -/
theorem parseTokensWithin_mono (h : n ≤ m)
    (hn : ∀ d, parseTokensWithin n ts id ≠ .error (.tooDeep d)) :
    parseTokensWithin n ts id = parseTokensWithin m ts id := by
  have hkept := Parser.keeps_script h id (.ofTokens ts)
  unfold parseTokensWithin at hn ⊢
  generalize Parser.script n id (.ofTokens ts) = res, Parser.script m id (.ofTokens ts) = res'
    at hkept hn
  cases hkept with
  | refused cause => exact absurd (congrArg _ (Failure.toError_tooDeep cause)) (hn _)
  | ok => rfl
  | @failed f =>
    cases hcause : f.cause with
    | unexpected => simp only [Failure.toError, hcause]
    | tooDeep rule => exact absurd (congrArg _ (Failure.toError_tooDeep hcause)) (hn _)

/-- With more levels than tokens, levels are never wanted. -/
theorem parseTokensWithin_ne_tooDeep (h : ts.length < n) (d : NestingError) :
    parseTokensWithin n ts id ≠ .error (.tooDeep d) := by
  have hj := script_judged n ts id
  unfold parseTokensWithin
  generalize Parser.script n id (.ofTokens ts) = res at hj
  cases hj with
  | accepted => simp
  | leftover _ _ cause | stuck _ cause => simp [Failure.toError, cause]
  | tooDeep _ _ _ _ read =>
    have hle := read.spends
    have hslack : (Production.rule .code).slack scriptTable.isNullable = 1 := rfl
    have hlen := length_kindsOf ts
    rw [hslack] at hle
    omega

/-- The script of a token list, whatever levels are open at once. -/
def parseTokensUnlimited (ts : List Token) (sourceId : Nat) : Except ParseError Code :=
  parseTokensWithin (ts.length + 1) ts sourceId

theorem parseTokensWithin_eq_unlimited (h : ts.length < m) :
    parseTokensWithin m ts id = parseTokensUnlimited ts id :=
  (parseTokensWithin_mono h (parseTokensWithin_ne_tooDeep (Nat.lt_succ_self _))).symm

theorem parseTokensWithin_eq_unlimited_of_reads {e : Ending}
    (h : Reads scriptTable n .code (.rule .code) (kindsOf ts) e) :
    parseTokensWithin n ts id = parseTokensUnlimited ts id := by
  have hlevels : ∀ d, parseTokensWithin n ts id ≠ .error (.tooDeep d) :=
    fun d hd => parseTokensWithin_tooDeep_iff.1 ⟨d, hd⟩ e h
  rw [parseTokensWithin_mono (Nat.le_max_left n (ts.length + 1)) hlevels]
  exact parseTokensWithin_eq_unlimited (Nat.le_max_right n (ts.length + 1))

/-- Every token list has a reading that keeps within more levels than there are tokens. -/
theorem exists_reads {ts : List Token} (h : ts.length < n) :
    ∃ e, Reads scriptTable n .code (.rule .code) (kindsOf ts) e := by
  by_contra hnone
  obtain ⟨d, hd⟩ : ∃ d, parseTokensWithin n ts 0 = .error (.tooDeep d) :=
    parseTokensWithin_tooDeep_iff.2 (not_exists.1 hnone)
  exact parseTokensWithin_ne_tooDeep h d hd

/-- What is read within a limit is nested no deeper. -/
theorem nesting_le_of_parseTokensWithin {code : Code} (h : parseTokensWithin n ts id = .ok code) :
    code.nesting ≤ n := by
  have hkept := Parser.keeps_script (Nat.le_refl n) id (.ofTokens ts)
  unfold parseTokensWithin at h
  generalize Parser.script n id (.ofTokens ts) = res at h hkept
  cases hkept with
  | refused | failed => cases h
  | ok value =>
    cases h
    exact value

/-- The token after some tokens, or their end, does not depend on how the list is cut. -/
theorem Span.next_congr {stop : Nat} {w w' left left' : List Token} (h : w ++ left = w' ++ left')
    (hhead : left.head? = left'.head?) :
    Span.next (endOf stop w) left = Span.next (endOf stop w') left' := by
  cases left with
  | nil =>
    cases left' with
    | nil =>
      rw [List.append_nil, List.append_nil] at h
      rw [h]
    | cons => cases hhead
  | cons t left =>
    cases left' with
    | nil => cases hhead
    | cons =>
      cases hhead
      rfl

/-- Where a parser gives up for want of levels. -/
theorem parseTokensWithin_tooDeep {d : NestingError}
    (h : parseTokensWithin n ts id = .error (.tooDeep d)) : ∃ w left, ts = w ++ left ∧
      Exceeds scriptTable n .code (.rule .code) (kindsOf ts) d.rule (kindsOf left) ∧
      d = ⟨d.rule, n, left.head?, .next (endOf (Cursor.startOf 0 ts) w) left⟩ := by
  have hj := script_judged n ts id
  have htracked := Parser.tracks_script n id (.ofTokens ts) _ rfl
  unfold parseTokensWithin at h
  generalize Parser.script n id (.ofTokens ts) = res at h hj htracked
  cases hj with
  | accepted => cases h
  | leftover _ _ cause | stuck _ cause => simp [Failure.toError, cause] at h
  | @tooDeep f rule w left tokens cause index found read =>
    simp only [Failure.toError_tooDeep cause, Except.error.injEq, ParseError.tooDeep.injEq] at h
    subst h
    cases htracked with
    | @error f w' left' rest found' span =>
      have hspan : f.span = .next (endOf (Cursor.startOf 0 ts) w) left :=
        span.trans (Span.next_congr (rest.symm.trans tokens) (found'.symm.trans found))
      refine ⟨w, left, tokens, read, ?_⟩
      rw [← found, ← hspan]

/-- A nesting limit changes nothing but that it refuses. Without a limit, what is opened in reading
a token list is the list `os`. If none of it is beyond the limit, reading with and without the limit
gives the same. Otherwise reading with the limit fails at the first activation beyond it, which is
the one after `limit` that are open, and the error names its rule and points at its place. What is
read with the limit is nested no deeper. -/
theorem limit_only_refuses (limit : Nat) (ts : List Token) (id : Nat) :
    (∀ m, ts.length < m → parseTokensWithin m ts id = parseTokensUnlimited ts id) ∧
    (∀ d, parseTokensUnlimited ts id ≠ .error (.tooDeep d)) ∧
    ∃ os ending, Unfolds scriptTable 0 .code (.rule .code) (kindsOf ts) os ending ∧
      (∀ os' ending', Unfolds scriptTable 0 .code (.rule .code) (kindsOf ts) os' ending' →
        os' = os ∧ ending' = ending) ∧
      ((∃ code, parseTokensUnlimited ts id = .ok code) ↔ ending = .done []) ∧
      ((∀ o ∈ os, o.level ≤ limit) →
        parseTokensWithin limit ts id = parseTokensUnlimited ts id) ∧
      (∀ o, os.find? (limit < ·.level) = some o → ∃ w left, ts = w ++ left ∧
        o.level = limit + 1 ∧ o.rest = kindsOf left ∧
        parseTokensWithin limit ts id = .error (.tooDeep
          ⟨o.rule, limit, left.head?, .next (endOf (Cursor.startOf 0 ts) w) left⟩)) ∧
      ∀ code, parseTokensWithin limit ts id = .ok code → code.nesting ≤ limit := by
  obtain ⟨ending, hread⟩ := exists_reads (Nat.lt_succ_self ts.length)
  obtain ⟨os, hos, -⟩ := hread.unfolds 0
  refine ⟨fun m => parseTokensWithin_eq_unlimited,
    fun d => parseTokensWithin_ne_tooDeep (Nat.lt_succ_self _) d, os, ending, hos,
    fun os' ending' h => ⟨h.openings_unique hos, h.ending_unique hos⟩, ?_, ?_, ?_,
    fun code => nesting_le_of_parseTokensWithin⟩
  · refine parseTokensWithin_ok_iff.trans ⟨hread.unique, ?_⟩
    rintro rfl
    exact hread
  · intro hle
    refine parseTokensWithin_eq_unlimited_of_reads (hos.reads fun o ho => ?_)
    simpa using hle o ho
  · intro o ho
    have hdead : ∀ e, ¬Reads scriptTable limit .code (.rule .code) (kindsOf ts) e := by
      intro e he
      have hle := (hos.level_le he).2 o (List.mem_of_find?_eq_some ho)
      have hlt := List.find?_some ho
      simp only [decide_eq_true_eq] at hlt
      omega
    obtain ⟨d, hd⟩ : ∃ d, parseTokensWithin limit ts id = .error (.tooDeep d) :=
      parseTokensWithin_tooDeep_iff.2 hdead
    obtain ⟨w, left, hts, hexceeds, hd'⟩ := parseTokensWithin_tooDeep hd
    have hfind := hexceeds.find?_eq hos
    rw [Nat.zero_add, ho] at hfind
    cases hfind
    exact ⟨w, left, hts, rfl, rfl, hd' ▸ hd⟩

end BlockNotation
