import BlockNotation.Proofs.Grammar.Validation
import Mathlib.Logic.Function.Iterate

/-!
# What is listed for a rule

The rules that can match nothing and the kinds that each rule can begin with are found by rounds
over all rules. The rounds come to an end (`Sweep.endsIn_settle`), and what they leave is exact: the
rules noted derive nothing, and the kinds listed for a rule are those that some list derived from
it begins with (`leads_exact`).

Listed is what an expansion of the rule brings to the front. To derive a list from there, what
stands behind has to derive something too; a definition such as a label followed by the rule itself
never comes to an end.
-/

namespace BlockNotation

open Relation

/-! ## The end of a sweep -/

namespace Sweep

variable {σ ι : Type} (w : Sweep σ ι)

/-- From `s`, each of some rounds changes something; then `s'` is reached, which a round leaves as
it is. -/
def EndsIn (s s' : σ) : Prop :=
  w.round s' = s' ∧ ∃ n, w.round^[n] s = s' ∧ ∀ m < n, w.round^[m + 1] s ≠ w.round^[m] s

theorem endsIn_settle [DecidableEq σ] {s : σ} (h : w.Sound s) : w.EndsIn s (w.settle s h) := by
  refine ⟨w.round_settle h, ?_⟩
  fun_induction settle w s h with
  | case1 s h heq => exact ⟨0, rfl, fun m hm => absurd hm (Nat.not_lt_zero m)⟩
  | case2 s h hne ih =>
    obtain ⟨n, hn, hrounds⟩ := ih
    refine ⟨n + 1, hn, fun m hm => ?_⟩
    cases m with
    | zero => exact hne
    | succ m => exact hrounds m (Nat.lt_of_succ_lt_succ hm)

end Sweep

/-! ## Deriving what is expanded -/

section Derivations

variable {definitions : List (Rule × Production)} {ps qs : List Production} {p : Production}
  {ks : List Kind} {k : Kind}

theorem derives_seq_append : ∀ {ps : List Production} {ks : List Kind},
    Derives definitions (.seq (ps ++ qs)) ks →
      ∃ fore aft, ks = fore ++ aft ∧ Derives definitions (.seq ps) fore ∧
        Derives definitions (.seq qs) aft
  | [], ks, h => ⟨[], ks, rfl, .seqNil, h⟩
  | p :: ps, _, h => by
    cases h with
    | @seqCons _ _ ks ls first later =>
      obtain ⟨fore, aft, rfl, hps, hqs⟩ := derives_seq_append later
      exact ⟨ks ++ fore, aft, (List.append_assoc ..).symm, .seqCons first hps, hqs⟩

theorem derives_of_seq_singleton (h : Derives definitions (.seq [p]) ks) :
    Derives definitions p ks := by
  cases h with
  | seqCons first later =>
    cases later
    rwa [List.append_nil]

/-- What a row derives after a step of expansion, it derives before. -/
theorem Expands.derives (h : Expands definitions ps qs) (hqs : Derives definitions (.seq qs) ks) :
    Derives definitions (.seq ps) ks := by
  cases h with
  | rule h =>
    cases hqs with
    | seqCons first later => exact .seqCons (.rule h first) later
  | seq =>
    obtain ⟨fore, aft, rfl, hps, hrest⟩ := derives_seq_append hqs
    exact .seqCons hps hrest
  | choice h =>
    cases hqs with
    | seqCons first later => exact .seqCons (.choice h first) later
  | optionalNone => exact .seqCons .optionalNone hqs
  | optionalSome =>
    cases hqs with
    | seqCons first later => exact .seqCons (.optionalSome first) later
  | manyNil => exact .seqCons .manyNil hqs
  | manyCons =>
    cases hqs with
    | seqCons first later =>
      cases later with
      | seqCons again later =>
        rw [← List.append_assoc]
        exact .seqCons (.manyCons first again) later
  | atLeastOne =>
    cases hqs with
    | seqCons first later =>
      cases later with
      | seqCons again later =>
        rw [← List.append_assoc]
        exact .seqCons (.atLeastOne first again) later

/-- A production and all those inside it derive something. -/
def Fertile (definitions : List (Rule × Production)) (p : Production) : Prop :=
  ∀ q, Inside q p → ∃ ks, Derives definitions q ks

/-- Every production that occurs in a definition derives something. -/
def Productive (definitions : List (Rule × Production)) : Prop :=
  ∀ r p, (r, p) ∈ definitions → Fertile definitions p

theorem Fertile.many (h : Fertile definitions p) : Fertile definitions (.many p) := by
  intro q hq
  cases hq with
  | here => exact ⟨[], .manyNil⟩
  | many inner => exact h q inner

theorem mem_of_lookup {r : Rule} (h : definitions.lookup r = some p) : (r, p) ∈ definitions := by
  obtain ⟨before, later, rfl, -⟩ := List.lookup_eq_some_iff.1 h
  simp

/-- Expansion keeps a row of productions that derive something. -/
theorem Expands.fertile (hp : Productive definitions) (h : Expands definitions ps qs)
    (hps : ∀ p ∈ ps, Fertile definitions p) : ∀ q ∈ qs, Fertile definitions q := by
  obtain ⟨front, rest, rfl⟩ : ∃ front rest, ps = front :: rest := by
    cases h <;> exact ⟨_, _, rfl⟩
  obtain ⟨hfront, hrest⟩ := List.forall_mem_cons.1 hps
  cases h with
  | rule h => exact List.forall_mem_cons.2 ⟨hp _ _ (mem_of_lookup h), hrest⟩
  | seq =>
    exact List.forall_mem_append.2 ⟨fun p hp q hq => hfront q (.seq hp hq), hrest⟩
  | choice h => exact List.forall_mem_cons.2 ⟨fun q hq => hfront q (.choice h hq), hrest⟩
  | optionalNone | manyNil => exact hrest
  | optionalSome => exact List.forall_mem_cons.2 ⟨fun q hq => hfront q (.optional hq), hrest⟩
  | manyCons =>
    have hbody : Fertile definitions _ := fun q hq => hfront q (.many hq)
    exact List.forall_mem_cons.2 ⟨hbody, List.forall_mem_cons.2 ⟨hfront, hrest⟩⟩
  | atLeastOne =>
    have hbody : Fertile definitions _ := fun q hq => hfront q (.atLeastOne hq)
    exact List.forall_mem_cons.2 ⟨hbody, List.forall_mem_cons.2 ⟨hbody.many, hrest⟩⟩

theorem exists_derives_seq : ∀ {ps : List Production}, (∀ p ∈ ps, Fertile definitions p) →
    ∃ ks, Derives definitions (.seq ps) ks
  | [], _ => ⟨[], .seqNil⟩
  | p :: ps, h => by
    obtain ⟨hp, hps⟩ := List.forall_mem_cons.1 h
    obtain ⟨ks, hks⟩ := hp p .here
    obtain ⟨ls, hls⟩ := exists_derives_seq hps
    exact ⟨ks ++ ls, .seqCons hks hls⟩

theorem exists_derives_of_begins (hp : Productive definitions)
    (hps : ∀ p ∈ ps, Fertile definitions p) (h : Begins definitions ps k) :
    ∃ ks, Derives definitions (.seq ps) (k :: ks) := by
  obtain ⟨τ, rest, hrun, hk⟩ := h
  induction hrun using ReflTransGen.head_induction_on with
  | refl =>
    obtain ⟨ks, hks⟩ := exists_derives_seq (List.forall_mem_cons.1 hps).2
    exact ⟨ks, .seqCons (.terminal hk) hks⟩
  | head hstep _ ih =>
    obtain ⟨ks, hks⟩ := ih (hstep.fertile hp hps)
    exact ⟨ks, hstep.derives hks⟩

/-! ## What is listed -/

theorem mem_kinds_iff {r : Rule} :
    k ∈ (Table.leadsOf definitions (Table.emptyRulesOf definitions)).kinds r ↔
      Begins definitions [.rule r] k := by
  have h : k ∈ (Table.ofDefinitions .code definitions).firstOf (.rule r) ↔
      Begins definitions [.rule r] k := mem_firstOf_iff
  rw [← h, Table.mem_firstOf, ← List.contains_iff_mem]
  rfl

theorem mem_emptyRulesOf_iff {r : Rule} :
    r ∈ Table.emptyRulesOf definitions ↔ Derives definitions (.rule r) [] := by
  have h : (Production.rule r).nullable (Table.ofDefinitions .code definitions).isNullable = true ↔
      Derives definitions (.rule r) [] := nullable_iff
  rw [← h, ← List.contains_iff_mem]
  rfl

theorem exists_derives_of_mem_kinds (hp : Productive definitions) {r : Rule}
    (h : k ∈ (Table.leadsOf definitions (Table.emptyRulesOf definitions)).kinds r) :
    ∃ ks, Derives definitions (.rule r) (k :: ks) := by
  obtain ⟨τ, rest, hrun, hk⟩ := mem_kinds_iff.1 h
  rcases hrun.cases_head with heq | ⟨row, hstep, hlater⟩
  · cases heq
  · cases hstep with
    | rule hbody =>
      have hfertile := hp _ _ (mem_of_lookup hbody)
      obtain ⟨ks, hks⟩ := exists_derives_of_begins hp (by simpa using hfertile)
        ⟨τ, rest, hlater, hk⟩
      exact ⟨ks, .rule hbody (derives_of_seq_singleton hks)⟩

/-- The rounds come to an end. The rules noted are those that derive nothing. Every kind that a list
derived from a rule begins with is listed for the rule, and no other is if every production that
occurs in a definition derives something. -/
theorem leads_exact (definitions : List (Rule × Production)) :
    let empty := Table.emptyRulesOf definitions
    let leads := Table.leadsOf definitions empty
    (Table.emptySweep definitions).EndsIn [] empty ∧
    (∀ r, r ∈ empty ↔ Derives definitions (.rule r) []) ∧
    (Leads.sweep definitions empty).EndsIn (.start definitions) leads ∧
    (∀ r k ks, Derives definitions (.rule r) (k :: ks) → k ∈ leads.kinds r) ∧
    (Productive definitions →
      ∀ r, ∀ k ∈ leads.kinds r, ∃ ks, Derives definitions (.rule r) (k :: ks)) := by
  refine ⟨Sweep.endsIn_settle _ _, fun r => mem_emptyRulesOf_iff, Sweep.endsIn_settle _ _, ?_, ?_⟩
  · exact fun r k ks h => mem_kinds_iff.2 h.begins
  · exact fun hp r k hk => exists_derives_of_mem_kinds hp hk

/-- Brackets inside one another, or nothing. -/
def nestedBrackets : List (Rule × Production) :=
  [(.expression, .optional (.seq [.token .openRound, .rule .expression, .token .closeRound]))]

theorem nestedBrackets_productive : Productive nestedBrackets := by
  have hnil : Derives nestedBrackets (.rule .expression) [] := .rule rfl .optionalNone
  have htoken : ∀ k, Derives nestedBrackets (.token k) [k] := fun k =>
    .terminal (List.mem_singleton_self k)
  intro r p hp q hq
  obtain ⟨rfl, rfl⟩ : r = .expression ∧ p = _ := by simpa [nestedBrackets] using hp
  cases hq with
  | here => exact ⟨[], .optionalNone⟩
  | optional hq =>
    cases hq with
    | here =>
      exact ⟨_, .seqCons (htoken _) (.seqCons hnil (.seqCons (htoken _) .seqNil))⟩
    | seq h hq =>
      simp only [List.mem_cons, List.not_mem_nil, or_false] at h
      rcases h with rfl | rfl | rfl <;> cases hq
      · exact ⟨_, htoken _⟩
      · exact ⟨_, hnil⟩
      · exact ⟨_, htoken _⟩

/-- An opening bracket is listed for brackets inside one another, and begins some. -/
theorem leads_exact_nestedBrackets : Productive nestedBrackets ∧
    ∃ ks, Derives nestedBrackets (.rule .expression) (.openRound :: ks) := by
  have hlisted : .openRound ∈ (Table.leadsOf nestedBrackets
      (Table.emptyRulesOf nestedBrackets)).kinds .expression := by decide +kernel
  obtain ⟨-, -, -, -, hbegins⟩ := leads_exact nestedBrackets
  exact ⟨nestedBrackets_productive, hbegins nestedBrackets_productive _ _ hlisted⟩

end Derivations

end BlockNotation
