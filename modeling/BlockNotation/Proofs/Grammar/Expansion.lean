import BlockNotation.Proofs.Grammar.Prolonging
import BlockNotation.Proofs.Grammar.Recursion
import BlockNotation.Proofs.Grammar.ScriptTable
import Mathlib.Data.List.Basic
import Mathlib.Logic.Relation

/-!
# What a production can do before it takes a token

A row of productions is expanded from the left, one step at a time, until a terminal stands in
front (`Expands`). The kinds of that terminal are those the row can begin with (`Begins`), and the
rules that come up in front are those it can enter before it takes a token (`LeadsTo`).

A table answers the same questions by closing a set of rules under its definitions. The answers
are exact: what it takes to match nothing derives nothing (`nullable_iff`), the kinds it lists for
a production are those the production begins with (`mem_firstOf_iff`), and following the rules it
lists as entered gives the rules that come up in front (`leadsTo_iff`).
-/

namespace BlockNotation

open Relation

/-! ## Expansion from the left -/

/-- One step of expanding the production in front of a row. A terminal in front is left alone. -/
inductive Expands (definitions : List (Rule × Production)) :
    List Production → List Production → Prop where
  | rule {r : Rule} {p : Production} {rest : List Production}
      (h : definitions.lookup r = some p) : Expands definitions (.rule r :: rest) (p :: rest)
  | seq {ps rest : List Production} : Expands definitions (.seq ps :: rest) (ps ++ rest)
  | choice {p : Production} {ps rest : List Production} (h : p ∈ ps) :
      Expands definitions (.choice ps :: rest) (p :: rest)
  | optionalNone {p : Production} {rest : List Production} :
      Expands definitions (.optional p :: rest) rest
  | optionalSome {p : Production} {rest : List Production} :
      Expands definitions (.optional p :: rest) (p :: rest)
  | manyNil {p : Production} {rest : List Production} : Expands definitions (.many p :: rest) rest
  | manyCons {p : Production} {rest : List Production} :
      Expands definitions (.many p :: rest) (p :: .many p :: rest)
  | atLeastOne {p : Production} {rest : List Production} :
      Expands definitions (.atLeastOne p :: rest) (p :: .many p :: rest)

section Expansion

variable (definitions : List (Rule × Production))

/-- Some expansion of the row has a terminal of kind `k` in front. -/
def Begins (ps : List Production) (k : Kind) : Prop :=
  ∃ τ rest, ReflTransGen (Expands definitions) ps (.terminal τ :: rest) ∧ k ∈ τ.kinds

/-- Expanding rule `q` brings up rule `r` in front. -/
def LeadsTo (q r : Rule) : Prop :=
  ∃ rest, TransGen (Expands definitions) [.rule q] (.rule r :: rest)

end Expansion

variable {definitions : List (Rule × Production)} {ps qs rest : List Production} {p : Production}
  {k : Kind}

theorem Expands.append (h : Expands definitions ps qs) (rest : List Production) :
    Expands definitions (ps ++ rest) (qs ++ rest) := by
  cases h with
  | rule h => exact .rule h
  | seq => rw [List.append_assoc]; exact .seq
  | choice h => exact .choice h
  | optionalNone => exact .optionalNone
  | optionalSome => exact .optionalSome
  | manyNil => exact .manyNil
  | manyCons => exact .manyCons
  | atLeastOne => exact .atLeastOne

theorem expansion_append (h : ReflTransGen (Expands definitions) ps qs)
    (rest : List Production) :
    ReflTransGen (Expands definitions) (ps ++ rest) (qs ++ rest) :=
  h.lift (· ++ rest) fun _ _ hstep => hstep.append rest

/-- What derives nothing can be expanded away. -/
theorem Derives.expands_away {ks : List Kind} (h : Derives definitions p ks) (hks : ks = [])
    (rest : List Production) : ReflTransGen (Expands definitions) (p :: rest) rest := by
  induction h generalizing rest with
  | terminal => cases hks
  | rule h _ ih => exact .head (.rule h) (ih hks rest)
  | seqNil => exact .single .seq
  | @seqCons p ps ks ls _ _ ihf ihl =>
    obtain ⟨rfl, rfl⟩ := List.append_eq_nil_iff.1 hks
    refine .head .seq ((ihf rfl (ps ++ rest)).trans ?_)
    -- The rest of the sequence is expanded away only after it is written out.
    rcases (ihl rfl rest).cases_head with heq | ⟨row, hstep, hlater⟩
    · simp at heq
    · cases hstep
      exact hlater
  | choice h _ ih => exact .head (.choice h) (ih hks rest)
  | optionalNone => exact .single .optionalNone
  | optionalSome _ ih => exact .head .optionalSome (ih hks rest)
  | manyNil => exact .single .manyNil
  | manyCons _ _ ihf ihl =>
    obtain ⟨rfl, rfl⟩ := List.append_eq_nil_iff.1 hks
    exact .head .manyCons ((ihf rfl _).trans (ihl rfl rest))
  | atLeastOne _ _ ihf ihl =>
    obtain ⟨rfl, rfl⟩ := List.append_eq_nil_iff.1 hks
    exact .head .atLeastOne ((ihf rfl _).trans (ihl rfl rest))

namespace Begins

theorem step (hstep : Expands definitions ps qs) (h : Begins definitions qs k) :
    Begins definitions ps k := by
  obtain ⟨τ, rest, hrun, hk⟩ := h
  exact ⟨τ, rest, .head hstep hrun, hk⟩

theorem append (h : Begins definitions ps k) (rest : List Production) :
    Begins definitions (ps ++ rest) k := by
  obtain ⟨τ, rest', hrun, hk⟩ := h
  exact ⟨τ, rest' ++ rest, expansion_append hrun rest, hk⟩

theorem skip (hp : Derives definitions p []) (h : Begins definitions ps k) :
    Begins definitions (p :: ps) k := by
  obtain ⟨τ, rest, hrun, hk⟩ := h
  exact ⟨τ, rest, (hp.expands_away rfl ps).trans hrun, hk⟩

end Begins

/-! ## Matching nothing -/

section Nullable

variable {start : Rule}

theorem derives_seq_nil (h : ∀ p ∈ ps, Derives definitions p []) :
    Derives definitions (.seq ps) [] := by
  induction ps with
  | nil => exact .seqNil
  | cons p ps ih =>
    have hps := ih fun q hq => h q (List.mem_cons_of_mem _ hq)
    exact .seqCons (h p List.mem_cons_self) hps

theorem derives_nil_of_nullable {known : Rule → Bool}
    (h : ∀ r, known r = true → Derives definitions (.rule r) []) (p : Production) :
    p.nullable known = true → Derives definitions p [] := by
  induction p using Production.induction with
  | terminal τ => simp [Production.nullable]
  | rule r => exact h r
  | seq ps ih =>
    simp only [Production.nullable, Production.allNullable_eq, List.all_eq_true]
    exact fun hps => derives_seq_nil fun p hp => ih p hp (hps p hp)
  | choice ps ih =>
    simp only [Production.nullable, Production.anyNullable_eq, List.any_eq_true]
    rintro ⟨p, hp, hnull⟩
    exact .choice hp (ih p hp hnull)
  | optional p _ => exact fun _ => .optionalNone
  | many p _ => exact fun _ => .manyNil
  | atLeastOne p ih => exact fun hnull => .atLeastOne (ih hnull) .manyNil

theorem noteEmpty_eq {empty : List Rule} {r : Rule} (hbody : definitions.lookup r = some p)
    (hnull : p.nullable (empty.contains ·) = true)
    (h : Table.noteEmpty definitions empty r = empty) : r ∈ empty := by
  by_contra hr
  have hnew : (!empty.contains r &&
      (definitions.lookup r).any (·.nullable (empty.contains ·))) = true := by
    rw [hbody, Option.any_some, hnull]
    simpa using hr
  rw [Table.noteEmpty, if_pos hnew] at h
  simp at h

/-- A rule that is noted can match nothing, if those noted before can. -/
theorem mem_noteEmpty {empty : List Rule} {q r : Rule}
    (h : q ∈ Table.noteEmpty definitions empty r) : q ∈ empty ∨
      ∃ p, definitions.lookup q = some p ∧ p.nullable (empty.contains ·) = true := by
  unfold Table.noteEmpty at h
  split at h
  · rename_i hr
    rcases List.mem_append.1 h with hq | hq
    · exact .inl hq
    · obtain rfl := List.mem_singleton.1 hq
      exact .inr ((Option.any_eq_true _ _).1 (Bool.and_eq_true_iff.1 hr).2)
  · exact .inl h

/-- What each rule adds to those noted is true of all rules noted in the end. -/
theorem of_mem_emptyRulesOf {P : Rule → Prop}
    (h : ∀ (empty : List Rule) (r : Rule) (p : Production), (∀ q ∈ empty, P q) →
      definitions.lookup r = some p → p.nullable (empty.contains ·) = true → P r) :
    ∀ r ∈ Table.emptyRulesOf definitions, P r := by
  refine (Table.emptySweep definitions).settle_induction (P := fun empty => ∀ r ∈ empty, P r)
    (fun empty r hempty q hq => ?_) _ (by simp)
  rcases mem_noteEmpty hq with hq | ⟨p, hbody, hnull⟩
  · exact hempty q hq
  · exact h empty q p hempty hbody hnull

/-- A rule is noted if its definition can match nothing. -/
theorem isNullable_of_lookup {r : Rule} (h : definitions.lookup r = some p)
    (hnull : p.nullable (Table.ofDefinitions start definitions).isNullable = true) :
    (Table.ofDefinitions start definitions).isNullable r = true :=
  List.contains_iff_mem.2 (noteEmpty_eq h hnull
    ((Table.emptySweep definitions).refresh_settle trivial (Rule.mem_all r)))

theorem nullable_iff {p : Production} :
    p.nullable (Table.ofDefinitions start definitions).isNullable = true ↔
      Derives definitions p [] := by
  constructor
  · refine derives_nil_of_nullable (fun r hr => ?_) p
    refine of_mem_emptyRulesOf (P := fun r => Derives definitions (.rule r) [])
      (fun empty r body hempty hbody hnull => ?_) r (List.contains_iff_mem.1 hr)
    exact .rule hbody
      (derives_nil_of_nullable (fun q hq => hempty q (by simpa using hq)) body hnull)
  · intro h
    generalize hks : ([] : List Kind) = ks at h
    induction h with
    | terminal => cases hks
    | rule h _ ih => exact isNullable_of_lookup h (ih hks)
    | seqNil => rfl
    | seqCons _ _ ihf ihl =>
      obtain ⟨rfl, rfl⟩ := List.append_eq_nil_iff.1 hks.symm
      simp only [Production.nullable, Production.allNullable, Bool.and_eq_true]
      exact ⟨ihf rfl, ihl rfl⟩
    | choice h _ ih =>
      simp only [Production.nullable, Production.anyNullable_eq, List.any_eq_true]
      exact ⟨_, h, ih hks⟩
    | optionalNone | optionalSome | manyNil | manyCons => rfl
    | atLeastOne _ _ ihf _ =>
      obtain ⟨rfl, rfl⟩ := List.append_eq_nil_iff.1 hks.symm
      exact ihf rfl

/-- A rule matches nothing if its definition does. -/
theorem isNullable_eq_of_lookup {r : Rule} (h : definitions.lookup r = some p) :
    (Table.ofDefinitions start definitions).isNullable r =
      p.nullable (Table.ofDefinitions start definitions).isNullable := by
  rw [Bool.eq_iff_iff, nullable_iff]
  refine (nullable_iff (p := .rule r)).trans ⟨fun hnil => ?_, .rule h⟩
  cases hnil with
  | rule hbody hnil =>
    obtain rfl := Option.some.inj (h.symm.trans hbody)
    exact hnil

end Nullable

/-! ## Beginning with a kind -/

section First

variable {start : Rule}

theorem lookup_eq_none_iff {r : Rule} :
    definitions.lookup r = none ↔ r ∉ definitions.map (·.1) := by
  simp only [List.lookup_eq_none_iff, bne_iff_ne, List.mem_map, not_exists, not_and]
  exact forall₂_congr fun d _ => ne_comm

/-- A rule begins as its definition does. -/
theorem starts_eq_of_lookup {r : Rule} (h : definitions.lookup r = some p) :
    (Table.ofDefinitions start definitions).starts r k =
      p.startsWith (Table.ofDefinitions start definitions).isNullable
        ((Table.ofDefinitions start definitions).starts · k) k := by
  have hfirst : (Table.ofDefinitions start definitions).first r =
      (Table.ofDefinitions start definitions).firstOf p := by
    refine (Table.kinds_leadsOf r).trans ?_
    rw [Leads.ofRule, h]
    rfl
  rw [Bool.eq_iff_iff, Table.starts, List.contains_iff_mem, hfirst, Table.mem_firstOf]

/-- What each rule adds to the kinds listed is true of all kinds listed in the end. -/
theorem of_mem_kinds_leadsOf {empty : List Rule} {P : Rule → Kind → Prop}
    (h : ∀ (l : Leads) (r : Rule) (p : Production) (k : Kind),
      (∀ q, ∀ j ∈ l.kinds q, P q j) → definitions.lookup r = some p →
      k ∈ l.ofProduction empty p → P r k) :
    ∀ r, ∀ k ∈ (Table.leadsOf definitions empty).kinds r, P r k := by
  have hentries : ∀ e ∈ Table.leadsOf definitions empty, ∀ k ∈ e.2, P e.1 k := by
    refine (Leads.sweep definitions empty).settle_induction
      (P := fun l => ∀ e ∈ l, ∀ k ∈ e.2, P e.1 k) (fun l r hl e he k hk => ?_) _ ?_
    · have hl' : ∀ q, ∀ j ∈ l.kinds q, P q j := by
        intro q j hj
        obtain ⟨ks, hks, hj⟩ := Leads.exists_of_mem_kinds hj
        exact hl _ hks j hj
      obtain ⟨e, hmem, rfl⟩ := List.mem_map.1 he
      split at hk
      · rename_i hr
        rw [if_pos hr]
        unfold Leads.ofRule at hk
        split at hk
        · rename_i p hp
          exact h l r p k hl' hp hk
        · simp at hk
      · rename_i hr
        rw [if_neg hr]
        exact hl e hmem k hk
    · intro e he k hk
      obtain ⟨d, -, rfl⟩ := List.mem_map.1 he
      cases hk
  intro r k hk
  obtain ⟨ks, hks, hk⟩ := Leads.exists_of_mem_kinds hk
  exact hentries _ hks k hk

theorem begins_of_seqStartsWith {empty starts : Rule → Bool}
    (hempty : ∀ p : Production, p.nullable empty = true → Derives definitions p [])
    (h : ∀ p ∈ ps, p.startsWith empty starts k = true → Begins definitions [p] k)
    (hps : Production.seqStartsWith empty starts k ps = true) : Begins definitions ps k := by
  induction ps with
  | nil => cases hps
  | cons p ps ih =>
    simp only [Production.seqStartsWith, Bool.or_eq_true, Bool.and_eq_true] at hps
    rcases hps with hp | ⟨hnull, hps⟩
    · exact (h p List.mem_cons_self hp).append ps
    · exact .skip (hempty p hnull) (ih (fun q hq => h q (List.mem_cons_of_mem _ hq)) hps)

theorem begins_of_startsWith {empty starts : Rule → Bool}
    (hempty : ∀ p : Production, p.nullable empty = true → Derives definitions p [])
    (hstarts : ∀ r, starts r = true → Begins definitions [.rule r] k) (p : Production) :
    p.startsWith empty starts k = true → Begins definitions [p] k := by
  induction p using Production.induction with
  | terminal τ =>
    intro hk
    exact ⟨τ, [], .refl, List.contains_iff_mem.1 hk⟩
  | rule r => exact hstarts r
  | seq ps ih =>
    intro hps
    refine .step .seq ?_
    rw [List.append_nil]
    exact begins_of_seqStartsWith hempty ih hps
  | choice ps ih =>
    simp only [Production.startsWith, Production.anyStartsWith_eq, List.any_eq_true]
    rintro ⟨p, hp, hstart⟩
    exact .step (.choice hp) (ih p hp hstart)
  | optional p ih => exact fun h => .step .optionalSome (ih h)
  | many p ih => exact fun h => .step .manyCons ((ih h).append [.many p])
  | atLeastOne p ih => exact fun h => .step .atLeastOne ((ih h).append [.many p])

theorem seqStartsWith_append {empty starts : Rule → Bool} (ps rest : List Production) :
    Production.seqStartsWith empty starts k (ps ++ rest) =
      (Production.seqStartsWith empty starts k ps ||
        (Production.allNullable empty ps && Production.seqStartsWith empty starts k rest)) := by
  induction ps with
  | nil => simp [Production.seqStartsWith, Production.allNullable]
  | cons p ps ih =>
    simp only [List.cons_append, Production.seqStartsWith, Production.allNullable, ih]
    cases p.nullable empty <;> simp [Bool.or_assoc]

/-- Whatever an expansion begins with, the table has listed before it. -/
theorem Expands.seqStartsWith (h : Expands definitions ps qs) :
    Production.seqStartsWith (Table.ofDefinitions start definitions).isNullable
        ((Table.ofDefinitions start definitions).starts · k) k qs = true →
      Production.seqStartsWith (Table.ofDefinitions start definitions).isNullable
        ((Table.ofDefinitions start definitions).starts · k) k ps = true := by
  cases h with
  | rule h =>
    simp only [Production.seqStartsWith, Production.startsWith, Production.nullable]
    rw [starts_eq_of_lookup h, isNullable_eq_of_lookup h]
    exact id
  | seq =>
    rw [seqStartsWith_append]
    exact id
  | choice h =>
    simp only [Production.seqStartsWith, Production.startsWith, Production.nullable,
      Production.anyStartsWith_eq, Production.anyNullable_eq, Bool.or_eq_true, Bool.and_eq_true,
      List.any_eq_true]
    exact Or.imp (fun hp => ⟨_, h, hp⟩) (And.imp_left fun hp => ⟨_, h, hp⟩)
  | optionalNone | manyNil =>
    simp only [Production.seqStartsWith, Production.nullable, Bool.true_and, Bool.or_eq_true]
    exact .inr
  | optionalSome | manyCons | atLeastOne =>
    simp only [Production.seqStartsWith, Production.startsWith, Production.nullable,
      Bool.or_eq_true, Bool.and_eq_true]
    tauto

theorem mem_firstOf_iff {p : Production} :
    k ∈ (Table.ofDefinitions start definitions).firstOf p ↔ Begins definitions [p] k := by
  rw [Table.mem_firstOf]
  constructor
  · refine begins_of_startsWith (fun _ => nullable_iff.1) (fun r hr => ?_) p
    refine of_mem_kinds_leadsOf (P := fun r k => Begins definitions [.rule r] k)
      (fun l r body k hl hbody hk => ?_) r k (List.contains_iff_mem.1 hr)
    refine .step (.rule hbody) (begins_of_startsWith (fun p hp => ?_)
      (fun q hq => hl q k (List.contains_iff_mem.1 hq)) body (List.mem_filter.1 hk).2)
    have hp' : p.nullable (Table.ofDefinitions start definitions).isNullable = true := hp
    exact nullable_iff.1 hp'
  · rintro ⟨τ, rest, hrun, hk⟩
    have hrow : Production.seqStartsWith (Table.ofDefinitions start definitions).isNullable
        ((Table.ofDefinitions start definitions).starts · k) k [p] = true := by
      refine hrun.head_induction_on ?_ fun hstep _ ih => hstep.seqStartsWith ih
      simp [Production.seqStartsWith, Production.startsWith, hk]
    simpa [Production.seqStartsWith] using hrow

/-- A derived list begins as its production does. -/
theorem Derives.begins {ks : List Kind} (h : Derives definitions p (k :: ks)) :
    Begins definitions [p] k := by
  generalize hl : k :: ks = l at h
  induction h generalizing ks with
  | @terminal τ j hj =>
    cases hl
    exact ⟨τ, [], .refl, hj⟩
  | rule h _ ih => exact .step (.rule h) (ih hl)
  | seqNil | optionalNone | manyNil => cases hl
  | @seqCons p ps ks' ls first later ihf ihl =>
    refine .step .seq ?_
    cases ks' with
    | nil =>
      refine .skip first ?_
      obtain ⟨τ, rest, hrun, hk⟩ := ihl hl
      rcases hrun.cases_head with heq | ⟨row, hstep, hlater⟩
      · cases heq
      · cases hstep
        exact ⟨τ, rest, hlater, hk⟩
    | cons j js =>
      obtain ⟨rfl, -⟩ := List.cons.inj hl
      exact (ihf rfl).append _
  | choice h _ ih => exact .step (.choice h) (ih hl)
  | optionalSome _ ih => exact .step .optionalSome (ih hl)
  | @manyCons p ks' ls first later ihf ihl =>
    refine .step .manyCons ?_
    cases ks' with
    | nil => exact .skip first (ihl hl)
    | cons j js =>
      obtain ⟨rfl, -⟩ := List.cons.inj hl
      exact (ihf rfl).append _
  | @atLeastOne p ks' ls first later ihf ihl =>
    refine .step .atLeastOne ?_
    cases ks' with
    | nil => exact .skip first (ihl hl)
    | cons j js =>
      obtain ⟨rfl, -⟩ := List.cons.inj hl
      exact (ihf rfl).append _

end First

/-! ## Entering a rule -/

section Entering

variable {start : Rule}

theorem entries_eq_of_lookup {r : Rule} (h : definitions.lookup r = some p) :
    (Table.ofDefinitions start definitions).entries r =
      p.entered (Table.ofDefinitions start definitions).isNullable := by
  have h' : (Table.ofDefinitions start definitions).definition? r = some p := h
  rw [Table.entries, h']

theorem seqEntered_append {empty : Rule → Bool} (ps rest : List Production) :
    Production.seqEntered empty (ps ++ rest) = Production.seqEntered empty ps ++
      if Production.allNullable empty ps then Production.seqEntered empty rest else [] := by
  induction ps with
  | nil => simp [Production.seqEntered, Production.allNullable]
  | cons p ps ih =>
    simp only [List.cons_append, Production.seqEntered, Production.allNullable, ih]
    by_cases hp : p.nullable empty = true <;> simp [hp]

theorem mem_anyEntered {empty : Rule → Bool} {r : Rule} :
    r ∈ Production.anyEntered empty ps ↔ ∃ p ∈ ps, r ∈ p.entered empty := by
  induction ps with
  | nil => simp [Production.anyEntered]
  | cons p ps ih => simp [Production.anyEntered, ih]

/-- A rule entered after a step of expansion is entered before it, or from a rule that is. -/
theorem Expands.entered {r : Rule} (h : Expands definitions ps qs)
    (hr : r ∈ Production.seqEntered (Table.ofDefinitions start definitions).isNullable qs) :
    ∃ q ∈ Production.seqEntered (Table.ofDefinitions start definitions).isNullable ps,
      ReflTransGen (Table.Enters (Table.ofDefinitions start definitions).entries) q r := by
  cases h with
  | @rule q body rest h =>
    simp only [Production.seqEntered, List.mem_append] at hr
    rcases hr with hr | hr
    · refine ⟨q, by simp [Production.seqEntered, Production.entered], .single ?_⟩
      rw [Table.Enters, entries_eq_of_lookup h]
      exact hr
    · rw [← isNullable_eq_of_lookup h] at hr
      exact ⟨r, List.mem_append_right _ hr, .refl⟩
  | seq =>
    rw [seqEntered_append] at hr
    exact ⟨r, hr, .refl⟩
  | @choice p ps rest h =>
    refine ⟨r, ?_, .refl⟩
    simp only [Production.seqEntered, List.mem_append] at hr ⊢
    refine hr.imp (fun hp => mem_anyEntered.2 ⟨p, h, hp⟩) fun hrest => ?_
    split at hrest
    · rename_i hnull
      have hany : (Production.choice ps).nullable
          (Table.ofDefinitions start definitions).isNullable = true := by
        rw [Production.nullable, Production.anyNullable_eq, List.any_eq_true]
        exact ⟨p, h, hnull⟩
      rwa [if_pos hany]
    · simp at hrest
  | optionalNone | manyNil => exact ⟨r, List.mem_append_right _ hr, .refl⟩
  | optionalSome | manyCons | atLeastOne =>
    refine ⟨r, ?_, .refl⟩
    simp only [Production.seqEntered, Production.entered, Production.nullable] at hr ⊢
    grind

theorem expansion_of_mem_seqEntered {empty : Rule → Bool} {r : Rule}
    (hempty : ∀ p : Production, p.nullable empty = true → Derives definitions p [])
    (h : ∀ p ∈ ps, r ∈ p.entered empty →
      ∃ rest, ReflTransGen (Expands definitions) [p] (.rule r :: rest))
    (hr : r ∈ Production.seqEntered empty ps) :
    ∃ rest, ReflTransGen (Expands definitions) ps (.rule r :: rest) := by
  induction ps with
  | nil => simp [Production.seqEntered] at hr
  | cons p ps ih =>
    simp only [Production.seqEntered, List.mem_append] at hr
    rcases hr with hr | hr
    · obtain ⟨rest, hrun⟩ := h p List.mem_cons_self hr
      exact ⟨rest ++ ps, expansion_append hrun ps⟩
    · split at hr
      · rename_i hnull
        obtain ⟨rest, hrun⟩ := ih (fun q hq => h q (List.mem_cons_of_mem _ hq)) hr
        exact ⟨rest, ((hempty p hnull).expands_away rfl ps).trans hrun⟩
      · simp at hr

theorem expansion_of_mem_entered {empty : Rule → Bool} {r : Rule}
    (hempty : ∀ p : Production, p.nullable empty = true → Derives definitions p [])
    (p : Production) : r ∈ p.entered empty →
      ∃ rest, ReflTransGen (Expands definitions) [p] (.rule r :: rest) := by
  induction p using Production.induction with
  | terminal τ => simp [Production.entered]
  | rule q =>
    simp only [Production.entered, List.mem_singleton]
    rintro rfl
    exact ⟨[], .refl⟩
  | seq ps ih =>
    intro hr
    obtain ⟨rest, hrun⟩ := expansion_of_mem_seqEntered hempty ih hr
    refine ⟨rest, .head .seq ?_⟩
    rwa [List.append_nil]
  | choice ps ih =>
    rw [Production.entered, mem_anyEntered]
    rintro ⟨p, hp, hr⟩
    obtain ⟨rest, hrun⟩ := ih p hp hr
    exact ⟨rest, .head (.choice hp) hrun⟩
  | optional p ih =>
    intro hr
    obtain ⟨rest, hrun⟩ := ih hr
    exact ⟨rest, .head .optionalSome hrun⟩
  | many p ih =>
    intro hr
    obtain ⟨rest, hrun⟩ := ih hr
    exact ⟨_, .head .manyCons (expansion_append hrun [.many p])⟩
  | atLeastOne p ih =>
    intro hr
    obtain ⟨rest, hrun⟩ := ih hr
    exact ⟨_, .head .atLeastOne (expansion_append hrun [.many p])⟩

theorem LeadsTo.trans {q r r' : Rule} (h : LeadsTo definitions q r)
    (h' : LeadsTo definitions r r') : LeadsTo definitions q r' := by
  obtain ⟨rest, hrun⟩ := h
  obtain ⟨rest', hrun'⟩ := h'
  exact ⟨rest' ++ rest, hrun.trans (hrun'.lift (· ++ rest) fun _ _ hs => hs.append rest)⟩

theorem leadsTo_of_transGen {q r : Rule} (h : TransGen (LeadsTo definitions) q r) :
    LeadsTo definitions q r := by
  induction h with
  | single h => exact h
  | tail _ h ih => exact ih.trans h

theorem leadsTo_of_enters {q r : Rule}
    (h : Table.Enters (Table.ofDefinitions start definitions).entries q r) :
    LeadsTo definitions q r := by
  cases hbody : definitions.lookup q with
  | none =>
    have hnone : (Table.ofDefinitions start definitions).definition? q = none := hbody
    simp [Table.Enters, Table.entries, hnone] at h
  | some body =>
    rw [Table.Enters, entries_eq_of_lookup hbody] at h
    obtain ⟨rest, hrun⟩ := expansion_of_mem_entered (fun _ => nullable_iff.1) body h
    exact ⟨rest, .head' (.rule hbody) hrun⟩

theorem leadsTo_iff {q r : Rule} : LeadsTo definitions q r ↔
    TransGen (Table.Enters (Table.ofDefinitions start definitions).entries) q r := by
  constructor
  · rintro ⟨rest, hrun⟩
    obtain ⟨row, hstep, hlater⟩ := TransGen.head'_iff.1 hrun
    cases hstep with
    | @rule _ body _ hbody =>
      obtain ⟨q', hq', hpath⟩ : ∃ q' ∈ Production.seqEntered
          (Table.ofDefinitions start definitions).isNullable [body],
          ReflTransGen (Table.Enters (Table.ofDefinitions start definitions).entries) q' r := by
        refine hlater.head_induction_on ?_ fun hstep _ ih => ?_
        · exact ⟨r, by simp [Production.seqEntered, Production.entered], .refl⟩
        · obtain ⟨q₁, hq₁, hpath⟩ := ih
          obtain ⟨q₂, hq₂, hpath'⟩ := hstep.entered hq₁
          exact ⟨q₂, hq₂, hpath'.trans hpath⟩
      refine .head' ?_ hpath
      rw [Table.Enters, entries_eq_of_lookup hbody]
      simpa [Production.seqEntered] using hq'
  · intro h
    exact leadsTo_of_transGen (h.lift id fun _ _ => leadsTo_of_enters)

end Entering

end BlockNotation
