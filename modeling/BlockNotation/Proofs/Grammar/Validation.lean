import BlockNotation.Proofs.Grammar.Expansion
import Mathlib.Data.List.Nodup

/-!
# Which definitions make a table

A list of definitions is consistent if every rule that is used is defined, once; no rule leads
back to itself before it takes a token; no repeated body derives nothing; and no two alternatives
of a choice begin with the same kind or both derive nothing. Tables are built from the consistent
lists and from no others, and an error names something that is really wrong (`build_exact`).

So a list of kinds is derived from one alternative of a choice at most
(`alternatives_apart`).
-/

namespace BlockNotation

open Relation

/-- A production occurs in another, at any depth. -/
inductive Inside (q : Production) : Production → Prop where
  | here : Inside q q
  | seq {p : Production} {ps : List Production} (h : p ∈ ps) (inner : Inside q p) :
      Inside q (.seq ps)
  | choice {p : Production} {ps : List Production} (h : p ∈ ps) (inner : Inside q p) :
      Inside q (.choice ps)
  | optional {p : Production} (inner : Inside q p) : Inside q (.optional p)
  | many {p : Production} (inner : Inside q p) : Inside q (.many p)
  | atLeastOne {p : Production} (inner : Inside q p) : Inside q (.atLeastOne p)

/-- A production repeats a body, at any depth. -/
def Repeats (p body : Production) : Prop := Inside (.many body) p ∨ Inside (.atLeastOne body) p

/-- What predictive reading asks of a list of definitions. -/
structure Consistent (start : Rule) (definitions : List (Rule × Production)) : Prop where
  once : (definitions.map (·.1)).Nodup
  start_defined : start ∈ definitions.map (·.1)
  defined : ∀ r p, (r, p) ∈ definitions →
    ∀ q, Inside (.rule q) p → q ∈ definitions.map (·.1)
  advances : ∀ r, ¬LeadsTo definitions r r
  loops : ∀ r p, (r, p) ∈ definitions →
    ∀ body, Repeats p body → ¬Derives definitions body []
  leads : ∀ r p, (r, p) ∈ definitions → ∀ ps, Inside (.choice ps) p →
    ps.Pairwise fun a b => ∀ k, ¬(Begins definitions [a] k ∧ Begins definitions [b] k)
  empties : ∀ r p, (r, p) ∈ definitions → ∀ ps, Inside (.choice ps) p →
    ps.Pairwise fun a b => ¬(Derives definitions a [] ∧ Derives definitions b [])

/-- What an error says of a list of definitions. -/
def GrammarError.Genuine (start : Rule) (definitions : List (Rule × Production)) :
    GrammarError → Prop
  | .duplicateRule r => [r, r].Sublist (definitions.map (·.1))
  | .undefinedRule r none => r = start ∧ r ∉ definitions.map (·.1)
  | .undefinedRule r (some q) =>
    r ∉ definitions.map (·.1) ∧ ∃ p, (q, p) ∈ definitions ∧ Inside (.rule r) p
  | .leftRecursion cycle => IsCycle (LeadsTo definitions) cycle
  | .emptyLoop r =>
    ∃ p body, (r, p) ∈ definitions ∧ Repeats p body ∧ Derives definitions body []
  | .ambiguousChoice r overlap =>
    ∃ p ps a b, (r, p) ∈ definitions ∧ Inside (.choice ps) p ∧ [a, b].Sublist ps ∧
      overlap ≠ [] ∧ overlap.Sublist Kind.all ∧
      ∀ k, k ∈ overlap ↔ Begins definitions [a] k ∧ Begins definitions [b] k
  | .nullableAlternatives r =>
    ∃ p ps a b, (r, p) ∈ definitions ∧ Inside (.choice ps) p ∧ [a, b].Sublist ps ∧
      Derives definitions a [] ∧ Derives definitions b []

/-! ## Rules and references -/

theorem duplicate?_eq_some {seen rs : List Rule} {r : Rule}
    (h : Table.duplicate? seen rs = some r) : r ∈ seen ∧ r ∈ rs ∨ [r, r].Sublist rs := by
  fun_induction Table.duplicate? seen rs with
  | case1 => cases h
  | case2 seen q rs hq =>
    cases h
    exact .inl ⟨List.contains_iff_mem.1 hq, List.mem_cons_self⟩
  | case3 seen q rs hq ih =>
    rcases ih h with ⟨hseen, hrs⟩ | hsub
    · rcases List.mem_cons.1 hseen with rfl | hseen
      · exact .inr ((List.singleton_sublist.2 hrs).cons_cons r)
      · exact .inl ⟨hseen, List.mem_cons_of_mem q hrs⟩
    · exact .inr (hsub.cons q)

theorem duplicate?_eq_none {seen rs : List Rule} (h : Table.duplicate? seen rs = none) :
    rs.Nodup ∧ ∀ r ∈ rs, r ∉ seen := by
  fun_induction Table.duplicate? seen rs with
  | case1 => simp
  | case2 => cases h
  | case3 seen r rs hr ih =>
    obtain ⟨hnodup, hrs⟩ := ih h
    simp only [List.mem_cons, not_or] at hrs
    refine ⟨List.nodup_cons.2 ⟨fun hmem => (hrs r hmem).1 rfl, hnodup⟩, ?_⟩
    exact List.forall_mem_cons.2 ⟨by simpa using hr, fun q hq => (hrs q hq).2⟩

theorem mem_references_iff {r : Rule} (p : Production) :
    r ∈ p.references ↔ Inside (.rule r) p := by
  have hall : ∀ ps : List Production,
      r ∈ Production.referencesOfAll ps ↔ ∃ p ∈ ps, r ∈ p.references := by
    intro ps
    induction ps with
    | nil => simp [Production.referencesOfAll]
    | cons p ps ih => simp [Production.referencesOfAll, ih]
  constructor
  · induction p using Production.induction with
    | terminal τ => simp [Production.references]
    | rule q =>
      simp only [Production.references, List.mem_singleton]
      rintro rfl
      exact .here
    | seq ps ih =>
      rw [Production.references, hall]
      rintro ⟨p, hp, hr⟩
      exact .seq hp (ih p hp hr)
    | choice ps ih =>
      rw [Production.references, hall]
      rintro ⟨p, hp, hr⟩
      exact .choice hp (ih p hp hr)
    | optional p ih => exact fun hr => .optional (ih hr)
    | many p ih => exact fun hr => .many (ih hr)
    | atLeastOne p ih => exact fun hr => .atLeastOne (ih hr)
  · intro h
    induction h with
    | here => exact List.mem_singleton_self r
    | seq h _ ih => exact (hall _).2 ⟨_, h, ih⟩
    | choice h _ ih => exact (hall _).2 ⟨_, h, ih⟩
    | optional _ ih => exact ih
    | many _ ih => exact ih
    | atLeastOne _ ih => exact ih

/-! ## Choices and repetitions -/

theorem overlap?_eq_some {leads : List (List Kind)} {shared : List Kind}
    (h : Table.overlap? leads = some shared) :
    shared ≠ [] ∧ ∃ a b, [a, b].Sublist leads ∧ shared = a.filter (b.contains ·) := by
  induction leads with
  | nil => cases h
  | cons lead leads ih =>
    simp only [Table.overlap?, Option.orElse_eq_orElse, Option.orElse_eq_or,
      Option.or_eq_some_iff] at h
    rcases h with h | ⟨-, h⟩
    · obtain ⟨other, hother, hshared⟩ := List.exists_of_findSome?_eq_some h
      split at hshared
      · cases hshared
      · rename_i hne
        cases hshared
        refine ⟨by simpa using hne, lead, other, ?_, rfl⟩
        exact (List.singleton_sublist.2 hother).cons_cons lead
    · obtain ⟨hne, a, b, hsub, hshared⟩ := ih h
      exact ⟨hne, a, b, hsub.cons lead, hshared⟩

theorem overlap?_eq_none {leads : List (List Kind)} (h : Table.overlap? leads = none) :
    leads.Pairwise fun a b => ∀ k, ¬(k ∈ a ∧ k ∈ b) := by
  induction leads with
  | nil => exact .nil
  | cons lead leads ih =>
    simp only [Table.overlap?, Option.orElse_eq_orElse, Option.orElse_eq_or,
      Option.or_eq_none_iff] at h
    refine .cons (fun other hother k hk => ?_) (ih h.2)
    have hnone := List.findSome?_eq_none_iff.1 h.1 other hother
    split at hnone
    · rename_i hempty
      rw [List.isEmpty_iff, List.filter_eq_nil_iff] at hempty
      exact hempty k hk.1 (List.contains_iff_mem.2 hk.2)
    · cases hnone

theorem one_lt_countP_iff {α : Type} {f : α → Bool} {as : List α} :
    1 < as.countP f ↔ ∃ a b, [a, b].Sublist as ∧ f a = true ∧ f b = true := by
  rw [List.countP_eq_length_filter]
  constructor
  · intro h
    rcases hfilter : as.filter f with _ | ⟨a, _ | ⟨b, later⟩⟩
    · simp [hfilter] at h
    · simp [hfilter] at h
    · have hsub : (a :: b :: later).Sublist as := hfilter ▸ List.filter_sublist
      have hmem : ∀ x ∈ a :: b :: later, f x = true := by
        intro x hx
        rw [← hfilter] at hx
        exact (List.mem_filter.1 hx).2
      refine ⟨a, b, ?_, hmem a (by simp), hmem b (by simp)⟩
      exact List.Sublist.trans (by simp) hsub
  · rintro ⟨a, b, hsub, ha, hb⟩
    have hle := (hsub.filter f).length_le
    rw [List.filter_cons_of_pos ha, List.filter_cons_of_pos hb] at hle
    exact hle

theorem pair_sublist_map {α β : Type} {f : α → β} {as : List α} {x y : β}
    (h : [x, y].Sublist (as.map f)) : ∃ a b, [a, b].Sublist as ∧ f a = x ∧ f b = y := by
  obtain ⟨pair, hpair, hmap⟩ := List.sublist_map_iff.1 h
  obtain ⟨a, later, rfl, ha, hlater⟩ := List.map_eq_cons_iff.1 hmap.symm
  obtain ⟨b, none, rfl, hb, hnone⟩ := List.map_eq_cons_iff.1 hlater
  obtain rfl := List.map_eq_nil_iff.1 hnone
  exact ⟨a, b, hpair, ha, hb⟩

/-- What is wrong with a production inside rule `r`, its parts apart. -/
def Table.ownFault? (t : Table) (r : Rule) : Production → Option GrammarError
  | .choice ps => t.choiceFault? r ps
  | .many body => t.loopFault? r body
  | .atLeastOne body => t.loopFault? r body
  | _ => none

theorem faultInAll?_eq {t : Table} {r : Rule} (ps : List Production) :
    t.faultInAll? r ps = ps.findSome? (t.fault? r) := by
  induction ps with
  | nil => rfl
  | cons p ps ih =>
    rw [Table.faultInAll?, ih, List.findSome?_cons]
    cases t.fault? r p <;> rfl

theorem fault?_eq_some {t : Table} {r : Rule} {e : GrammarError} (p : Production) :
    t.fault? r p = some e → ∃ q, Inside q p ∧ t.ownFault? r q = some e := by
  induction p using Production.induction with
  | terminal τ => simp [Table.fault?]
  | rule q => simp [Table.fault?]
  | seq ps ih =>
    intro h
    rw [Table.fault?, faultInAll?_eq] at h
    obtain ⟨p, hp, hfault⟩ := List.exists_of_findSome?_eq_some h
    obtain ⟨q, hq, hown⟩ := ih p hp hfault
    exact ⟨q, .seq hp hq, hown⟩
  | choice ps ih =>
    intro h
    simp only [Table.fault?, faultInAll?_eq, Option.orElse_eq_orElse, Option.orElse_eq_or,
      Option.or_eq_some_iff] at h
    rcases h with h | ⟨-, h⟩
    · exact ⟨_, .here, h⟩
    · obtain ⟨p, hp, hfault⟩ := List.exists_of_findSome?_eq_some h
      obtain ⟨q, hq, hown⟩ := ih p hp hfault
      exact ⟨q, .choice hp hq, hown⟩
  | optional p ih =>
    intro h
    obtain ⟨q, hq, hown⟩ := ih h
    exact ⟨q, .optional hq, hown⟩
  | many p ih =>
    intro h
    simp only [Table.fault?, Option.orElse_eq_orElse, Option.orElse_eq_or,
      Option.or_eq_some_iff] at h
    rcases h with h | ⟨-, h⟩
    · exact ⟨_, .here, h⟩
    · obtain ⟨q, hq, hown⟩ := ih h
      exact ⟨q, .many hq, hown⟩
  | atLeastOne p ih =>
    intro h
    simp only [Table.fault?, Option.orElse_eq_orElse, Option.orElse_eq_or,
      Option.or_eq_some_iff] at h
    rcases h with h | ⟨-, h⟩
    · exact ⟨_, .here, h⟩
    · obtain ⟨q, hq, hown⟩ := ih h
      exact ⟨q, .atLeastOne hq, hown⟩

theorem fault?_eq_none {t : Table} {r : Rule} {p q : Production} (hq : Inside q p)
    (h : t.fault? r p = none) : t.ownFault? r q = none := by
  induction hq with
  | here =>
    cases q <;> simp_all [Table.fault?, Table.ownFault?]
  | seq hp _ ih =>
    rw [Table.fault?, faultInAll?_eq, List.findSome?_eq_none_iff] at h
    exact ih (h _ hp)
  | choice hp _ ih =>
    simp only [Table.fault?, faultInAll?_eq, Option.orElse_eq_orElse, Option.orElse_eq_or,
      Option.or_eq_none_iff, List.findSome?_eq_none_iff] at h
    exact ih (h.2 _ hp)
  | optional _ ih => exact ih h
  | many _ ih | atLeastOne _ ih =>
    simp only [Table.fault?, Option.orElse_eq_orElse, Option.orElse_eq_or,
      Option.or_eq_none_iff] at h
    exact ih h.2

/-! ## The table -/

section Build

variable {start : Rule} {definitions : List (Rule × Production)}

theorem isDefined_iff {r : Rule} :
    (Table.ofDefinitions start definitions).isDefined r = true ↔ r ∈ definitions.map (·.1) := by
  have h : (Table.ofDefinitions start definitions).isDefined r =
    (definitions.lookup r).isSome := rfl
  rw [h, Option.isSome_iff_ne_none, Ne, lookup_eq_none_iff, not_not]

theorem pairwise_of_choiceFault? {r : Rule} {ps : List Production}
    (h : (Table.ofDefinitions start definitions).choiceFault? r ps = none) :
    (ps.Pairwise fun a b => ∀ k, ¬(Begins definitions [a] k ∧ Begins definitions [b] k)) ∧
      ps.Pairwise fun a b => ¬(Derives definitions a [] ∧ Derives definitions b []) := by
  unfold Table.choiceFault? at h
  split at h
  · cases h
  · rename_i hoverlap
    constructor
    · refine (List.pairwise_map.1 (overlap?_eq_none hoverlap)).imp fun hab k hk => hab k ?_
      exact ⟨mem_firstOf_iff.2 hk.1, mem_firstOf_iff.2 hk.2⟩
    · rw [List.pairwise_iff_forall_sublist]
      intro a b hsub hab
      rw [if_pos (one_lt_countP_iff.2
        ⟨a, b, hsub, nullable_iff.2 hab.1, nullable_iff.2 hab.2⟩)] at h
      cases h

theorem genuine_of_ownFault? {r : Rule} {p q : Production} {e : GrammarError}
    (hp : (r, p) ∈ definitions) (hq : Inside q p)
    (h : (Table.ofDefinitions start definitions).ownFault? r q = some e) :
    e.Genuine start definitions := by
  have hloop : ∀ body, Repeats p body →
      (Table.ofDefinitions start definitions).loopFault? r body = some e →
      e.Genuine start definitions := by
    intro body hbody h
    unfold Table.loopFault? at h
    split at h
    · rename_i hnull
      cases h
      exact ⟨p, body, hp, hbody, nullable_iff.1 hnull⟩
    · cases h
  unfold Table.ownFault? at h
  split at h
  · rename_i ps
    unfold Table.choiceFault? at h
    split at h
    · rename_i shared hshared
      cases h
      obtain ⟨hne, la, lb, hsub, hfilter⟩ := overlap?_eq_some hshared
      obtain ⟨a, b, hpair, rfl, rfl⟩ := pair_sublist_map hsub
      refine ⟨p, ps, a, b, hp, hq, hpair, hne, ?_, fun k => ?_⟩
      · rw [hfilter]
        exact List.filter_sublist.trans List.filter_sublist
      · rw [hfilter, List.mem_filter, List.contains_iff_mem, mem_firstOf_iff, mem_firstOf_iff]
    · split at h
      · rename_i hcount
        cases h
        obtain ⟨a, b, hpair, ha, hb⟩ := one_lt_countP_iff.1 hcount
        exact ⟨p, ps, a, b, hp, hq, hpair, nullable_iff.1 ha, nullable_iff.1 hb⟩
      · cases h
  · exact hloop _ (.inl hq) h
  · exact hloop _ (.inr hq) h
  · cases h

theorem genuine_of_error? {e : GrammarError}
    (h : (Table.ofDefinitions start definitions).error? = some e) :
    e.Genuine start definitions := by
  simp only [Table.error?, Option.orElse_eq_orElse, Option.orElse_eq_or, Option.or_eq_some_iff,
    Option.map_eq_some_iff] at h
  rcases h with ⟨r, hr, rfl⟩ | ⟨-, h | ⟨-, ⟨⟨r, q⟩, hr, rfl⟩ | ⟨-, ⟨cycle, hc, rfl⟩ | ⟨-, h⟩⟩⟩⟩
  · rcases duplicate?_eq_some hr with ⟨hnil, -⟩ | hsub
    · simp at hnil
    · exact hsub
  · split at h
    · cases h
    · rename_i hstart
      cases h
      exact ⟨rfl, fun hmem => hstart (isDefined_iff.2 hmem)⟩
  · obtain ⟨⟨name, p⟩, hp, hfound⟩ := List.exists_of_findSome?_eq_some hr
    obtain ⟨missing, hmissing, hpair⟩ := Option.map_eq_some_iff.1 hfound
    cases hpair
    have hundefined := List.find?_some hmissing
    refine ⟨fun hmem => ?_, p, hp, (mem_references_iff p).1 (List.mem_of_find?_eq_some hmissing)⟩
    rw [isDefined_iff.2 hmem] at hundefined
    cases hundefined
  · obtain ⟨hchain, hclosed⟩ := Table.cycle?_eq_some hc
    exact ⟨hchain.imp fun _ _ => leadsTo_of_enters, hclosed⟩
  · obtain ⟨⟨r, p⟩, hp, hfault⟩ := List.exists_of_findSome?_eq_some h
    obtain ⟨q, hq, hown⟩ := fault?_eq_some p hfault
    exact genuine_of_ownFault? hp hq hown

theorem consistent_of_error? (h : (Table.ofDefinitions start definitions).error? = none) :
    Consistent start definitions := by
  simp only [Table.error?, Option.orElse_eq_orElse, Option.orElse_eq_or, Option.or_eq_none_iff,
    Option.map_eq_none_iff] at h
  obtain ⟨hdup, hstart, hrefs, hcycle, hfaults⟩ := h
  have hown : ∀ r p, (r, p) ∈ definitions → ∀ q, Inside q p →
      (Table.ofDefinitions start definitions).ownFault? r q = none := by
    intro r p hp q hq
    exact fault?_eq_none hq (List.findSome?_eq_none_iff.1 hfaults (r, p) hp)
  have hloop : ∀ r body, (Table.ofDefinitions start definitions).loopFault? r body = none →
      ¬Derives definitions body [] := by
    intro r body h hnil
    simp [Table.loopFault?, nullable_iff.2 hnil] at h
  refine ⟨(duplicate?_eq_none hdup).1, ?_, ?_, ?_, ?_, ?_, ?_⟩
  · by_contra hmem
    split at hstart
    · rename_i hdef
      exact hmem (isDefined_iff.1 hdef)
    · cases hstart
  · intro r p hp q hq
    have hnone := List.findSome?_eq_none_iff.1 hrefs (r, p) hp
    rw [Option.map_eq_none_iff, List.find?_eq_none] at hnone
    have hdef := hnone q ((mem_references_iff p).2 hq)
    refine isDefined_iff.1 (?_ : (Table.ofDefinitions start definitions).isDefined q = true)
    simpa using hdef
  · intro r hr
    exact Table.cycle?_eq_none_iff.1 hcycle r (leadsTo_iff.1 hr)
  · intro r p hp body hbody
    rcases hbody with hin | hin
    · exact hloop r body (hown r p hp _ hin)
    · exact hloop r body (hown r p hp _ hin)
  · exact fun r p hp ps hps => (pairwise_of_choiceFault? (hown r p hp _ hps)).1
  · exact fun r p hp ps hps => (pairwise_of_choiceFault? (hown r p hp _ hps)).2

/-- What an error says contradicts consistency. -/
theorem GrammarError.Genuine.not_consistent {e : GrammarError} (h : e.Genuine start definitions) :
    ¬Consistent start definitions := by
  intro hc
  cases e with
  | duplicateRule r => exact List.nodup_iff_sublist.1 hc.once r h
  | undefinedRule r referencedBy =>
    cases referencedBy with
    | none =>
      obtain ⟨rfl, hmem⟩ := h
      exact hmem hc.start_defined
    | some q =>
      obtain ⟨hmem, p, hp, hin⟩ := h
      exact hmem (hc.defined q p hp r hin)
  | leftRecursion cycle =>
    obtain ⟨r, hr⟩ := IsCycle.transGen h
    exact hc.advances r (leadsTo_of_transGen hr)
  | emptyLoop r =>
    obtain ⟨p, body, hp, hbody, hnil⟩ := h
    exact hc.loops r p hp body hbody hnil
  | ambiguousChoice r overlap =>
    obtain ⟨p, ps, a, b, hp, hin, hsub, hne, -, hoverlap⟩ := h
    obtain ⟨k, hk⟩ := List.exists_mem_of_ne_nil overlap hne
    have hpairs := List.pairwise_iff_forall_sublist.1 (hc.leads r p hp ps hin) hsub
    exact hpairs k ((hoverlap k).1 hk)
  | nullableAlternatives r =>
    obtain ⟨p, ps, a, b, hp, hin, hsub, hnil⟩ := h
    exact List.pairwise_iff_forall_sublist.1 (hc.empties r p hp ps hin) hsub hnil

theorem build_error_iff {e : GrammarError} : Table.build start definitions = .error e ↔
    (Table.ofDefinitions start definitions).error? = some e := by
  unfold Table.build
  cases h : (Table.ofDefinitions start definitions).error? <;> simp [h]

theorem build_ok_iff (start : Rule) (definitions : List (Rule × Production)) :
    (∃ t, Table.build start definitions = .ok t) ↔ Consistent start definitions := by
  constructor
  · rintro ⟨t, ht⟩
    refine consistent_of_error? ?_
    by_contra hne
    obtain ⟨e, he⟩ := Option.ne_none_iff_exists'.1 hne
    rw [build_error_iff.2 he] at ht
    cases ht
  · intro hc
    cases h : Table.build start definitions with
    | ok t => exact ⟨t, rfl⟩
    | error e => exact absurd hc (genuine_of_error? (build_error_iff.1 h)).not_consistent

/-- Tables are built from the consistent lists of definitions and from no others, and an error
names something that is wrong with the list. -/
theorem build_exact (start : Rule) (definitions : List (Rule × Production)) :
    ((∃ t, Table.build start definitions = .ok t) ↔ Consistent start definitions) ∧
    ∀ e, Table.build start definitions = .error e → e.Genuine start definitions :=
  ⟨build_ok_iff start definitions, fun _ h => genuine_of_error? (build_error_iff.1 h)⟩

/-- A label, or a label behind remarks that may be missing. -/
def hiddenOverlap : List (Rule × Production) :=
  [(.code, .choice [.token .label, .seq [.rule .comments, .token .label]]),
    (.comments, .optional (.token .remark))]

/-- The script grammar is consistent; two alternatives that share a kind behind a rule that can
match nothing are found. -/
theorem build_exact_hiddenOverlap : Consistent .code scriptRules ∧
    Table.build .code hiddenOverlap = .error (.ambiguousChoice .code [.label]) ∧
    (GrammarError.ambiguousChoice .code [.label]).Genuine .code hiddenOverlap := by
  have hempty : Table.emptyRulesOf hiddenOverlap = [.comments] := by decide +kernel
  have hleads : Table.leadsOf hiddenOverlap [.comments] =
      [(.code, [.remark, .label]), (.comments, [.remark])] := by decide +kernel
  have herror : Table.build .code hiddenOverlap = .error (.ambiguousChoice .code [.label]) := by
    rw [build_error_iff]
    simp only [Table.ofDefinitions, hempty, hleads]
    generalize ht : Table.mk _ _ _ _ = t
    have hcode : t.entries .code = [.comments] := by subst ht; decide
    have hcomments : t.entries .comments = [] := by subst ht; decide
    -- The search does not recurse on the data, so it is not decided but followed.
    have hcycle : t.cycle? = none := by
      have hnames : t.definitions.map (·.1) = [.code, .comments] := by subst ht; rfl
      simp [Table.cycle?, hnames, Table.visitAll, Table.visit, hcode, hcomments, Except.map]
    rw [Table.error?, hcycle, ← ht]
    decide
  exact ⟨(build_exact .code scriptRules).1.1 ⟨scriptTable, build_scriptRules⟩, herror,
    (build_exact .code hiddenOverlap).2 _ herror⟩

/-- No list of kinds, the empty one included, is derived from two alternatives of a choice inside
an accepted definition. -/
theorem alternatives_apart {t : Table} (h : Table.build start definitions = .ok t) {r : Rule}
    {p : Production} (hp : (r, p) ∈ definitions) {ps : List Production}
    (hps : Inside (.choice ps) p) :
    ps.Pairwise fun a b => ∀ ks, ¬(Derives definitions a ks ∧ Derives definitions b ks) := by
  have hc := (build_ok_iff start definitions).1 ⟨t, h⟩
  refine ((hc.leads r p hp ps hps).and (hc.empties r p hp ps hps)).imp ?_
  rintro a b ⟨hleads, hempties⟩ ks ⟨ha, hb⟩
  cases ks with
  | nil => exact hempties ⟨ha, hb⟩
  | cons k ks => exact hleads k ⟨ha.begins, hb.begins⟩

/-- An atomic block is no composite one. -/
theorem alternatives_apart_block :
    (Rule.block, .choice [.rule .atomic, .rule .composite]) ∈ scriptRules ∧
    ∀ ks, ¬(Derives scriptRules (.rule .atomic) ks ∧
      Derives scriptRules (.rule .composite) ks) := by
  have hmem : (Rule.block, .choice [.rule .atomic, .rule .composite]) ∈ scriptRules := by
    simp [scriptRules]
  have hpairs := alternatives_apart build_scriptRules hmem .here
  exact ⟨hmem, by simpa using hpairs⟩

end Build

end BlockNotation
