import BlockNotation.Proofs.Grammar.Expansion

/-!
# Left recursion

A rule steps into another if its definition can enter that one before a token is taken: through any
alternative, through the body of a repetition or an option, and through a part of a sequence if all
parts before it derive nothing (`Enterable`). The search for left recursion fails exactly if some
rule comes back to itself in such steps, and the cycle it gives is made of them, comes back to its
first rule and passes no rule twice (`cycle?_exact`).
-/

namespace BlockNotation

open Relation

/-- A production can enter rule `r` before it takes a token. -/
inductive Enterable (definitions : List (Rule × Production)) (r : Rule) : Production → Prop where
  | rule : Enterable definitions r (.rule r)
  | seq {before later : List Production} {p : Production}
      (hbefore : ∀ q ∈ before, Derives definitions q []) (h : Enterable definitions r p) :
      Enterable definitions r (.seq (before ++ p :: later))
  | choice {p : Production} {ps : List Production} (hp : p ∈ ps) (h : Enterable definitions r p) :
      Enterable definitions r (.choice ps)
  | optional {p : Production} (h : Enterable definitions r p) :
      Enterable definitions r (.optional p)
  | many {p : Production} (h : Enterable definitions r p) : Enterable definitions r (.many p)
  | atLeastOne {p : Production} (h : Enterable definitions r p) :
      Enterable definitions r (.atLeastOne p)

/-- The definition of `q` can enter `r` before it takes a token. -/
def StepsInto (definitions : List (Rule × Production)) (q r : Rule) : Prop :=
  ∃ p, definitions.lookup q = some p ∧ Enterable definitions r p

section Steps

variable {start : Rule} {definitions : List (Rule × Production)} {q r : Rule}

theorem mem_seqEntered {empty : Rule → Bool} {ps : List Production} :
    r ∈ Production.seqEntered empty ps ↔ ∃ before p later, ps = before ++ p :: later ∧
      (∀ q ∈ before, q.nullable empty = true) ∧ r ∈ p.entered empty := by
  constructor
  · intro h
    induction ps with
    | nil => simp [Production.seqEntered] at h
    | cons p ps ih =>
      rw [Production.seqEntered, List.mem_append] at h
      rcases h with h | h
      · exact ⟨[], p, ps, rfl, by simp, h⟩
      · split at h
        · rename_i hp
          obtain ⟨before, p', later, rfl, hbefore, hr⟩ := ih h
          exact ⟨p :: before, p', later, rfl, List.forall_mem_cons.2 ⟨hp, hbefore⟩, hr⟩
        · simp at h
  · rintro ⟨before, p, later, rfl, hbefore, hr⟩
    have hall : Production.allNullable empty before = true := by
      rw [Production.allNullable_eq, List.all_eq_true]
      exact hbefore
    rw [seqEntered_append, if_pos hall, Production.seqEntered]
    exact List.mem_append_right _ (List.mem_append_left _ hr)

theorem mem_entered_iff {p : Production} :
    r ∈ p.entered (Table.ofDefinitions start definitions).isNullable ↔
      Enterable definitions r p := by
  constructor
  · induction p using Production.induction with
    | terminal τ => simp [Production.entered]
    | rule q =>
      simp only [Production.entered, List.mem_singleton]
      rintro rfl
      exact .rule
    | seq ps ih =>
      rw [Production.entered, mem_seqEntered]
      rintro ⟨before, p, later, rfl, hbefore, hr⟩
      exact .seq (fun q hq => nullable_iff.1 (hbefore q hq)) (ih p (by simp) hr)
    | choice ps ih =>
      rw [Production.entered, mem_anyEntered]
      rintro ⟨p, hp, hr⟩
      exact .choice hp (ih p hp hr)
    | optional p ih => exact fun hr => .optional (ih hr)
    | many p ih => exact fun hr => .many (ih hr)
    | atLeastOne p ih => exact fun hr => .atLeastOne (ih hr)
  · intro h
    induction h with
    | rule => exact List.mem_singleton_self r
    | seq hbefore _ ih =>
      exact mem_seqEntered.2 ⟨_, _, _, rfl, fun q hq => nullable_iff.2 (hbefore q hq), ih⟩
    | choice hp _ ih => exact mem_anyEntered.2 ⟨_, hp, ih⟩
    | optional _ ih | many _ ih | atLeastOne _ ih => exact ih

theorem enters_iff :
    Table.Enters (Table.ofDefinitions start definitions).entries q r ↔
      StepsInto definitions q r := by
  unfold Table.Enters StepsInto
  cases h : definitions.lookup q with
  | none =>
    have hnone : (Table.ofDefinitions start definitions).definition? q = none := h
    simp [Table.entries, hnone]
  | some p =>
    rw [entries_eq_of_lookup h, mem_entered_iff]
    simp

end Steps

namespace Table

variable {entries : Rule → List Rule}

mutual

/-- A search that never goes through a rule of its path again gives no rule of a cycle twice. -/
theorem visit_error_nodup {path clear cycle : List Rule} {r : Rule} (hpath : path.Nodup)
    (h : visit entries path clear r = .error cycle) : cycle.dropLast.Nodup := by
  rw [visit] at h
  split at h
  · cases h
  · split at h
    · cases h
      rw [List.dropLast_concat]
      exact hpath.sublist (List.dropWhile_sublist _)
    · rename_i hr
      cases hrun : visitAll entries (path ++ [r]) clear (entries r) with
      | ok later => rw [hrun] at h; cases h
      | error cycle' =>
        rw [hrun] at h
        cases h
        refine visitAll_error_nodup ?_ hrun
        rw [List.contains_iff_mem] at hr
        refine List.nodup_append.2 ⟨hpath, List.pairwise_singleton _ r, fun q hq s hs heq => hr ?_⟩
        rwa [← List.mem_singleton.1 hs, ← heq]
termination_by (outside path, 0)
decreasing_by exact .left _ _ (outside_append_lt (by simpa using ‹¬path.contains r = true›))

theorem visitAll_error_nodup {path clear cycle : List Rule} : ∀ {rs : List Rule}, path.Nodup →
    visitAll entries path clear rs = .error cycle → cycle.dropLast.Nodup
  | [], _, h => by
    rw [visitAll] at h
    cases h
  | r :: rs, hpath, h => by
    rw [visitAll] at h
    split at h
    · rename_i cycle' hr
      cases h
      exact visit_error_nodup hpath hr
    · exact visitAll_error_nodup hpath h
termination_by rs => (outside path, rs.length + 1)

end

theorem cycle?_nodup {t : Table} {cycle : List Rule} (h : t.cycle? = some cycle) :
    cycle.dropLast.Nodup := by
  unfold cycle? at h
  split at h
  · rename_i cycle' hrun
    cases h
    exact visitAll_error_nodup List.nodup_nil hrun
  · cases h

end Table

/-- The search gives a cycle exactly if some rule comes back to itself in one step or more. Each
rule of the cycle steps into the next, the last is the first again, and no other is there twice. -/
theorem cycle?_exact (start : Rule) (definitions : List (Rule × Production)) :
    let t := Table.ofDefinitions start definitions
    ((∃ cycle, t.cycle? = some cycle) ↔ ∃ r, TransGen (StepsInto definitions) r r) ∧
    ∀ cycle, t.cycle? = some cycle → 2 ≤ cycle.length ∧ cycle.head? = cycle.getLast? ∧
      cycle.dropLast.Nodup ∧ cycle.IsChain (StepsInto definitions) := by
  intro t
  have hsteps : Table.Enters t.entries = StepsInto definitions :=
    funext₂ fun _ _ => propext enters_iff
  rw [← hsteps]
  constructor
  · rw [← Option.ne_none_iff_exists', Ne, Table.cycle?_eq_none_iff]
    simp
  · intro cycle h
    obtain ⟨hchain, a, between, rfl⟩ := Table.cycle?_eq_some h
    have hends : (a :: (between ++ [a])).head? = (a :: (between ++ [a])).getLast? := by
      rw [← List.cons_append, List.getLast?_concat]
      rfl
    exact ⟨by simp, hends, Table.cycle?_nodup h, hchain⟩

end BlockNotation
