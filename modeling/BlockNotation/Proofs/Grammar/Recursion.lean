import BlockNotation.Grammar.Table
import Mathlib.Data.List.Chain
import Mathlib.Logic.Relation

/-!
# The search for left recursion

The search follows entries from rule to rule. The rules it clears come out in an order in which
every entry of a rule has been cleared before the rule itself (`Ranked`), so none of them is on a
cycle; and where it stops, the path behind it closes a cycle. So the search finds a cycle exactly
if there is one (`cycle?_eq_none_iff`), and the cycle it gives is one (`cycle?_eq_some`).
-/

namespace BlockNotation

open Relation

/-- Each member of a list is related to the next, and the last is the first again. -/
structure IsCycle {α : Type} (E : α → α → Prop) (cycle : List α) : Prop where
  chain : cycle.IsChain E
  closed : ∃ a between, cycle = a :: (between ++ [a])

theorem IsCycle.transGen {α : Type} {E : α → α → Prop} {cycle : List α} (h : IsCycle E cycle) :
    ∃ a, TransGen E a a := by
  obtain ⟨hchain, a, between, rfl⟩ := h
  refine ⟨a, ?_⟩
  cases between with
  | nil =>
    rw [List.nil_append, List.isChain_pair] at hchain
    exact .single hchain
  | cons b between =>
    rw [List.cons_append, List.isChain_cons_cons] at hchain
    refine .head' hchain.1 (List.relationReflTransGen_of_exists_isChain_cons _ hchain.2 ?_)
    simp

namespace Table

/-- `r` is among the entries of `q`. -/
def Enters (entries : Rule → List Rule) (q r : Rule) : Prop := r ∈ entries q

section Search

variable {entries : Rule → List Rule}

/-- Every entry of a rule stands further on in the list. -/
def Ranked (entries : Rule → List Rule) : List Rule → Prop
  | [] => True
  | r :: rs => (∀ q ∈ entries r, q ∈ rs) ∧ Ranked entries rs

theorem Ranked.acyclic : ∀ {rs : List Rule}, Ranked entries rs →
    ∀ r ∈ rs, ¬TransGen (Enters entries) r r
  | [], _, _, hr => by simp at hr
  | r :: rs, ⟨hentries, hrs⟩, q, hq => by
    rcases List.mem_cons.1 hq with rfl | hq
    · -- A cycle through the first rule goes through an entry of it, which is on no cycle.
      intro hcycle
      obtain ⟨p, hp, hback⟩ := TransGen.head'_iff.1 hcycle
      exact hrs.acyclic p (hentries p hp) (.tail' hback hp)
    · exact hrs.acyclic q hq

mutual

theorem visit_ok {path clear found : List Rule} {r : Rule} (hclear : Ranked entries clear)
    (h : visit entries path clear r = .ok found) :
    Ranked entries found ∧ clear ⊆ found ∧ r ∈ found := by
  rw [visit] at h
  split at h
  · rename_i hr
    cases h
    exact ⟨hclear, List.Subset.refl _, List.contains_iff_mem.1 hr⟩
  · split at h
    · cases h
    · cases hrun : visitAll entries (path ++ [r]) clear (entries r) with
      | error cycle => rw [hrun] at h; cases h
      | ok later =>
        rw [hrun] at h
        cases h
        obtain ⟨hranked, hsub, hall⟩ := visitAll_ok hclear hrun
        exact ⟨⟨hall, hranked⟩, List.subset_cons_of_subset r hsub, List.mem_cons_self⟩
termination_by (outside path, 0)
decreasing_by exact .left _ _ (outside_append_lt (by simpa using ‹¬path.contains r = true›))

theorem visitAll_ok {path clear found : List Rule} : ∀ {rs : List Rule}, Ranked entries clear →
    visitAll entries path clear rs = .ok found →
    Ranked entries found ∧ clear ⊆ found ∧ ∀ r ∈ rs, r ∈ found
  | [], hclear, h => by
    rw [visitAll] at h
    cases h
    exact ⟨hclear, List.Subset.refl _, by simp⟩
  | r :: rs, hclear, h => by
    rw [visitAll] at h
    split at h
    · cases h
    · rename_i clear' hr
      obtain ⟨hranked, hsub, hmem⟩ := visit_ok hclear hr
      obtain ⟨hranked', hsub', hall⟩ := visitAll_ok hranked h
      exact ⟨hranked', fun q hq => hsub' (hsub hq), List.forall_mem_cons.2 ⟨hsub' hmem, hall⟩⟩
termination_by rs => (outside path, rs.length + 1)

end

theorem isCycle_dropWhile {path : List Rule} {r : Rule}
    (hpath : (path ++ [r]).IsChain (Enters entries)) (hr : r ∈ path) :
    IsCycle (Enters entries) (path.dropWhile (· ≠ r) ++ [r]) := by
  obtain ⟨before, later, rfl, hbefore⟩ := List.eq_append_cons_of_mem hr
  have hdrop : (before ++ r :: later).dropWhile (· ≠ r) = r :: later := by
    rw [List.dropWhile_append_of_pos, List.dropWhile_cons_of_neg]
    · simp
    · intro q hq
      simpa using fun h : q = r => hbefore (h ▸ hq)
  rw [hdrop]
  rw [List.append_assoc, List.isChain_append] at hpath
  exact ⟨hpath.2.1, r, later, rfl⟩

mutual

theorem visit_error {path clear cycle : List Rule} {r : Rule}
    (hpath : (path ++ [r]).IsChain (Enters entries))
    (h : visit entries path clear r = .error cycle) : IsCycle (Enters entries) cycle := by
  rw [visit] at h
  split at h
  · cases h
  · split at h
    · rename_i hr
      cases h
      exact isCycle_dropWhile hpath (List.contains_iff_mem.1 hr)
    · cases hrun : visitAll entries (path ++ [r]) clear (entries r) with
      | ok later => rw [hrun] at h; cases h
      | error cycle' =>
        rw [hrun] at h
        cases h
        refine visitAll_error (fun q hq => ?_) hrun
        refine List.isChain_append.2 ⟨hpath, .singleton q, ?_⟩
        simpa [Enters] using hq
termination_by (outside path, 0)
decreasing_by exact .left _ _ (outside_append_lt (by simpa using ‹¬path.contains r = true›))

theorem visitAll_error {path clear cycle : List Rule} : ∀ {rs : List Rule},
    (∀ r ∈ rs, (path ++ [r]).IsChain (Enters entries)) →
    visitAll entries path clear rs = .error cycle → IsCycle (Enters entries) cycle
  | [], _, h => by
    rw [visitAll] at h
    cases h
  | r :: rs, hrs, h => by
    rw [List.forall_mem_cons] at hrs
    rw [visitAll] at h
    split at h
    · rename_i cycle' hr
      cases h
      exact visit_error hrs.1 hr
    · exact visitAll_error hrs.2 h
termination_by rs => (outside path, rs.length + 1)

end

end Search

section Table

variable {t : Table}

theorem defined_of_mem_entries {q r : Rule} (h : r ∈ t.entries q) :
    q ∈ t.definitions.map (·.1) := by
  unfold entries at h
  split at h
  · rename_i body hbody
    have hbody' : t.definitions.lookup q = some body := hbody
    rw [List.lookup_eq_some_iff] at hbody'
    obtain ⟨before, later, hdefs, -⟩ := hbody'
    rw [hdefs]
    simp
  · simp at h

theorem cycle?_eq_some {cycle : List Rule} (h : t.cycle? = some cycle) :
    IsCycle (Enters t.entries) cycle := by
  unfold cycle? at h
  split at h
  · rename_i cycle' hrun
    cases h
    exact visitAll_error (fun r _ => .singleton r) hrun
  · cases h

theorem cycle?_eq_none_iff :
    t.cycle? = none ↔ ∀ r, ¬TransGen (Enters t.entries) r r := by
  constructor
  · intro h r hcycle
    unfold cycle? at h
    split at h
    · cases h
    · rename_i found hrun
      obtain ⟨hranked, -, hall⟩ := visitAll_ok (show Ranked t.entries [] from trivial) hrun
      obtain ⟨q, hq, -⟩ := TransGen.head'_iff.1 hcycle
      exact hranked.acyclic r (hall r (defined_of_mem_entries hq)) hcycle
  · intro h
    cases hc : t.cycle? with
    | none => rfl
    | some cycle =>
      obtain ⟨r, hcycle⟩ := (cycle?_eq_some hc).transGen
      exact absurd hcycle (h r)

end Table

end Table

end BlockNotation
