import BlockNotation.Grammar.Production
import BlockNotation.Sweep

/-!
# What rules do with no token and with the first

Under some definitions a rule may match nothing (`emptyRulesOf`), and it can begin with some kinds
of token (`leadsOf`). Both are found by sweeping over the rules until nothing changes. A rule that
can match nothing is noted for good. The kinds of a rule are worked out anew each time, and none is
ever lost, since a production can begin with no less once its rules can begin with more.
-/

namespace BlockNotation

/-- A list of keys with the value of each is looked up by calling the function. -/
theorem lookup_map_fst {α β : Type} (f : Rule → α) (r : Rule) : ∀ ds : List (Rule × β),
    (ds.map fun d => (d.1, f d.1)).lookup r = (ds.lookup r).map fun _ => f r
  | [] => rfl
  | (q, b) :: ds => by
    rw [List.map_cons, List.lookup_cons, List.lookup_cons]
    by_cases hr : r = q
    · simp [hr]
    · rw [beq_false_of_ne hr]
      exact lookup_map_fst f r ds

namespace Table

/-- The rules outside a path. -/
def outside (path : List Rule) : Nat := Rule.all.countP (!path.contains ·)

theorem outside_append_lt {path : List Rule} {r : Rule} (h : path.contains r = false) :
    outside (path ++ [r]) < outside path := by
  unfold outside
  have hle : ∀ rs : List Rule,
      rs.countP (!(path ++ [r]).contains ·) ≤ rs.countP (!path.contains ·) := fun rs =>
    List.countP_mono_left fun x _ => by simp +contextual
  obtain ⟨before, later, hsplit⟩ := List.append_of_mem (Rule.mem_all r)
  rw [hsplit, List.countP_append, List.countP_append, List.countP_cons, List.countP_cons]
  have h₁ := hle before
  have h₂ := hle later
  simp only [List.contains_eq_mem] at h h₁ h₂ ⊢
  simp [h]
  simp at h₁ h₂
  omega

/-- Notes a rule if its definition can match nothing, given the rules noted so far. -/
def noteEmpty (definitions : List (Rule × Production)) (empty : List Rule) (r : Rule) :
    List Rule :=
  if !empty.contains r && (definitions.lookup r).any (·.nullable (empty.contains ·)) then
    empty ++ [r]
  else empty

def emptySweep (definitions : List (Rule × Production)) : Sweep (List Rule) Rule where
  items := Rule.all
  refresh := noteEmpty definitions
  Sound _ := True
  left := outside
  sound_refresh _ _ _ := trivial
  falls empty r _ := by
    unfold noteEmpty
    split
    · rename_i h
      right
      exact outside_append_lt (by simpa using (Bool.and_eq_true_iff.1 h).1)
    · exact .inl rfl

/-- The rules that can match nothing under some definitions. -/
def emptyRulesOf (definitions : List (Rule × Production)) : List Rule :=
  (emptySweep definitions).settle [] trivial

end Table

/-- Rules with the kinds that each is known to begin with. -/
abbrev Leads := List (Rule × List Kind)

namespace Leads

variable (l : Leads) (definitions : List (Rule × Production)) (empty : List Rule)

/-- The kinds listed for a rule. -/
def kinds (r : Rule) : List Kind := (l.lookup r).getD []

/-- The kinds a production can begin with, given those listed for rules and the rules that can match
nothing. -/
def ofProduction (p : Production) : List Kind :=
  Kind.all.filter fun k => p.startsWith (empty.contains ·) (fun r => (l.kinds r).contains k) k

/-- The kinds the definition of a rule can begin with. -/
def ofRule (r : Rule) : List Kind :=
  match definitions.lookup r with
  | some p => l.ofProduction empty p
  | none => []

/-- Lists for a rule what its definition can begin with, whatever was listed before. -/
def refresh (r : Rule) : Leads :=
  l.map fun e => if e.1 = r then (r, l.ofRule definitions empty r) else e

/-- The definition of each rule can begin with all that is listed for the rule. -/
def Rising : Prop := ∀ e ∈ l, e.2.Sublist (l.ofRule definitions empty e.1)

/-- The number of kinds not listed, over all rules. -/
def left : Leads → Nat
  | [] => 0
  | e :: l => Kind.all.length - e.2.length + left l

variable {l definitions empty}

theorem ofRule_sublist_all (r : Rule) : (l.ofRule definitions empty r).Sublist Kind.all := by
  unfold ofRule
  split
  · exact List.filter_sublist
  · exact List.nil_sublist _

theorem filter_sublist_filter {f g : Kind → Bool} (h : ∀ k, f k = true → g k = true)
    (ks : List Kind) : (ks.filter f).Sublist (ks.filter g) := by
  induction ks with
  | nil => exact .slnil
  | cons k ks ih =>
    by_cases hf : f k = true
    · rw [List.filter_cons_of_pos hf, List.filter_cons_of_pos (h k hf)]
      exact ih.cons_cons k
    · rw [List.filter_cons_of_neg hf]
      exact ih.trans ((List.sublist_cons_self k ks).filter g)

theorem ofRule_mono {l' : Leads} (h : ∀ r, l.kinds r ⊆ l'.kinds r) (r : Rule) :
    (l.ofRule definitions empty r).Sublist (l'.ofRule definitions empty r) := by
  unfold ofRule
  split
  · rename_i p hp
    refine filter_sublist_filter (fun k => p.startsWith_mono fun q hq => ?_) Kind.all
    rw [List.contains_iff_mem] at hq ⊢
    exact h q hq
  · exact List.nil_sublist _

/-- What becomes of one entry when a rule is refreshed. -/
theorem refreshed_entry (h : l.Rising definitions empty) (r : Rule) {e : Rule × List Kind}
    (he : e ∈ l) : ∃ ks, (if e.1 = r then (r, l.ofRule definitions empty r) else e) = (e.1, ks) ∧
      e.2.Sublist ks ∧ ks.Sublist (l.ofRule definitions empty e.1) := by
  split
  · rename_i hr
    subst hr
    exact ⟨_, rfl, h e he, .refl _⟩
  · exact ⟨e.2, rfl, .refl _, h e he⟩

theorem kinds_map_sublist {g : Rule × List Kind → Rule × List Kind} (r : Rule)
    (h : ∀ e ∈ l, ∃ ks, g e = (e.1, ks) ∧ e.2.Sublist ks) :
    (l.kinds r).Sublist (Leads.kinds (l.map g) r) := by
  induction l with
  | nil => exact .slnil
  | cons e l ih =>
    obtain ⟨q, ls⟩ := e
    obtain ⟨⟨ks, hg, hks⟩, hl⟩ := List.forall_mem_cons.1 h
    simp only [kinds, List.map_cons, hg, List.lookup_cons] at ih ⊢
    split
    · exact hks
    · exact ih hl

theorem left_map {g : Rule × List Kind → Rule × List Kind}
    (h : ∀ e ∈ l, ∃ ks, g e = (e.1, ks) ∧ e.2.Sublist ks ∧ ks.length ≤ Kind.all.length) :
    l.map g = l ∨ left (l.map g) < left l := by
  induction l with
  | nil => exact .inl rfl
  | cons e l ih =>
    obtain ⟨⟨ks, hg, hsub, hle⟩, hl⟩ := List.forall_mem_cons.1 h
    have hlen := hsub.length_le
    have heq : e.2 = ks ∨ e.2.length < ks.length := by
      rcases Nat.lt_or_ge e.2.length ks.length with hlt | hge
      · exact .inr hlt
      · exact .inl (hsub.eq_of_length_le hge)
    simp only [left, List.map_cons, hg] at ih ⊢
    rcases ih hl with htail | htail
    · rcases heq with rfl | hlt
      · exact .inl (by rw [htail])
      · right
        rw [htail]
        omega
    · right
      omega

theorem kinds_refresh_sublist (h : l.Rising definitions empty) (r q : Rule) :
    (l.kinds q).Sublist ((l.refresh definitions empty r).kinds q) := by
  refine kinds_map_sublist q fun e he => ?_
  obtain ⟨ks, hg, hsub, -⟩ := refreshed_entry h r he
  exact ⟨ks, hg, hsub⟩

theorem rising_refresh (h : l.Rising definitions empty) (r : Rule) :
    (l.refresh definitions empty r).Rising definitions empty := by
  intro e he
  obtain ⟨e, hmem, rfl⟩ := List.mem_map.1 he
  obtain ⟨ks, hg, -, hsub⟩ := refreshed_entry h r hmem
  rw [hg]
  exact hsub.trans (ofRule_mono (fun q => (kinds_refresh_sublist h r q).subset) e.1)

theorem refresh_falls (h : l.Rising definitions empty) (r : Rule) :
    l.refresh definitions empty r = l ∨ (l.refresh definitions empty r).left < l.left := by
  refine left_map fun e he => ?_
  obtain ⟨ks, hg, hsub, hks⟩ := refreshed_entry h r he
  exact ⟨ks, hg, hsub, (hks.trans (ofRule_sublist_all e.1)).length_le⟩

/-- A kind listed for a rule is listed in an entry of the rule. -/
theorem exists_of_mem_kinds {r : Rule} {k : Kind} (h : k ∈ l.kinds r) :
    ∃ ks, (r, ks) ∈ l ∧ k ∈ ks := by
  unfold kinds at h
  cases hr : l.lookup r with
  | none => simp [hr] at h
  | some ks =>
    obtain ⟨before, later, hl, -⟩ := List.lookup_eq_some_iff.1 hr
    rw [hr] at h
    exact ⟨ks, by simp [hl], h⟩

/-- Every rule that is defined, with no kinds. -/
def start (definitions : List (Rule × Production)) : Leads := definitions.map fun d => (d.1, [])

theorem rising_start : (start definitions).Rising definitions empty := by
  intro e he
  obtain ⟨d, -, rfl⟩ := List.mem_map.1 he
  exact List.nil_sublist _

def sweep (definitions : List (Rule × Production)) (empty : List Rule) : Sweep Leads Rule where
  items := Rule.all
  refresh l := l.refresh definitions empty
  Sound l := l.Rising definitions empty
  left := left
  sound_refresh _ r h := rising_refresh h r
  falls _ r h := refresh_falls h r

end Leads

namespace Table

/-- The kinds that each rule can begin with under some definitions, given the rules that can match
nothing. -/
def leadsOf (definitions : List (Rule × Production)) (empty : List Rule) : Leads :=
  (Leads.sweep definitions empty).settle (.start definitions) Leads.rising_start

variable {definitions : List (Rule × Production)} {empty : List Rule}

theorem leadsOf_keys :
    (leadsOf definitions empty).map (·.1) = definitions.map (·.1) := by
  refine (Leads.sweep definitions empty).settle_induction
    (P := fun l => l.map (·.1) = definitions.map (·.1)) (fun l r hl => ?_) _ ?_
  · refine Eq.trans ?_ hl
    simp only [Leads.sweep, Leads.refresh, List.map_map]
    refine List.map_congr_left fun e _ => ?_
    by_cases hr : e.1 = r <;> simp [hr]
  · simp [Leads.start]

theorem leadsOf_entry {e : Rule × List Kind} (he : e ∈ leadsOf definitions empty) :
    e.2 = (leadsOf definitions empty).ofRule definitions empty e.1 := by
  have hfix := (Leads.sweep definitions empty).refresh_settle Leads.rising_start
    (Rule.mem_all e.1)
  have hmap : (leadsOf definitions empty).refresh definitions empty e.1 =
      (leadsOf definitions empty).map id := hfix.trans (List.map_id _).symm
  have hentry := List.map_inj_left.1 hmap e he
  rw [if_pos rfl] at hentry
  exact (Prod.ext_iff.1 hentry).2.symm

/-- What is listed for each rule that is defined is what its definition can begin with. -/
theorem leadsOf_eq : leadsOf definitions empty = definitions.map fun d =>
    (d.1, (leadsOf definitions empty).ofRule definitions empty d.1) := by
  let f := fun r => (r, (leadsOf definitions empty).ofRule definitions empty r)
  calc leadsOf definitions empty
    _ = (leadsOf definitions empty).map id := (List.map_id _).symm
    _ = (leadsOf definitions empty).map (fun e => f e.1) :=
        List.map_congr_left fun e he => Prod.ext rfl (leadsOf_entry he)
    _ = ((leadsOf definitions empty).map (·.1)).map f := by rw [List.map_map]; rfl
    _ = (definitions.map (·.1)).map f := by rw [leadsOf_keys]
    _ = definitions.map fun d => f d.1 := by rw [List.map_map]; rfl

/-- A rule begins as its definition does. -/
theorem kinds_leadsOf (r : Rule) : (leadsOf definitions empty).kinds r =
    (leadsOf definitions empty).ofRule definitions empty r := by
  have hlookup := lookup_map_fst
    (fun r => (leadsOf definitions empty).ofRule definitions empty r) r definitions
  rw [← leadsOf_eq] at hlookup
  rw [Leads.kinds, hlookup]
  cases h : definitions.lookup r with
  | none => simp [Leads.ofRule, h]
  | some p => rfl

end Table

end BlockNotation
