import BlockNotation.Grammar.Script

/-!
# The table of the script grammar

The definitions of the script grammar are accepted (`build_scriptRules`), so that `scriptTable` is
the table built from them. Which of its rules can match nothing, and what each can begin with, is
written out (`scriptTable_eq`), so that nothing has to be computed again.
-/

namespace BlockNotation

/-- The rules of the script grammar that can match nothing. -/
def emptyRules : List Rule := [.code, .clause, .modifier, .annotations]

theorem scriptTable_leads : scriptTable.leads = scriptRules.map fun d => (d.1, d.1.lead) := by
  have hfirst : ∀ r, scriptTable.leads.ofRule scriptRules scriptTable.emptyRules r = r.lead :=
    fun r => (Table.kinds_leadsOf r).symm.trans (scriptTable_first r)
  refine Table.leadsOf_eq.trans (List.map_congr_left fun d _ => ?_)
  exact Prod.ext rfl (hfirst d.1)

theorem scriptTable_eq : scriptTable =
    ⟨.code, scriptRules, emptyRules, scriptRules.map fun d => (d.1, d.1.lead)⟩ := by
  have hempty : scriptTable.emptyRules = emptyRules := by decide +kernel
  rw [← hempty, ← scriptTable_leads]
  rfl

theorem scriptTable_isNullable : scriptTable.isNullable = (emptyRules.contains ·) := by
  rw [scriptTable_eq]
  rfl

theorem scriptTable_starts (r : Rule) (k : Kind) : scriptTable.starts r k = r.lead.contains k := by
  rw [Table.starts, scriptTable_first]

theorem firstOf_rule (ρ : Rule) : scriptTable.firstOf (.rule ρ) = ρ.lead := by
  have h : Kind.all.filter (ρ.lead.contains ·) = ρ.lead := by cases ρ <;> decide
  simpa only [Table.firstOf_eq, Production.startsWith, scriptTable_starts] using h

/-- A rule begins as its definition does. -/
theorem firstOf_definition {ρ : Rule} {body : Production}
    (hb : scriptTable.definition? ρ = some body) :
    scriptTable.firstOf body = scriptTable.firstOf (.rule ρ) := by
  have h : (Rule.all.all fun ρ => (scriptRules.lookup ρ).all fun body => Kind.all.all fun k =>
      body.startsWith (emptyRules.contains ·) (·.lead.contains k) k == ρ.lead.contains k)
        = true := by
    decide +kernel
  have hb' : scriptRules.lookup ρ = some body := hb
  have hρ := List.all_eq_true.1 h ρ (Rule.mem_all ρ)
  rw [hb', Option.all_some] at hρ
  simp only [Table.firstOf_eq, Production.startsWith, scriptTable_starts, scriptTable_isNullable]
  exact List.filter_congr fun k hk => beq_iff_eq.1 (List.all_eq_true.1 hρ k hk)

/-- The rules that each rule of the script grammar can enter before it takes a token. -/
def enteredFirst : Rule → List Rule
  | .code => [.comments, .stack]
  | .stack => [.block]
  | .block => [.atomic, .composite]
  | .atomic => [.argument]
  | .composite => [.ifElse, .forever, .repeatTimes, .repeatUntil]
  | .clause => [.stack]
  | .argument => [.expression, .predicate]
  | .condition => [.predicate]
  | _ => []

theorem scriptTable_entries : scriptTable.entries = enteredFirst := by
  rw [scriptTable_eq]
  funext r
  cases r <;> rfl

theorem scriptTable_cycle? : scriptTable.cycle? = none := by
  have h : (Table.visitAll enteredFirst [] [] (scriptRules.map (·.1))).toOption.isSome = true := by
    cbv
  unfold Table.cycle?
  rw [scriptTable_entries]
  split
  · rename_i cycle hc
    have hc' : Table.visitAll enteredFirst [] [] (scriptRules.map (·.1)) = .error cycle := hc
    rw [hc'] at h
    cases h
  · rfl

/-- A table with nothing wrong in it. -/
theorem error?_eq_none {t : Table} (hrules : Table.duplicate? [] (t.definitions.map (·.1)) = none)
    (hstart : t.isDefined t.start = true) (hrefs : t.danglingReference? = none)
    (hcycle : t.cycle? = none)
    (hfaults : (t.definitions.findSome? fun d => t.fault? d.1 d.2) = none) : t.error? = none := by
  unfold Table.error?
  rw [hrules, hstart, hrefs, hcycle]
  exact hfaults

/-- The script grammar is accepted, with the table that the parser consults. -/
theorem build_scriptRules : Table.build .code scriptRules = .ok scriptTable := by
  have hrefs : scriptTable.danglingReference? = none := by
    rw [scriptTable_eq]
    decide +kernel
  have hfaults :
      (scriptTable.definitions.findSome? fun d => scriptTable.fault? d.1 d.2) = none := by
    rw [scriptTable_eq]
    decide +kernel
  have herror : (Table.ofDefinitions .code scriptRules).error? = none :=
    error?_eq_none rfl rfl hrefs scriptTable_cycle? hfaults
  unfold Table.build
  simp only [herror]
  rfl

end BlockNotation
