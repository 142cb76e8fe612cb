import BlockNotation.Proofs.Script.Limit

/-!
# Every prefix that is read can be completed

A reading that is stuck needs a bracket to be closed, or something that has to follow the kind it
took last (`Awaits`). So a kind it can go on with is never far: a closing bracket, or else a label
or an opening brace. Every bracket closed leaves one less to close, and after a brace or a label
nothing has to follow but a closing bracket. By adding one such kind after another, the prefix in
front of a syntax error becomes a script (`syntaxError_completable`).
-/

namespace BlockNotation

namespace Kind

/-- The brackets that a kind opens, less those it closes. -/
def weight : Kind → Int
  | .openCurly | .openRound | .openAngle => 1
  | .closeCurly | .closeRound | .closeAngle => -1
  | _ => 0

/-- Does the grammar demand anything right after some uses of the kind? -/
def leads : Kind → Bool
  | .ifWord | .repeatWord | .repeatUntilWord | .doubleColon | .delimiter => true
  | _ => false

/-- A label or an opening brace. -/
def fills (k : Kind) : Bool := k = .label || k = .openCurly

end Kind

/-- The brackets that some kinds open, less those they close. -/
def excess : List Kind → Int
  | [] => 0
  | k :: ks => k.weight + excess ks

@[simp] theorem excess_nil : excess [] = 0 := rfl

@[simp] theorem excess_cons (k : Kind) (ks : List Kind) : excess (k :: ks) = k.weight + excess ks :=
  rfl

@[simp] theorem excess_append (ks ls : List Kind) : excess (ks ++ ls) = excess ks + excess ls := by
  induction ks with
  | nil => simp
  | cons k ks ih =>
    rw [List.cons_append, excess_cons, excess_cons, ih]
    omega

@[simp] theorem excess_singleton (k : Kind) : excess [k] = k.weight := by simp

/-! ## Productions that keep brackets in pairs -/

namespace Production

mutual

/-- The brackets that a production opens, less those it closes. -/
def weight : Production → Int
  | .terminal (.kind k) => k.weight
  | .seq parts => seqWeight parts
  | _ => 0

def seqWeight : List Production → Int
  | [] => 0
  | p :: ps => p.weight + seqWeight ps

end

/-- Does the grammar demand anything right after the production? -/
def leads : Production → Bool
  | .terminal (.kind k) => k.leads
  | _ => false

theorem exists_of_leads {p : Production} (h : p.leads = true) :
    ∃ k : Kind, p = .token k ∧ k.leads = true := by
  unfold leads at h
  split at h
  · exact ⟨_, rfl, h⟩
  · cases h

section Even

variable (empty : Rule → Bool) (starts : Rule → Kind → Bool) (r : Rule)

/-- Is what follows a part of a sequence no demand, or one that can be met? It can match nothing,
begins with a bracket that closes, or is what the part leads to. -/
def handsOver (p : Production) (ps : List Production) : Bool :=
  seqWeight ps ≤ 0 && (allNullable empty ps ||
    Kind.all.any fun k => seqStartsWith empty (starts · k) k ps &&
      (k.weight = -1 || k.fills && p.leads))

mutual

/-- Does the production, in the definition of a rule `r`, keep brackets in pairs and demand nothing
without leading to it? -/
def even : Production → Bool
  | .terminal _ => true
  | .rule _ => true
  | .seq parts => seqEven parts
  | .choice alternatives =>
    allEven alternatives && !anyNullable empty alternatives &&
      Kind.all.all fun k => k.weight ≠ -1 || !anyStartsWith empty (starts · k) k alternatives
  | .optional body => body.even && body.weight = 0
  | .many body =>
    body.even && body.weight = 0 &&
      (r ≠ .stack || body.startsWith empty (starts · .delimiter) .delimiter)
  | .atLeastOne body =>
    body.even && body.weight = 0 &&
      (r ≠ .stack || body.startsWith empty (starts · .delimiter) .delimiter)

def seqEven : List Production → Bool
  | [] => true
  | p :: ps => p.even && handsOver empty starts p ps && seqEven ps

def allEven : List Production → Bool
  | [] => true
  | p :: ps => p.even && p.weight = 0 && allEven ps

end

theorem even_of_mem : ∀ {ps : List Production} {p : Production}, allEven empty starts r ps = true →
    p ∈ ps → even empty starts r p = true ∧ p.weight = 0
  | q :: ps, p, h, hp => by
    simp only [allEven, Bool.and_eq_true, decide_eq_true_eq] at h
    rcases List.mem_cons.1 hp with rfl | hp
    · exact h.1
    · exact even_of_mem h.2 hp

end Even

end Production

/-- A production of the script grammar, in the definition of `r`, that keeps brackets in pairs. -/
def Even (r : Rule) (p : Production) : Prop :=
  p.even scriptTable.isNullable scriptTable.starts r = true

theorem even_definition {q : Rule} {body : Production}
    (h : scriptTable.definition? q = some body) : Even q body ∧ body.weight = 0 := by
  have hall : (Rule.all.all fun q => (scriptRules.lookup q).all fun body =>
      body.even (emptyRules.contains ·) (·.lead.contains ·) q && body.weight = 0) = true := by
    decide +kernel
  have hq := List.all_eq_true.1 hall q (Rule.mem_all q)
  have h' : scriptRules.lookup q = some body := h
  rw [h', Option.all_some, Bool.and_eq_true, decide_eq_true_eq] at hq
  have hstarts : scriptTable.starts = (·.lead.contains ·) := by
    funext r k
    exact scriptTable_starts r k
  rw [Even, scriptTable_isNullable, hstarts]
  exact hq

namespace Even

variable {r : Rule} {p : Production} {ps : List Production}

theorem seq_iff : Even r (.seq (p :: ps)) ↔ (Even r p ∧
    Production.handsOver scriptTable.isNullable scriptTable.starts p ps = true) ∧
      Even r (.seq ps) := by
  have h : Even r (.seq (p :: ps)) ↔ (p.even scriptTable.isNullable scriptTable.starts r &&
      Production.handsOver scriptTable.isNullable scriptTable.starts p ps &&
      Production.seqEven scriptTable.isNullable scriptTable.starts r ps) = true := Iff.rfl
  rw [h, Bool.and_eq_true, Bool.and_eq_true]
  exact Iff.rfl

theorem choice_iff : Even r (.choice ps) ↔
    (Production.allEven scriptTable.isNullable scriptTable.starts r ps = true ∧
      Production.nullable scriptTable.isNullable (.choice ps) = false) ∧
    ∀ k : Kind, k.weight ≠ -1 ∨ k ∉ scriptTable.firstOf (.choice ps) := by
  have h : Even r (.choice ps) ↔
      (Production.allEven scriptTable.isNullable scriptTable.starts r ps &&
        !Production.nullable scriptTable.isNullable (.choice ps) &&
        Kind.all.all fun k => decide (k.weight ≠ -1) || !Production.startsWith
          scriptTable.isNullable (scriptTable.starts · k) k (.choice ps)) = true := Iff.rfl
  simp only [h, Bool.and_eq_true, Bool.not_eq_true', List.all_eq_true, Kind.mem_all, true_implies,
    Bool.or_eq_true, decide_eq_true_eq, Table.mem_firstOf, Bool.not_eq_true]

theorem optional_iff : Even r (.optional p) ↔ Even r p ∧ p.weight = 0 := by
  have h : Even r (.optional p) ↔ (p.even scriptTable.isNullable scriptTable.starts r &&
      decide (p.weight = 0)) = true := Iff.rfl
  rw [h, Bool.and_eq_true, decide_eq_true_eq]
  exact Iff.rfl

theorem many_iff : Even r (.many p) ↔ Even r (.optional p) ∧
    (r ≠ .stack ∨ .delimiter ∈ scriptTable.firstOf p) := by
  have h : Even r (.many p) ↔ (Production.even scriptTable.isNullable scriptTable.starts r
      (.optional p) && (decide (r ≠ .stack) || p.startsWith scriptTable.isNullable
        (scriptTable.starts · .delimiter) .delimiter)) = true := Iff.rfl
  rw [h, Bool.and_eq_true, Bool.or_eq_true, decide_eq_true_eq, Table.mem_firstOf]
  exact Iff.rfl

theorem head (h : Even r (.seq (p :: ps))) : Even r p := (seq_iff.1 h).1.1

theorem tail (h : Even r (.seq (p :: ps))) : Even r (.seq ps) := (seq_iff.1 h).2

theorem handsOver (h : Even r (.seq (p :: ps))) : Production.seqWeight ps ≤ 0 ∧
    (Production.nullable scriptTable.isNullable (.seq ps) = true ∨
      ∃ k ∈ scriptTable.firstOf (.seq ps), k.weight = -1 ∨
        k.fills = true ∧ p.leads = true) := by
  have hover := (seq_iff.1 h).1.2
  simp only [Production.handsOver, Bool.and_eq_true, Bool.or_eq_true, decide_eq_true_eq,
    List.any_eq_true] at hover
  obtain ⟨hweight, hnull | ⟨k, -, hk, hmeets⟩⟩ := hover
  · exact ⟨hweight, .inl hnull⟩
  · exact ⟨hweight, .inr ⟨k, Table.mem_firstOf.2 hk, hmeets⟩⟩

theorem alternative (h : Even r (.choice ps)) (hp : p ∈ ps) : Even r p ∧ p.weight = 0 :=
  Production.even_of_mem _ _ _ (choice_iff.1 h).1.1 hp

theorem choice (h : Even r (.choice ps)) :
    Production.nullable scriptTable.isNullable (.choice ps) = false ∧
      ∀ k ∈ scriptTable.firstOf (.choice ps), k.weight ≠ -1 := by
  obtain ⟨⟨-, hnullable⟩, hfirst⟩ := choice_iff.1 h
  exact ⟨hnullable, fun k hk => (hfirst k).resolve_right fun hnot => hnot hk⟩

theorem optional (h : Even r (.optional p)) : Even r p ∧ p.weight = 0 := optional_iff.1 h

theorem many (h : Even r (.many p)) : Even r p ∧ p.weight = 0 := optional_iff.1 (many_iff.1 h).1

/-- A repetition that goes on can begin with the next kind. -/
theorem opens_of_goesOn (h : Even r (.many p)) {ks : List Kind}
    (hgo : scriptTable.goesOn r p ks = true) : scriptTable.opens p ks = true := by
  by_cases hr : r = .stack
  · subst hr
    cases ks with
    | nil => rw [Table.goesOn_stack_nil] at hgo; cases hgo
    | cons k ks =>
      rw [Table.goesOn_stack_cons, Bool.and_eq_true, decide_eq_true_eq] at hgo
      rw [hgo.1, Table.opens_cons]
      exact (many_iff.1 h).2.resolve_left (by simp)
  · rwa [Table.goesOn_of_ne hr] at hgo

end Even

/-! ## What a reading has taken -/

variable {n : Nat} {r q : Rule} {p : Production} {ks rest expected : List Kind}

/-- A finished reading has taken as many brackets as its production has. -/
theorem Reads.excess_eq (h : Reads scriptTable n r p ks (.done rest)) (hp : Even r p) :
    excess ks = p.weight + excess rest := by
  generalize he : Ending.done rest = e at h
  induction h generalizing rest with
  | @terminal n r τ k ks hk =>
    cases he
    cases τ with
    | kind l =>
      obtain rfl : k = l := List.mem_singleton.1 hk
      simp [Production.weight, excess]
    | family f =>
      have hweight : k.weight = 0 := by
        have hk' : k ∈ f.kinds := hk
        revert k
        cases f <;> decide
      simp [Production.weight, excess, hweight]
  | rule h _ _ ih | nested h _ _ ih =>
    obtain ⟨hbody, hweight⟩ := even_definition h
    simpa [Production.weight, hweight] using ih hbody he
  | seqNil =>
    cases he
    simp [Production.weight, Production.seqWeight]
  | seqCons _ _ ihf ihl =>
    have hfirst := ihf hp.head rfl
    have hlater := ihl hp.tail he
    simp only [Production.weight, Production.seqWeight] at hlater ⊢
    omega
  | choice h _ ih =>
    obtain ⟨hp, hweight⟩ := hp.alternative (List.mem_of_find?_eq_some h)
    simpa [Production.weight, hweight] using ih hp he
  | optional _ _ ih =>
    simpa [Production.weight, hp.optional.2] using ih hp.optional.1 he
  | optionalSkip | manyEnd =>
    cases he
    simp [Production.weight]
  | manyCons _ _ _ ihf ihl =>
    have hfirst := ihf hp.many.1 rfl
    have hlater := ihl hp he
    simp only [hp.many.2, Production.weight] at hfirst hlater ⊢
    omega
  | @atLeastOne n r p ks rest e _ _ ihf ihl =>
    have hp : Even r (.many p) := hp
    have hfirst := ihf hp.many.1 rfl
    have hlater := ihl hp he
    simp only [hp.many.2, Production.weight] at hfirst hlater ⊢
    omega
  | terminalStuck | seqStuck | choiceStuck | manyStuck | atLeastOneStuck => cases he

/-- A stuck reading does not have what it expects. -/
theorem Reads.not_expected {t : Table} (h : Reads t n r p ks (.stuck rest q expected)) :
    ∀ k ∈ rest.head?, k ∉ expected := by
  generalize he : Ending.stuck rest q expected = e at h
  induction h generalizing rest q expected with
  | terminalStuck h =>
    cases he
    exact h
  | choiceStuck h =>
    cases he
    rw [find?_opens_eq_none_iff, Table.opens_eq_false] at h
    exact h
  | terminal | seqNil | optionalSkip | manyEnd => cases he
  | rule _ _ _ ih | nested _ _ _ ih | seqStuck _ ih | choice _ _ ih | optional _ _ ih
  | manyStuck _ _ ih | atLeastOneStuck _ ih => exact ih he
  | seqCons _ _ _ ih | manyCons _ _ _ _ ih | atLeastOne _ _ _ ih => exact ih he

/-- What a reading of `p` that has taken `w` waits for. -/
inductive Awaits (p : Production) (w expected : List Kind) : Prop where
  /-- A bracket that was opened has to be closed. -/
  | closing {k : Kind} (hk : k ∈ expected) (hweight : k.weight = -1)
      (hexcess : p.weight + 1 ≤ excess w)
  /-- The last kind taken leads to something that can be a label or begin with a brace. -/
  | filling {k l : Kind} (hk : k ∈ expected) (hfills : k.fills = true) (hl : l ∈ w.getLast?)
      (hleads : l.leads = true) (hexcess : p.weight ≤ excess w)
  /-- Nothing was taken, and the production has not begun. -/
  | beginning (hw : w = []) (hp : p.nullable scriptTable.isNullable = false)
      (hfirst : ∀ k ∈ scriptTable.firstOf p, k ∈ expected) (hplain : ∀ k ∈ expected, k.weight ≠ -1)

namespace Awaits

variable {w v : List Kind} {ps : List Production} {p' : Production}

/-- A part of `p'` that is read behind `w` waits for what `p'` does. -/
theorem prepend (h : Awaits p v expected) (hweight : p'.weight ≤ excess w + p.weight)
    (hbegin : p.nullable scriptTable.isNullable = false →
      (∀ k ∈ scriptTable.firstOf p, k ∈ expected) → (∀ k ∈ expected, k.weight ≠ -1) →
        Awaits p' w expected) : Awaits p' (w ++ v) expected := by
  cases h with
  | closing hk hk' hexcess =>
    refine .closing hk hk' ?_
    rw [excess_append]
    omega
  | @filling k l hk hfills hl hleads hexcess =>
    refine .filling (l := l) hk hfills ?_ hleads ?_
    · rw [List.getLast?_append, Option.mem_def.1 hl]
      rfl
    · rw [excess_append]
      omega
  | beginning hv hp hfirst hplain =>
    rw [hv, List.append_nil]
    exact hbegin hp hfirst hplain

/-- A production that is read because it can begin with the next kind has begun. -/
theorem opened (h : Awaits p w expected) (ho : scriptTable.opens p (w ++ rest) = true)
    (hnot : ∀ k ∈ rest.head?, k ∉ expected) (hweight : p'.weight ≤ p.weight) :
    Awaits p' w expected := by
  have hbegun : w = [] → ¬∀ k ∈ scriptTable.firstOf p, k ∈ expected := by
    rintro rfl hfirst
    cases rest with
    | nil => cases ho
    | cons k rest => exact hnot k rfl (hfirst k (Table.opens_cons.1 ho))
  cases h with
  | closing hk hk' hexcess => exact .closing hk hk' (by omega)
  | filling hk hfills hl hleads hexcess => exact .filling hk hfills hl hleads (by omega)
  | beginning hw _ hfirst => exact absurd hfirst (hbegun hw)

theorem terminal (τ : Terminal) : Awaits (.terminal τ) [] τ.kinds := by
  have hbegin : (∀ k ∈ τ.kinds, k.weight ≠ -1) → Awaits (.terminal τ) [] τ.kinds :=
    fun h => .beginning rfl rfl (fun k hk => Table.mem_firstOf_terminal.1 hk) h
  cases τ with
  | kind k =>
    by_cases hk : k.weight = -1
    · exact .closing (List.mem_singleton.2 rfl) hk (by simp [Production.weight, hk])
    · exact hbegin (by simpa [Terminal.kinds] using hk)
  | family f => exact hbegin (by cases f <;> decide)

/-- What follows the first part of a sequence waits for what the whole does. -/
theorem tail (h : Awaits (.seq ps) v expected) (hp : Even r (.seq (p :: ps)))
    (hfirst : Reads scriptTable n r p (w ++ ks) (.done ks)) :
    Awaits (.seq (p :: ps)) (w ++ v) expected := by
  have hw := hfirst.excess_eq hp.head
  rw [excess_append] at hw
  obtain ⟨hweight, hmeets⟩ := hp.handsOver
  refine h.prepend ?_ fun hnull hbegin hplain => ?_
  · simp only [Production.weight, Production.seqWeight]
    omega
  · rcases hmeets with hmeets | ⟨k, hk, hk' | ⟨hfills, hleads⟩⟩
    · simp [hnull] at hmeets
    · exact absurd hk' (hplain k (hbegin k hk))
    · obtain ⟨l, rfl, hl⟩ := Production.exists_of_leads hleads
      obtain rfl : w = [l] := by
        generalize hks : w ++ ks = ls at hfirst
        cases hfirst with
        | terminal hmem =>
          obtain rfl := List.mem_singleton.1 hmem
          exact List.append_cancel_right hks
      refine .filling (hbegin k hk) hfills rfl hl ?_
      simp only [Production.weight, Production.seqWeight]
      omega

end Awaits

/-- A stuck reading waits for something that is within reach. -/
theorem Reads.awaits (h : Reads scriptTable n r p ks (.stuck rest q expected)) (hp : Even r p) :
    ∃ w, ks = w ++ rest ∧ Awaits p w expected := by
  generalize he : Ending.stuck rest q expected = e at h
  induction h generalizing rest q expected with
  | @terminalStuck n r τ ks hk =>
    cases he
    exact ⟨[], rfl, .terminal τ⟩
  | rule h _ _ ih | nested h _ _ ih =>
    obtain ⟨hbody, hweight⟩ := even_definition h
    obtain ⟨w, hw, hawaits⟩ := ih hbody he
    refine ⟨w, hw, hawaits.prepend (w := []) ?_ fun hnull hfirst => .beginning rfl ?_ ?_⟩
    · simp [Production.weight, hweight]
    · have heq : scriptTable.isNullable _ = _ := isNullable_eq_of_lookup h
      exact heq.trans hnull
    · rwa [← firstOf_definition h]
  | seqStuck _ ih =>
    obtain ⟨w, hw, hawaits⟩ := ih hp.head he
    have hweight := hp.handsOver.1
    refine ⟨w, hw, hawaits.prepend (w := []) ?_ fun hnull hfirst => .beginning rfl ?_ ?_⟩
    · simp only [Production.weight, Production.seqWeight, excess_nil]
      omega
    · simp [Production.nullable, Production.allNullable, hnull]
    · simpa only [Table.mem_firstOf_seq hnull] using hfirst
  | seqCons first _ _ ih =>
    obtain ⟨u, rfl⟩ := first.suffix
    obtain ⟨v, hv, hawaits⟩ := ih hp.tail he
    refine ⟨u ++ v, ?_, hawaits.tail hp first⟩
    rw [List.append_assoc, ← hv]
    rfl
  | choice h taken ih =>
    obtain ⟨hp, hweight⟩ := hp.alternative (List.mem_of_find?_eq_some h)
    obtain ⟨w, rfl, hawaits⟩ := ih hp he
    subst he
    have ho := List.find?_some h
    exact ⟨w, rfl, hawaits.opened ho taken.not_expected (by simp [Production.weight, hweight])⟩
  | @choiceStuck n r ps ks h =>
    cases he
    obtain ⟨hnull, hplain⟩ := hp.choice
    exact ⟨[], rfl, .beginning rfl hnull (fun k hk => hk) hplain⟩
  | optional h body ih =>
    obtain ⟨hp, hweight⟩ := hp.optional
    obtain ⟨w, rfl, hawaits⟩ := ih hp he
    subst he
    exact ⟨w, rfl, hawaits.opened h body.not_expected (by simp [Production.weight, hweight])⟩
  | manyStuck h first ih =>
    have ho := hp.opens_of_goesOn h
    obtain ⟨hp, hweight⟩ := hp.many
    obtain ⟨w, rfl, hawaits⟩ := ih hp he
    cases he
    exact ⟨w, rfl, hawaits.opened ho first.not_expected (by simp [Production.weight, hweight])⟩
  | atLeastOneStuck _ ih =>
    obtain ⟨hp, hweight⟩ := Even.many hp
    obtain ⟨w, hw, hawaits⟩ := ih hp he
    refine ⟨w, hw, hawaits.prepend (w := []) ?_ fun hnull hfirst => .beginning rfl hnull ?_⟩
    · simp [Production.weight, hweight]
    · simpa only [Table.mem_firstOf_atLeastOne] using hfirst
  | manyCons _ first _ _ ih | atLeastOne first _ _ ih =>
    have hmany : Even _ (.many _) := hp
    obtain ⟨u, rfl⟩ := first.suffix
    obtain ⟨v, hv, hawaits⟩ := ih hmany he
    have hu := first.excess_eq hmany.many.1
    rw [excess_append, hmany.many.2] at hu
    refine ⟨u ++ v, ?_, hawaits.prepend ?_ fun hnull => ?_⟩
    · rw [List.append_assoc, ← hv]
      rfl
    · simp only [Production.weight]
      simp only [Ending.rest] at hu
      omega
    · cases hnull
  | terminal | seqNil | optionalSkip | manyEnd => cases he

/-! ## Completing a script -/

/-- What it takes to complete a script that has begun with some kinds: brackets to close, and
something that has to follow the last kind. -/
def effort (w : List Kind) : Nat :=
  (2 * excess w).toNat + if w.getLast?.any Kind.leads then 3 else 0

/-- A script that is stuck can go on with a kind that leaves less to do. -/
theorem Awaits.exists_effort_lt {w : List Kind} (h : Awaits (.rule .code) w expected) :
    ∃ k ∈ expected, effort (w ++ [k]) < effort w := by
  cases h with
  | @closing k hk hweight hexcess =>
    have hplain : k.leads = false := by
      revert hweight
      cases k <;> decide
    refine ⟨k, hk, ?_⟩
    simp only [Production.weight] at hexcess
    simp only [effort, excess_append, excess_singleton, List.getLast?_append,
      List.getLast?_singleton, Option.some_or, Option.any_some, hplain, hweight]
    simp only [Bool.false_eq_true, if_false]
    omega
  | @filling k l hk hfills hl hleads hexcess =>
    obtain ⟨hplain, hweight⟩ : k.leads = false ∧ k.weight ≤ 1 := by
      revert hfills
      cases k <;> decide
    refine ⟨k, hk, ?_⟩
    simp only [Production.weight] at hexcess
    simp only [effort, excess_append, excess_singleton, List.getLast?_append,
      List.getLast?_singleton, Option.some_or, Option.any_some, hplain, Option.mem_def.1 hl, hleads]
    simp only [Bool.false_eq_true, if_false, if_true]
    omega
  | beginning _ hp =>
    have hnull : (Production.rule .code).nullable scriptTable.isNullable = true := by
      rw [scriptTable_isNullable]
      decide
    rw [hp] at hnull
    cases hnull

/-- A stuck reading of a script as the parser comes to it. -/
theorem stuck_of_reads
    (h : Reads scriptTable n .code (.rule .code) ks (.stuck rest q expected)) :
    ∃ w, ks = w ++ rest ∧ Stuck scriptTable n .code (.rule .code) w rest q expected := by
  obtain ⟨ts, rfl⟩ := exists_kindsOf ks
  have hj := script_judged n ts 0
  generalize Parser.script n 0 (.ofTokens ts) = res at hj
  cases hj with
  | accepted read => cases h.unique (by simpa using read.reads)
  | leftover tokens _ _ _ _ read => cases h.unique (read.reads_tokens tokens)
  | @stuck f rule expected' w rest' tokens cause index found read =>
    cases h.unique (read.reads_tokens tokens)
    exact ⟨kindsOf w, by rw [tokens, kindsOf_append], read⟩
  | tooDeep _ _ _ _ read => exact absurd h (read.dead _)

theorem exists_reads_kinds (h : ks.length < n) :
    ∃ e, Reads scriptTable n .code (.rule .code) ks e := by
  obtain ⟨ts, rfl⟩ := exists_kindsOf ks
  exact exists_reads (by simpa using h)

/-- With levels enough, a stuck reading can be completed. -/
theorem exists_completion {w : List Kind}
    (h : Stuck scriptTable n .code (.rule .code) w rest q expected)
    (hn : w.length + effort w < n) :
    ∃ u, Reads scriptTable n .code (.rule .code) (w ++ u) (.done []) := by
  induction hm : effort w using Nat.strongRecOn generalizing w rest q expected with
  | ind m ih =>
    subst hm
    obtain ⟨w', hw', hawaits⟩ := h.reads.awaits rfl
    obtain rfl := List.append_cancel_right hw'
    obtain ⟨k, hk, hlt⟩ := hawaits.exists_effort_lt
    have hlen : (w ++ [k]).length = w.length + 1 := by simp
    obtain ⟨e, he⟩ : ∃ e, Reads scriptTable n .code (.rule .code) (w ++ [k]) e :=
      exists_reads_kinds (by omega)
    have hrest : e.rest.length ≤ 0 := h.passes k hk [] e he
    cases e with
    | done rest' =>
      obtain rfl : rest' = [] := List.length_eq_zero_iff.1 (Nat.le_zero.1 hrest)
      exact ⟨[k], he⟩
    | stuck rest' q' expected' =>
      obtain rfl : rest' = [] := List.length_eq_zero_iff.1 (Nat.le_zero.1 hrest)
      obtain ⟨w', hw', hstuck⟩ := stuck_of_reads he
      rw [List.append_nil] at hw'
      subst hw'
      obtain ⟨u, hu⟩ := ih _ hlt hstuck (by omega) rfl
      exact ⟨k :: u, by simpa using hu⟩

/-- A reading within some levels is one within more. -/
theorem Reads.mono {t : Table} {e : Ending} {m : Nat} (h : Reads t n r p ks e) (hm : n ≤ m) :
    Reads t m r p ks e := by
  obtain ⟨os, hos, hle⟩ := h.unfolds 0
  exact hos.reads fun o ho => (hle o ho).trans (Nat.add_le_add_left hm 0)

/-- The tokens in front of a syntax error are the beginning of a script. -/
theorem syntaxError_completable {limit i id : Nat} {ts : List Token} {e : SyntaxError}
    (h : syntaxError? limit ts id = some (i, e)) :
    i ≤ ts.length ∧ ∃ w code, parseTokensUnlimited (ts.take i ++ w) id = .ok code := by
  obtain ⟨w, rest, rfl, rfl, -, hread⟩ := syntaxError?_cases h
  refine ⟨by simp, ?_⟩
  rw [List.take_left]
  have hcomplete : ∀ {n : Nat} {u : List Token},
      Reads scriptTable n .code (.rule .code) (kindsOf (w ++ u)) (.done []) →
      ∃ w' code, parseTokensUnlimited (w ++ w') id = .ok code := by
    intro n u hu
    obtain ⟨code, hcode⟩ : ∃ code, parseTokensWithin n (w ++ u) id = .ok code :=
      parseTokensWithin_ok_iff.2 hu
    exact ⟨u, code, (parseTokensWithin_eq_unlimited_of_reads hu).symm.trans hcode⟩
  rcases hread with ⟨-, -, wanted, -, hdone⟩ | ⟨-, hstuck⟩
  · refine hcomplete (n := limit) (u := []) ?_
    simpa using hdone.ends [] (by simp)
  · -- the limit of the parser may be too low for the completion
    obtain ⟨n, hn⟩ : ∃ n, limit ≤ n ∧ (kindsOf w).length + effort (kindsOf w) < n :=
      ⟨max limit (((kindsOf w).length + effort (kindsOf w)) + 1), by omega, by omega⟩
    obtain ⟨w', hw', hstuck'⟩ := stuck_of_reads (hstuck.reads.mono hn.1)
    obtain rfl := List.append_cancel_right hw'
    obtain ⟨ks, hks⟩ := exists_completion hstuck' hn.2
    obtain ⟨u, rfl⟩ := exists_kindsOf ks
    exact hcomplete (u := u) (by rwa [kindsOf_append])

/-- A loop whose count is left in the middle of a modifier, inside a bracket. -/
theorem syntaxError_completable_modifier :
    let token (k : Kind) : Token := .ofText k .origin []
    let ts := [Kind.repeatWord, .openRound, .label, .doubleColon, .closeRound].map token
    ∃ e, syntaxError? maxNesting ts 0 = some (4, e) ∧ e.expected = [.label] ∧
      ∃ w code, parseTokensUnlimited (ts.take 4 ++ w) 0 = .ok code := by
  intro token ts
  have h : ((syntaxError? maxNesting ts 0).any fun x => x.1 = 4 && x.2.expected = [.label])
      = true := by
    decide +kernel
  obtain ⟨⟨i, e⟩, he, hx⟩ := (Option.any_eq_true _ _).1 h
  obtain ⟨rfl, hexpected⟩ : i = 4 ∧ e.expected = [.label] := by simpa using hx
  exact ⟨e, he, hexpected, (syntaxError_completable he).2⟩

end BlockNotation
