import BlockNotation.Proofs.Grammar.Prolonging
import BlockNotation.Proofs.Grammar.ScriptTable

/-!
# Where a reading can get stuck

A production that was chosen by the next token does not get stuck at that token. So most of the
points where a token or one of several alternatives is demanded cannot fail: `guards` goes over a
production with what is known about the next kinds, and accepts it if every other point is one of a
list of faults, and every rule that is entered with nothing known is one of a list of rules.

If the definitions of a table pass, a reading gets stuck at a fault of the list
(`Reads.fault_mem`). For the script grammar there are seven (`guarded_scriptTable`).
-/

namespace BlockNotation

/-- What is known about the kinds that come next: one set for each of them, as far as anything is
known. -/
inductive Foreseen : List (List Kind) → List Kind → Prop where
  | nothing {ks : List Kind} : Foreseen [] ks
  | next {known : List (List Kind)} {S ks : List Kind} {k : Kind} (head : k ∈ S)
      (later : Foreseen known ks) : Foreseen (S :: known) (k :: ks)

/-- Is the next kind known to be one of these? -/
def foresees (known : List (List Kind)) (ks : List Kind) : Bool :=
  known.head?.any (·.all ks.contains)

/-- What is still known behind a production: behind a token, what was known to follow it. -/
def knownAfter (known : List (List Kind)) : Production → List (List Kind)
  | .terminal _ => known.tail
  | _ => []

namespace Table

variable (t : Table)

/-- What is known where a repetition inside rule `r` goes on. -/
def knownAtRound (r : Rule) (body : Production) : List (List Kind) :=
  if r = .stack then [[.delimiter], t.firstOf (.rule .block)] else [t.firstOf body]

variable (faults : List (Rule × List Kind)) (demanded : List Rule) (r : Rule)

mutual

/-- Can a production inside rule `r` get stuck at faults of the list only, and in rules that are
demanded? -/
def guards (known : List (List Kind)) : Production → Bool
  | .terminal τ => foresees known τ.kinds || faults.contains (r, τ.kinds)
  | .rule q => foresees known (t.firstOf (.rule q)) || demanded.contains q
  | .seq parts => guardsSeq known parts
  | .choice alternatives =>
    (foresees known (t.firstOf (.choice alternatives)) ||
      faults.contains (r, t.firstOf (.choice alternatives))) && guardsEach alternatives
  | .optional body => guards [t.firstOf body] body
  | .many body => guards (t.knownAtRound r body) body
  | .atLeastOne body => guards known body && guards (t.knownAtRound r body) body

def guardsSeq (known : List (List Kind)) : List Production → Bool
  | [] => true
  | p :: ps => guards known p && guardsSeq (knownAfter known p) ps

def guardsEach : List Production → Bool
  | [] => true
  | p :: ps => guards [t.firstOf p] p && guardsEach ps

end

/-- The definition of every rule is guarded where the rule is seen to begin, and those of the rules
that are demanded anywhere. -/
structure Guarded : Prop where
  seen : ∀ {q body}, t.definition? q = some body →
    guards t faults demanded q [t.firstOf (.rule q)] body = true
  unseen : ∀ {q body}, t.definition? q = some body → q ∈ demanded →
    guards t faults demanded q [] body = true

end Table

variable {t : Table} {faults : List (Rule × List Kind)} {demanded : List Rule}
  {known : List (List Kind)} {n : Nat} {r q : Rule} {p : Production} {ps : List Production}
  {ks rest expected : List Kind}

theorem Foreseen.exists_mem (h : Foreseen known ks) {ls : List Kind}
    (hf : foresees known ls = true) : ∃ k ∈ ks.head?, k ∈ ls := by
  cases h with
  | nothing => simp [foresees] at hf
  | @next _ _ ks k head _ =>
    simp only [foresees, List.head?_cons, Option.any_some, List.all_eq_true,
      List.contains_iff_mem] at hf
    exact ⟨k, rfl, hf k head⟩

theorem Foreseen.opens (h : Foreseen known ks) (hf : foresees known (t.firstOf p) = true) :
    t.opens p ks = true := by
  obtain ⟨k, hk, hm⟩ := h.exists_mem hf
  rw [← Bool.not_eq_false, Table.opens_eq_false]
  exact fun hno => hno k hk hm

theorem foreseen_of_opens (h : t.opens p ks = true) : Foreseen [t.firstOf p] ks := by
  cases ks with
  | nil => simp [Table.opens] at h
  | cons k ks => exact .next (Table.opens_cons.1 h) .nothing

theorem foreseen_of_goesOn (h : t.goesOn r p ks = true) : Foreseen (t.knownAtRound r p) ks := by
  unfold Table.knownAtRound
  by_cases hr : r = .stack
  · subst hr
    rw [if_pos rfl]
    cases ks with
    | nil => simp [Table.goesOn_stack_nil] at h
    | cons k ks =>
      rw [Table.goesOn_stack_cons, Bool.and_eq_true, decide_eq_true_eq] at h
      exact .next (List.mem_singleton.2 h.1) (foreseen_of_opens h.2)
  · rw [if_neg hr]
    exact foreseen_of_opens ((Table.goesOn_of_ne hr).symm.trans h)

theorem Foreseen.after (h : Foreseen known ks) (hp : Reads t n r p ks (.done rest)) :
    Foreseen (knownAfter known p) rest := by
  cases p with
  | terminal τ =>
    cases hp with
    | terminal =>
      cases h with
      | nothing => exact .nothing
      | next _ later => exact later
  | _ => exact .nothing

theorem guards_of_mem (h : t.guardsEach faults demanded r ps = true) (hp : p ∈ ps) :
    t.guards faults demanded r [t.firstOf p] p = true := by
  induction ps with
  | nil => simp at hp
  | cons q qs ih =>
    rw [Table.guardsEach, Bool.and_eq_true] at h
    rcases List.mem_cons.1 hp with rfl | hp
    · exact h.1
    · exact ih h.2 hp

/-- A rule is read with what is known in front of it, or demanded with nothing known. -/
theorem Table.Guarded.body (hg : Guarded t faults demanded) {body : Production}
    (hb : t.definition? q = some body) (hk : Foreseen known ks)
    (h : t.guards faults demanded r known (.rule q) = true) : ∃ known,
    t.guards faults demanded q known body = true ∧ Foreseen known ks := by
  rw [Table.guards, Bool.or_eq_true, List.contains_iff_mem] at h
  rcases h with h | h
  · exact ⟨_, hg.seen hb, foreseen_of_opens (hk.opens h)⟩
  · exact ⟨_, hg.unseen hb h, .nothing⟩

/-- A reading in a guarded table gets stuck at one of the faults. -/
theorem Reads.fault_mem (hg : t.Guarded faults demanded)
    (h : Reads t n r p ks (.stuck rest q expected))
    (hp : t.guards faults demanded r known p = true) (hk : Foreseen known ks) :
    (q, expected) ∈ faults := by
  generalize he : Ending.stuck rest q expected = e at h
  -- on the reading; what is known changes from each production to its parts
  induction h generalizing known with
  | terminal | seqNil | optionalSkip | manyEnd => cases he
  | @terminalStuck n r τ ks h =>
    cases he
    rw [Table.guards, Bool.or_eq_true, List.contains_iff_mem] at hp
    refine hp.resolve_left fun hf => ?_
    obtain ⟨k, hk, hm⟩ := hk.exists_mem hf
    exact h k hk hm
  | rule hb _ _ ih | nested hb _ _ ih =>
    obtain ⟨known, hbody, hk⟩ := hg.body hb hk hp
    exact ih hbody hk he
  | seqStuck _ ih =>
    rw [Table.guards, Table.guardsSeq, Bool.and_eq_true] at hp
    exact ih hp.1 hk he
  | seqCons first _ _ ih =>
    rw [Table.guards, Table.guardsSeq, Bool.and_eq_true] at hp
    exact ih (by rw [Table.guards]; exact hp.2) (hk.after first) he
  | choice h _ ih =>
    rw [Table.guards, Bool.and_eq_true] at hp
    exact ih (guards_of_mem hp.2 (List.mem_of_find?_eq_some h))
      (foreseen_of_opens (List.find?_some (p := (t.opens · _)) h)) he
  | choiceStuck h =>
    cases he
    rw [Table.guards, Bool.and_eq_true, Bool.or_eq_true, List.contains_iff_mem] at hp
    refine hp.1.resolve_left fun hf => ?_
    rw [find?_opens_eq_none_iff, hk.opens hf] at h
    cases h
  | optional h _ ih => exact ih (by rwa [Table.guards] at hp) (foreseen_of_opens h) he
  | manyStuck h _ ih => exact ih (by rwa [Table.guards] at hp) (foreseen_of_goesOn h) he
  | manyCons _ _ _ _ ih =>
    rw [Table.guards] at hp
    exact ih (by rw [Table.guards]; exact hp) .nothing he
  | atLeastOneStuck _ ih =>
    rw [Table.guards, Bool.and_eq_true] at hp
    exact ih hp.1 hk he
  | atLeastOne _ _ _ ih =>
    rw [Table.guards, Bool.and_eq_true] at hp
    exact ih (by rw [Table.guards]; exact hp.2) .nothing he

/-! ## The script grammar -/

/-- The points where reading a script can get stuck, and the kinds demanded there. -/
def scriptFaults : List (Rule × List Kind) :=
  [(.condition, scriptTable.first .condition), (.condition, [.closeCurly]),
    (.argument, scriptTable.first .argument), (.argument, [.closeCurly]),
    (.modifier, [.label]), (.expression, [.closeRound]), (.predicate, [.closeAngle])]

/-- The rules that are entered whatever comes next. -/
def enteredBlindly : List Rule := [.code, .clause, .modifier, .annotations, .argument, .condition]

theorem guarded_scriptTable : scriptTable.Guarded scriptFaults enteredBlindly := by
  have hall : (Rule.all.all fun q => (scriptRules.lookup q).all fun body =>
      scriptTable.guards scriptFaults enteredBlindly q [scriptTable.firstOf (.rule q)] body &&
        (!enteredBlindly.contains q ||
          scriptTable.guards scriptFaults enteredBlindly q [] body)) = true := by
    simp only [scriptFaults, scriptTable_first]
    rw [scriptTable_eq]
    decide +kernel
  have hrule : ∀ {q body}, scriptTable.definition? q = some body →
      scriptTable.guards scriptFaults enteredBlindly q [scriptTable.firstOf (.rule q)] body = true ∧
        (q ∈ enteredBlindly → scriptTable.guards scriptFaults enteredBlindly q [] body = true) := by
    intro q body hb
    have hb' : scriptRules.lookup q = some body := hb
    have hq := List.all_eq_true.1 hall q (Rule.mem_all q)
    rw [hb', Option.all_some, Bool.and_eq_true, Bool.or_eq_true, Bool.not_eq_true'] at hq
    exact ⟨hq.1, fun hm => hq.2.resolve_left (by simp [hm])⟩
  exact ⟨fun hb => (hrule hb).1, fun hb hm => (hrule hb).2 hm⟩

end BlockNotation
