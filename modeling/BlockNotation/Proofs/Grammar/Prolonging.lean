import BlockNotation.Proofs.Grammar.Reading

/-!
# What could have prolonged a reading

A finished reading has looked at the kind in front of which it ended, and decided not to take it.
`Done` says for which kinds that decision would have been another: with a kind of the list
`wanted` there, no reading ends at or before that kind (`Passes`), and with any other it ends as
before. `Stuck` says the same of the kinds a stuck reading expected.

Both are closed under the ways productions are put together, and carry over between productions
with the same readings.
-/

namespace BlockNotation

section Endings

variable (t : Table) (n : Nat) (r : Rule) (p : Production)

/-- However `p` is read on `ks`, at most `m` kinds are left. -/
def Passes (ks : List Kind) (m : Nat) : Prop := ∀ e, Reads t n r p ks e → e.rest.length ≤ m

/-- No reading of `p` on `ks` keeps within `n` levels. -/
def Dead (ks : List Kind) : Prop := ∀ e, ¬Reads t n r p ks e

/-- A reading that takes a kind whenever the next one opens `p`. -/
def Moves : Prop :=
  ∀ ks e, t.opens p ks = true → Reads t n r p ks e → e.rest.length < ks.length

/-- Reading `p` takes `w` and ends in front of `rest`, and only a next kind among `wanted` could
have changed that. -/
structure Done (w rest wanted : List Kind) : Prop where
  apart : ∀ k ∈ rest.head?, k ∉ wanted
  ends : ∀ u, (∀ k ∈ u.head?, k ∉ wanted) → Reads t n r p (w ++ u) (.done u)
  passes : ∀ k ∈ wanted, ∀ v, Passes t n r p (w ++ k :: v) v.length

/-- Reading `p` takes `w` and gets stuck in front of `rest`, and none of the kinds it expected
would have stopped it there. -/
structure Stuck (w rest : List Kind) (q : Rule) (expected : List Kind) : Prop where
  reads : Reads t n r p (w ++ rest) (.stuck rest q expected)
  passes : ∀ k ∈ expected, ∀ v, Passes t n r p (w ++ k :: v) v.length

end Endings

/-- The kinds looked for at the next token, after `w` was taken: those looked for before are
forgotten as soon as a token is taken. -/
def lookedFor {α : Type} (w : List α) (before after : List Kind) : List Kind :=
  if w.isEmpty then before ++ after else after

@[simp] theorem lookedFor_nil {α : Type} (before after : List Kind) :
    lookedFor ([] : List α) before after = before ++ after := rfl

@[simp] theorem lookedFor_cons {α : Type} (a : α) (w : List α) (before after : List Kind) :
    lookedFor (a :: w) before after = after := rfl

theorem lookedFor_append {α : Type} (w v : List α) (before m m' : List Kind) :
    lookedFor (w ++ v) before (lookedFor v m m') = lookedFor v (lookedFor w before m) m' := by
  cases v <;> cases w <;> simp

variable {t : Table} {n n' : Nat} {r r' : Rule} {p p' : Production} {ps : List Production}

namespace Table

theorem opens_cons {k : Kind} {ks : List Kind} : t.opens p (k :: ks) = true ↔ k ∈ t.firstOf p := by
  simp [opens]

theorem opens_eq_false {ks : List Kind} :
    t.opens p ks = false ↔ ∀ k ∈ ks.head?, k ∉ t.firstOf p := by
  cases ks <;> simp [opens]

theorem opens_congr {ks ls : List Kind} (hf : ∀ k, k ∈ t.firstOf p ↔ k ∈ t.firstOf p')
    (h : ks.head? = ls.head?) : t.opens p ks = t.opens p' ls := by
  rw [Bool.eq_iff_iff]
  cases ks with
  | nil => cases ls <;> simp_all [opens]
  | cons k ks =>
    cases ls with
    | nil => simp at h
    | cons l ls =>
      simp only [List.head?_cons, Option.some.injEq] at h
      rw [opens_cons, opens_cons, hf, h]

theorem mem_firstOf {k : Kind} :
    k ∈ t.firstOf p ↔ p.startsWith t.isNullable (t.starts · k) k = true := by
  simp [firstOf_eq]

@[simp] theorem mem_firstOf_terminal {τ : Terminal} {k : Kind} :
    k ∈ t.firstOf (.terminal τ) ↔ k ∈ τ.kinds := by
  simp [mem_firstOf, Production.startsWith]

@[simp] theorem mem_firstOf_token {j k : Kind} : j ∈ t.firstOf (.token k) ↔ j = k :=
  mem_firstOf_terminal.trans List.mem_singleton

theorem mem_firstOf_seq_cons {k : Kind} :
    k ∈ t.firstOf (.seq (p :: ps)) ↔
      k ∈ t.firstOf p ∨ p.nullable t.isNullable = true ∧ k ∈ t.firstOf (.seq ps) := by
  simp [mem_firstOf, Production.startsWith, Production.seqStartsWith]

@[simp] theorem mem_firstOf_choice_nil {k : Kind} : k ∉ t.firstOf (.choice []) := by
  simp [mem_firstOf, Production.startsWith, Production.anyStartsWith]

@[simp] theorem mem_firstOf_choice_cons {k : Kind} :
    k ∈ t.firstOf (.choice (p :: ps)) ↔ k ∈ t.firstOf p ∨ k ∈ t.firstOf (.choice ps) := by
  simp [mem_firstOf, Production.startsWith, Production.anyStartsWith]

@[simp] theorem mem_firstOf_atLeastOne {k : Kind} :
    k ∈ t.firstOf (.atLeastOne p) ↔ k ∈ t.firstOf p := by
  simp [mem_firstOf, Production.startsWith]

/-- A sequence begins as its first part does, if that takes a token. -/
theorem mem_firstOf_seq (hp : p.nullable t.isNullable = false) (k : Kind) :
    k ∈ t.firstOf (.seq (p :: ps)) ↔ k ∈ t.firstOf p := by
  simp [mem_firstOf_seq_cons, hp]

theorem mem_firstOf_seq_atLeastOne (hp : p.nullable t.isNullable = false) (k : Kind) :
    k ∈ t.firstOf (.seq (.atLeastOne p :: ps)) ↔ k ∈ t.firstOf p := by
  rw [mem_firstOf_seq (by simpa [Production.nullable] using hp), mem_firstOf_atLeastOne]

theorem goesOn_of_ne {ks : List Kind} (hr : r ≠ .stack) : t.goesOn r p ks = t.opens p ks := by
  simp [goesOn, hr]

theorem goesOn_stack_nil : t.goesOn .stack p [] = false := rfl

theorem goesOn_stack_cons {k : Kind} {ks : List Kind} :
    t.goesOn .stack p (k :: ks) = (decide (k = .delimiter) && t.opens (.rule .block) ks) := by
  cases k <;> simp [goesOn]

theorem goesOn_stack_congr {ks ls : List Kind} (h : ks.take 2 = ls.take 2) :
    t.goesOn .stack p ks = t.goesOn .stack p ls := by
  rcases ks with _ | ⟨k, _ | ⟨k', ks⟩⟩ <;> rcases ls with _ | ⟨l, _ | ⟨l', ls⟩⟩ <;>
    simp_all [goesOn_stack_cons, opens]

end Table

/-! ## Productions with the same readings -/

theorem Done.congr {w rest wanted : List Kind}
    (h : ∀ u e, Reads t n r p (w ++ u) e ↔ Reads t n' r' p' (w ++ u) e)
    (hd : Done t n r p w rest wanted) : Done t n' r' p' w rest wanted where
  apart := hd.apart
  ends u hu := (h _ _).1 (hd.ends u hu)
  passes k hk v e he := hd.passes k hk v e ((h _ _).2 he)

theorem Stuck.congr {w rest expected : List Kind} {q : Rule}
    (h : ∀ u e, Reads t n r p (w ++ u) e ↔ Reads t n' r' p' (w ++ u) e)
    (hs : Stuck t n r p w rest q expected) : Stuck t n' r' p' w rest q expected where
  reads := (h _ _).1 hs.reads
  passes k hk v e he := hs.passes k hk v e ((h _ _).2 he)

theorem reads_rule_iff {q : Rule} {ks : List Kind} {e : Ending} (h : t.definition? q = some p)
    (hq : q.nests = false) : Reads t n r (.rule q) ks e ↔ Reads t n q p ks e := by
  constructor
  · intro hr
    cases hr with
    | rule h' _ body => rw [h] at h'; cases h'; exact body
    | nested _ hq' _ => simp [hq] at hq'
  · exact .rule h hq

theorem reads_nested_iff {q : Rule} {ks : List Kind} {e : Ending} (h : t.definition? q = some p)
    (hq : q.nests = true) : Reads t (n + 1) r (.rule q) ks e ↔ Reads t n q p ks e := by
  constructor
  · intro hr
    cases hr with
    | rule _ hq' _ => simp [hq] at hq'
    | nested h' _ body => rw [h] at h'; cases h'; exact body
  · exact .nested h hq

theorem dead_nested {q : Rule} {ks : List Kind} (hq : q.nests = true) :
    Dead t 0 r (.rule q) ks := by
  intro e h
  cases h with
  | rule _ hq' _ => simp [hq] at hq'

theorem reads_token (k : Kind) (ks : List Kind) : Reads t n r (.token k) (k :: ks) (.done ks) :=
  .terminal (List.mem_singleton.2 rfl)

theorem reads_seq_singleton {ks : List Kind} {e : Ending} :
    Reads t n r (.seq [p]) ks e ↔ Reads t n r p ks e := by
  constructor
  · intro h
    cases h with
    | seqStuck first => exact first
    | seqCons first later => cases later; exact first
  · intro h
    cases e with
    | done rest => exact .seqCons h .seqNil
    | stuck rest q expected => exact .seqStuck h

theorem reads_seq_congr {ks : List Kind} {e : Ending}
    (h : ∀ e, Reads t n r p ks e ↔ Reads t n r p' ks e) :
    Reads t n r (.seq (p :: ps)) ks e ↔ Reads t n r (.seq (p' :: ps)) ks e := by
  constructor
  · intro hr
    cases hr with
    | seqStuck first => exact .seqStuck ((h _).1 first)
    | seqCons first later => exact .seqCons ((h _).1 first) later
  · intro hr
    cases hr with
    | seqStuck first => exact .seqStuck ((h _).2 first)
    | seqCons first later => exact .seqCons ((h _).2 first) later

/-- A sequence whose first part is read is the rest of it from there. -/
theorem reads_seq_of_done {ks rest : List Kind} {e : Ending}
    (h : Reads t n r p ks (.done rest)) :
    Reads t n r (.seq (p :: ps)) ks e ↔ Reads t n r (.seq ps) rest e := by
  constructor
  · intro hr
    cases hr with
    | seqStuck first => cases h.unique first
    | seqCons first later => cases h.unique first; exact later
  · exact .seqCons h

/-- A sequence inside a sequence makes no difference. -/
theorem reads_seq_append {qs : List Production} : ∀ {ps : List Production} {ks : List Kind}
    {e : Ending}, Reads t n r (.seq (.seq ps :: qs)) ks e ↔ Reads t n r (.seq (ps ++ qs)) ks e
  | [], ks, e => by
    constructor
    · intro h
      cases h with
      | seqStuck first => cases first
      | seqCons first later => cases first; exact later
    · exact .seqCons .seqNil
  | p :: ps, ks, e => by
    constructor
    · intro h
      cases h with
      | seqStuck first =>
        cases first with
        | seqStuck first => exact .seqStuck first
        | seqCons first later => exact .seqCons first (reads_seq_append.1 (.seqStuck later))
      | seqCons first last =>
        cases first with
        | seqCons first later => exact .seqCons first (reads_seq_append.1 (.seqCons later last))
    · intro h
      cases h with
      | seqStuck first => exact .seqStuck (.seqStuck first)
      | seqCons first later =>
        have later := reads_seq_append.2 later
        cases later with
        | seqStuck middle => exact .seqStuck (.seqCons first middle)
        | seqCons middle last => exact .seqCons (.seqCons first middle) last

/-- A repetition that goes on is its body and the repetition again. -/
theorem reads_many_iff {ks : List Kind} {e : Ending} (h : t.goesOn r p ks = true) :
    Reads t n r (.many p) ks e ↔ Reads t n r (.seq [p, .many p]) ks e := by
  constructor
  · intro hr
    cases hr with
    | manyEnd h' => simp [h] at h'
    | manyStuck _ first => exact .seqStuck first
    | manyCons _ first later => exact .seqCons first (reads_seq_singleton.2 later)
  · intro hr
    cases hr with
    | seqStuck first => exact .manyStuck h first
    | seqCons first later => exact .manyCons h first (reads_seq_singleton.1 later)

theorem reads_atLeastOne_iff {ks : List Kind} {e : Ending} :
    Reads t n r (.atLeastOne p) ks e ↔ Reads t n r (.seq [p, .many p]) ks e := by
  constructor
  · intro hr
    cases hr with
    | atLeastOneStuck first => exact .seqStuck first
    | atLeastOne first later => exact .seqCons first (reads_seq_singleton.2 later)
  · intro hr
    cases hr with
    | seqStuck first => exact .atLeastOneStuck first
    | seqCons first later => exact .atLeastOne first (reads_seq_singleton.1 later)

theorem reads_optional_iff {ks : List Kind} {e : Ending} (h : t.opens p ks = true) :
    Reads t n r (.optional p) ks e ↔ Reads t n r p ks e := by
  constructor
  · intro hr
    cases hr with
    | optional _ body => exact body
    | optionalSkip h' => simp [h] at h'
  · exact .optional h

theorem reads_choice_cons_iff {ks : List Kind} {e : Ending} (h : t.opens p ks = true) :
    Reads t n r (.choice (p :: ps)) ks e ↔ Reads t n r p ks e := by
  have hf : (p :: ps).find? (t.opens · ks) = some p := by simp [h]
  constructor
  · intro hr
    cases hr with
    | choice h' taken => rw [hf] at h'; cases h'; exact taken
    | choiceStuck h' => simp [hf] at h'
  · exact .choice hf

theorem find?_opens_eq_none_iff {ks : List Kind} :
    ps.find? (t.opens · ks) = none ↔ t.opens (.choice ps) ks = false := by
  rw [List.find?_eq_none, ← Bool.not_eq_true]
  cases ks with
  | nil => simp [Table.opens]
  | cons k ks =>
    simp only [Table.opens_cons, Table.mem_firstOf, Production.startsWith,
      Production.anyStartsWith_eq, List.any_eq_true, not_exists, not_and]

theorem reads_choice_tail_iff {ks : List Kind} {e : Ending} (h : t.opens p ks = false)
    (hps : t.opens (.choice ps) ks = true) :
    Reads t n r (.choice (p :: ps)) ks e ↔ Reads t n r (.choice ps) ks e := by
  have hf : (p :: ps).find? (t.opens · ks) = ps.find? (t.opens · ks) := by simp [h]
  have hsome : ps.find? (t.opens · ks) ≠ none := by
    rw [Ne, find?_opens_eq_none_iff, hps]
    simp
  constructor
  · intro hr
    cases hr with
    | choice h' taken => exact .choice (hf ▸ h') taken
    | choiceStuck h' => exact absurd (hf ▸ h') hsome
  · intro hr
    cases hr with
    | choice h' taken => exact .choice (hf.trans h') taken
    | choiceStuck h' => exact absurd h' hsome

/-! ## Sequences -/

theorem Passes.seqHead {ks : List Kind} {m : Nat} (h : Passes t n r p ks m) :
    Passes t n r (.seq (p :: ps)) ks m := by
  intro e he
  cases he with
  | seqStuck first => exact h _ first
  | seqCons first later => exact Nat.le_trans later.length_le (h _ first)

theorem Passes.seqTail {ks rest : List Kind} {m : Nat} (hd : Reads t n r p ks (.done rest))
    (h : Passes t n r (.seq ps) rest m) : Passes t n r (.seq (p :: ps)) ks m :=
  fun e he => h e ((reads_seq_of_done hd).1 he)

theorem Done.nil {rest : List Kind} : Done t n r (.seq []) [] rest [] where
  apart _ _ := List.not_mem_nil
  ends _ _ := .seqNil
  passes _ hk := absurd hk List.not_mem_nil

theorem Done.reads {w rest wanted : List Kind} (h : Done t n r p w rest wanted) :
    Reads t n r p (w ++ rest) (.done rest) := h.ends rest h.apart

/-- Where the first part ends when other kinds than `rest` follow: a next kind taken by the
second part is no longer in doubt. -/
theorem Done.ends_append {w v rest m : List Kind} {u : List Kind}
    (h : Done t n r p w (v ++ rest) m) (hu : v = [] → ∀ k ∈ u.head?, k ∉ m) :
    Reads t n r p (w ++ (v ++ u)) (.done (v ++ u)) := by
  refine h.ends _ ?_
  cases v with
  | nil => exact hu rfl
  | cons k v => exact h.apart

theorem Done.cons {w v rest m m' : List Kind} (h : Done t n r p w (v ++ rest) m)
    (h' : Done t n r (.seq ps) v rest m') :
    Done t n r (.seq (p :: ps)) (w ++ v) rest (lookedFor v m m') where
  apart := by
    intro k hk hm
    cases v with
    | nil =>
      rcases List.mem_append.1 hm with hm | hm
      · exact h.apart k hk hm
      · exact h'.apart k hk hm
    | cons => exact h'.apart k hk hm
  ends := by
    intro u hu
    rw [List.append_assoc]
    refine .seqCons (h.ends_append ?_) (h'.ends u ?_)
    · rintro rfl k hk hm
      exact hu k hk (List.mem_append_left _ hm)
    · intro k hk hm
      refine hu k hk ?_
      cases v with
      | nil => exact List.mem_append_right _ hm
      | cons => exact hm
  passes := by
    intro k hk x
    rw [List.append_assoc]
    by_cases hm : v = [] ∧ k ∈ m
    · obtain ⟨rfl, hm⟩ := hm
      exact (h.passes k hm x).seqHead
    · have hk' : k ∈ m' := by
        cases v with
        | nil => exact (List.mem_append.1 hk).resolve_left fun hl => hm ⟨rfl, hl⟩
        | cons => exact hk
      refine Passes.seqTail (h.ends_append ?_) (h'.passes k hk' x)
      rintro rfl j hj hjm
      cases hj
      exact hm ⟨rfl, hjm⟩

theorem Stuck.head {w rest expected : List Kind} {q : Rule}
    (h : Stuck t n r p w rest q expected) : Stuck t n r (.seq (p :: ps)) w rest q expected where
  reads := .seqStuck h.reads
  passes k hk v := (h.passes k hk v).seqHead

theorem Stuck.tail {w v rest m expected : List Kind} {q : Rule}
    (h : Done t n r p w (v ++ rest) m) (h' : Stuck t n r (.seq ps) v rest q expected) :
    Stuck t n r (.seq (p :: ps)) (w ++ v) rest q expected where
  reads := by
    rw [List.append_assoc]
    exact .seqCons h.reads h'.reads
  passes := by
    intro k hk x
    rw [List.append_assoc]
    by_cases hm : v = [] ∧ k ∈ m
    · obtain ⟨rfl, hm⟩ := hm
      exact (h.passes k hm x).seqHead
    · refine Passes.seqTail (h.ends_append ?_) (h'.passes k hk x)
      rintro rfl j hj hjm
      cases hj
      exact hm ⟨rfl, hjm⟩

theorem Dead.head {ks : List Kind} (h : Dead t n r p ks) : Dead t n r (.seq (p :: ps)) ks := by
  intro e he
  cases he with
  | seqStuck first => exact h _ first
  | seqCons first _ => exact h _ first

theorem Dead.tail {ks rest : List Kind} (hd : Reads t n r p ks (.done rest))
    (h : Dead t n r (.seq ps) rest) : Dead t n r (.seq (p :: ps)) ks :=
  fun e he => h e ((reads_seq_of_done hd).1 he)

theorem Moves.seq (h : Moves t n r p) (hp : p.nullable t.isNullable = false) :
    Moves t n r (.seq (p :: ps)) := by
  intro ks e ho he
  rw [Table.opens_congr (Table.mem_firstOf_seq hp) rfl] at ho
  cases he with
  | seqStuck first => exact h _ _ ho first
  | seqCons first later => exact Nat.lt_of_le_of_lt later.length_le (h _ _ ho first)

/-! ## Parts that may be absent -/

theorem Done.skip {rest wanted : List Kind} (hm : Moves t n r p)
    (hw : ∀ k, k ∈ wanted ↔ k ∈ t.firstOf p) (h : t.opens p rest = false) :
    Done t n r (.optional p) [] rest wanted where
  apart k hk := fun hm => Table.opens_eq_false.1 h k hk ((hw k).1 hm)
  ends u hu := .optionalSkip (Table.opens_eq_false.2 fun k hk hf => hu k hk ((hw k).2 hf))
  passes := by
    intro k hk v e he
    have ho : t.opens p (k :: v) = true := Table.opens_cons.2 ((hw k).1 hk)
    exact Nat.le_of_lt_succ (hm _ _ ho ((reads_optional_iff ho).1 he))

theorem stuck_choice {rest : List Kind} (hm : Moves t n r (.choice ps))
    (h : t.opens (.choice ps) rest = false) :
    Stuck t n r (.choice ps) [] rest r (t.firstOf (.choice ps)) where
  reads := .choiceStuck (find?_opens_eq_none_iff.2 h)
  passes k hk v e he := Nat.le_of_lt_succ (hm (k :: v) e (Table.opens_cons.2 hk) he)

theorem Done.manyEnd {rest wanted : List Kind} (hr : r ≠ .stack) (hm : Moves t n r p)
    (hw : ∀ k, k ∈ wanted ↔ k ∈ t.firstOf p) (h : t.opens p rest = false) :
    Done t n r (.many p) [] rest wanted where
  apart k hk := fun hm => Table.opens_eq_false.1 h k hk ((hw k).1 hm)
  ends u hu := .manyEnd <| (Table.goesOn_of_ne hr).trans <|
    Table.opens_eq_false.2 fun k hk hf => hu k hk ((hw k).2 hf)
  passes := by
    intro k hk v
    have ho : t.opens p (k :: v) = true := Table.opens_cons.2 ((hw k).1 hk)
    have hp : Passes t n r p (k :: v) v.length := fun e he => Nat.le_of_lt_succ (hm _ _ ho he)
    intro e he
    exact hp.seqHead e ((reads_many_iff ((Table.goesOn_of_ne hr).trans ho)).1 he)

end BlockNotation
