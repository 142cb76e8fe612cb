import BlockNotation.Proofs.Grammar.Prolonging

/-!
# Levels of nesting

A reading without a limit opens activations of nesting rules, one inside another or one after the
other. `Unfolds` lists them in the order they are opened, each with its level, which is the number
of activations open once it is.

A limit takes nothing but the readings that open too many levels (`Reads.unfolds`,
`Unfolds.reads`). `Exceeds` is the way of a limited reading to the point where it would open one
more; what would be opened there is the first in the list beyond the limit (`Exceeds.find?_eq`).
-/

namespace BlockNotation

variable {t : Table} {n n' d : Nat} {r r' q : Rule} {p p' : Production} {ps : List Production}
  {ks rest : List Kind} {e e' : Ending}

/-! ## Beyond the limit -/

/-- With `n` levels allowed, reading `p` comes to an activation of `q` in front of `rest` while all
of the levels are open. -/
inductive Exceeds (t : Table) : Nat → Rule → Production → List Kind → Rule → List Kind → Prop where
  | here {r q : Rule} {ks : List Kind} (hq : q.nests = true) : Exceeds t 0 r (.rule q) ks q ks
  | rule {n : Nat} {r q q' : Rule} {p : Production} {ks rest : List Kind}
      (h : t.definition? q' = some p) (hq : q'.nests = false) (body : Exceeds t n q' p ks q rest) :
      Exceeds t n r (.rule q') ks q rest
  | nested {n : Nat} {r q q' : Rule} {p : Production} {ks rest : List Kind}
      (h : t.definition? q' = some p) (hq : q'.nests = true) (body : Exceeds t n q' p ks q rest) :
      Exceeds t (n + 1) r (.rule q') ks q rest
  | seqHead {n : Nat} {r q : Rule} {p : Production} {ps : List Production} {ks rest : List Kind}
      (first : Exceeds t n r p ks q rest) : Exceeds t n r (.seq (p :: ps)) ks q rest
  | seqTail {n : Nat} {r q : Rule} {p : Production} {ps : List Production}
      {ks middle rest : List Kind} (first : Reads t n r p ks (.done middle))
      (later : Exceeds t n r (.seq ps) middle q rest) : Exceeds t n r (.seq (p :: ps)) ks q rest
  | choice {n : Nat} {r q : Rule} {p : Production} {ps : List Production} {ks rest : List Kind}
      (h : ps.find? (t.opens · ks) = some p) (taken : Exceeds t n r p ks q rest) :
      Exceeds t n r (.choice ps) ks q rest
  | optional {n : Nat} {r q : Rule} {p : Production} {ks rest : List Kind}
      (h : t.opens p ks = true) (body : Exceeds t n r p ks q rest) :
      Exceeds t n r (.optional p) ks q rest
  | manyHead {n : Nat} {r q : Rule} {p : Production} {ks rest : List Kind}
      (h : t.goesOn r p ks = true) (first : Exceeds t n r p ks q rest) :
      Exceeds t n r (.many p) ks q rest
  | manyTail {n : Nat} {r q : Rule} {p : Production} {ks middle rest : List Kind}
      (h : t.goesOn r p ks = true) (first : Reads t n r p ks (.done middle))
      (later : Exceeds t n r (.many p) middle q rest) : Exceeds t n r (.many p) ks q rest
  | atLeastOneHead {n : Nat} {r q : Rule} {p : Production} {ks rest : List Kind}
      (first : Exceeds t n r p ks q rest) : Exceeds t n r (.atLeastOne p) ks q rest
  | atLeastOneTail {n : Nat} {r q : Rule} {p : Production} {ks middle rest : List Kind}
      (first : Reads t n r p ks (.done middle)) (later : Exceeds t n r (.many p) middle q rest) :
      Exceeds t n r (.atLeastOne p) ks q rest

/-- Where one level too many would be opened, no reading keeps within the levels allowed. -/
theorem Exceeds.dead (h : Exceeds t n r p ks q rest) : Dead t n r p ks := by
  induction h with
  | here hq => exact dead_nested hq
  | rule h hq _ ih => exact fun e he => ih e ((reads_rule_iff h hq).1 he)
  | nested h hq _ ih => exact fun e he => ih e ((reads_nested_iff h hq).1 he)
  | seqHead _ ih => exact ih.head
  | seqTail first _ ih => exact ih.tail first
  | choice h _ ih =>
    intro e he
    cases he with
    | choice h' taken => exact ih e (by rw [h] at h'; cases h'; exact taken)
    | choiceStuck h' => simp [h] at h'
  | optional h _ ih => exact fun e he => ih e ((reads_optional_iff h).1 he)
  | manyHead h _ ih => exact fun e he => ih.head e ((reads_many_iff h).1 he)
  | manyTail h first _ ih =>
    intro e he
    rw [reads_many_iff h, reads_seq_of_done first, reads_seq_singleton] at he
    exact ih e he
  | atLeastOneHead _ ih => exact fun e he => ih.head e (reads_atLeastOne_iff.1 he)
  | atLeastOneTail first _ ih =>
    intro e he
    rw [reads_atLeastOne_iff, reads_seq_of_done first, reads_seq_singleton] at he
    exact ih e he

/-! ## Productions that are read alike -/

/-- On `ks` two productions have the same readings, and where the first would open too many levels,
so would the second. -/
structure Alike (t : Table) (n : Nat) (r : Rule) (p : Production) (n' : Nat) (r' : Rule)
    (p' : Production) (ks : List Kind) : Prop where
  reads : ∀ e, Reads t n r p ks e ↔ Reads t n' r' p' ks e
  exceeds : ∀ q rest, Exceeds t n r p ks q rest → Exceeds t n' r' p' ks q rest

namespace Alike

theorem refl : Alike t n r p n r p ks := ⟨fun _ => .rfl, fun _ _ h => h⟩

theorem trans {n'' : Nat} {r'' : Rule} {p'' : Production} (h : Alike t n r p n' r' p' ks)
    (h' : Alike t n' r' p' n'' r'' p'' ks) : Alike t n r p n'' r'' p'' ks :=
  ⟨fun e => (h.reads e).trans (h'.reads e), fun _ _ hx => h'.exceeds _ _ (h.exceeds _ _ hx)⟩

theorem rule (h : t.definition? q = some p) (hq : q.nests = false) :
    Alike t n q p n r (.rule q) ks :=
  ⟨fun _ => (reads_rule_iff h hq).symm, fun _ _ => .rule h hq⟩

theorem nested (h : t.definition? q = some p) (hq : q.nests = true) :
    Alike t n q p (n + 1) r (.rule q) ks :=
  ⟨fun _ => (reads_nested_iff h hq).symm, fun _ _ => .nested h hq⟩

theorem seqSingleton : Alike t n r (.seq [p]) n r p ks := by
  refine ⟨fun _ => reads_seq_singleton, fun q rest h => ?_⟩
  cases h with
  | seqHead first => exact first
  | seqTail _ later => cases later

theorem singleton : Alike t n r p n r (.seq [p]) ks :=
  ⟨fun _ => reads_seq_singleton.symm, fun _ _ => .seqHead⟩

theorem seqCongr (h : Alike t n r p n r p' ks) :
    Alike t n r (.seq (p :: ps)) n r (.seq (p' :: ps)) ks := by
  refine ⟨fun _ => reads_seq_congr h.reads, fun q rest hx => ?_⟩
  cases hx with
  | seqHead first => exact .seqHead (h.exceeds _ _ first)
  | seqTail first later => exact .seqTail ((h.reads _).1 first) later

theorem seqAppend (qs : List Production) : ∀ (ps : List Production) {ks : List Kind},
    Alike t n r (.seq (ps ++ qs)) n r (.seq (.seq ps :: qs)) ks
  | [], ks => ⟨fun _ => reads_seq_append.symm, fun _ _ => .seqTail .seqNil⟩
  | p :: ps, ks => by
    refine ⟨fun _ => reads_seq_append.symm, fun q rest h => ?_⟩
    cases h with
    | seqHead first => exact .seqHead (.seqHead first)
    | seqTail first later =>
      cases (seqAppend qs ps).exceeds _ _ later with
      | seqHead middle => exact .seqHead (.seqTail first middle)
      | seqTail middle last => exact .seqTail (.seqCons first middle) last

theorem many (h : t.goesOn r p ks = true) :
    Alike t n r (.seq [p, .many p]) n r (.many p) ks := by
  refine ⟨fun _ => (reads_many_iff h).symm, fun q rest hx => ?_⟩
  cases hx with
  | seqHead first => exact .manyHead h first
  | seqTail first later => exact .manyTail h first (seqSingleton.exceeds _ _ later)

theorem atLeastOne : Alike t n r (.seq [p, .many p]) n r (.atLeastOne p) ks := by
  refine ⟨fun _ => reads_atLeastOne_iff.symm, fun q rest hx => ?_⟩
  cases hx with
  | seqHead first => exact .atLeastOneHead first
  | seqTail first later => exact .atLeastOneTail first (seqSingleton.exceeds _ _ later)

theorem optional (h : t.opens p ks = true) : Alike t n r p n r (.optional p) ks :=
  ⟨fun _ => (reads_optional_iff h).symm, fun _ _ => .optional h⟩

theorem choiceHead (h : t.opens p ks = true) : Alike t n r p n r (.choice (p :: ps)) ks :=
  ⟨fun _ => (reads_choice_cons_iff h).symm, fun _ _ => .choice (by simp [h])⟩

theorem choiceTail (h : t.opens p ks = false) (hps : t.opens (.choice ps) ks = true) :
    Alike t n r (.choice ps) n r (.choice (p :: ps)) ks := by
  refine ⟨fun _ => (reads_choice_tail_iff h hps).symm, fun q rest hx => ?_⟩
  cases hx with
  | choice h' taken => exact .choice (by simpa [h] using h') taken

end Alike

/-! ## Without a limit -/

/-- An activation of a nesting rule: the number of activations open once it is, itself included,
and what it is opened in front of. -/
structure Opening where
  rule : Rule
  level : Nat
  rest : List Kind
deriving DecidableEq

/-- The reading of a production inside rule `r`, with no limit on what it opens. The activations it
opens are listed in order; `d` of them are open around the production. -/
inductive Unfolds (t : Table) :
    Nat → Rule → Production → List Kind → List Opening → Ending → Prop where
  | terminal {d : Nat} {r : Rule} {τ : Terminal} {k : Kind} {ks : List Kind} (h : k ∈ τ.kinds) :
      Unfolds t d r (.terminal τ) (k :: ks) [] (.done ks)
  | terminalStuck {d : Nat} {r : Rule} {τ : Terminal} {ks : List Kind}
      (h : ∀ k ∈ ks.head?, k ∉ τ.kinds) : Unfolds t d r (.terminal τ) ks [] (.stuck ks r τ.kinds)
  | rule {d : Nat} {r q : Rule} {p : Production} {ks : List Kind} {os : List Opening} {e : Ending}
      (h : t.definition? q = some p) (hq : q.nests = false) (body : Unfolds t d q p ks os e) :
      Unfolds t d r (.rule q) ks os e
  | nested {d : Nat} {r q : Rule} {p : Production} {ks : List Kind} {os : List Opening} {e : Ending}
      (h : t.definition? q = some p) (hq : q.nests = true) (body : Unfolds t (d + 1) q p ks os e) :
      Unfolds t d r (.rule q) ks (⟨q, d + 1, ks⟩ :: os) e
  | seqNil {d : Nat} {r : Rule} {ks : List Kind} : Unfolds t d r (.seq []) ks [] (.done ks)
  | seqStuck {d : Nat} {r q : Rule} {p : Production} {ps : List Production}
      {ks rest expected : List Kind} {os : List Opening}
      (first : Unfolds t d r p ks os (.stuck rest q expected)) :
      Unfolds t d r (.seq (p :: ps)) ks os (.stuck rest q expected)
  | seqCons {d : Nat} {r : Rule} {p : Production} {ps : List Production} {ks rest : List Kind}
      {os os' : List Opening} {e : Ending} (first : Unfolds t d r p ks os (.done rest))
      (later : Unfolds t d r (.seq ps) rest os' e) :
      Unfolds t d r (.seq (p :: ps)) ks (os ++ os') e
  | choice {d : Nat} {r : Rule} {p : Production} {ps : List Production} {ks : List Kind}
      {os : List Opening} {e : Ending} (h : ps.find? (t.opens · ks) = some p)
      (taken : Unfolds t d r p ks os e) : Unfolds t d r (.choice ps) ks os e
  | choiceStuck {d : Nat} {r : Rule} {ps : List Production} {ks : List Kind}
      (h : ps.find? (t.opens · ks) = none) :
      Unfolds t d r (.choice ps) ks [] (.stuck ks r (t.firstOf (.choice ps)))
  | optional {d : Nat} {r : Rule} {p : Production} {ks : List Kind} {os : List Opening} {e : Ending}
      (h : t.opens p ks = true) (body : Unfolds t d r p ks os e) :
      Unfolds t d r (.optional p) ks os e
  | optionalSkip {d : Nat} {r : Rule} {p : Production} {ks : List Kind}
      (h : t.opens p ks = false) : Unfolds t d r (.optional p) ks [] (.done ks)
  | manyEnd {d : Nat} {r : Rule} {p : Production} {ks : List Kind}
      (h : t.goesOn r p ks = false) : Unfolds t d r (.many p) ks [] (.done ks)
  | manyStuck {d : Nat} {r q : Rule} {p : Production} {ks rest expected : List Kind}
      {os : List Opening} (h : t.goesOn r p ks = true)
      (first : Unfolds t d r p ks os (.stuck rest q expected)) :
      Unfolds t d r (.many p) ks os (.stuck rest q expected)
  | manyCons {d : Nat} {r : Rule} {p : Production} {ks rest : List Kind} {os os' : List Opening}
      {e : Ending} (h : t.goesOn r p ks = true) (first : Unfolds t d r p ks os (.done rest))
      (later : Unfolds t d r (.many p) rest os' e) : Unfolds t d r (.many p) ks (os ++ os') e
  | atLeastOneStuck {d : Nat} {r q : Rule} {p : Production} {ks rest expected : List Kind}
      {os : List Opening} (first : Unfolds t d r p ks os (.stuck rest q expected)) :
      Unfolds t d r (.atLeastOne p) ks os (.stuck rest q expected)
  | atLeastOne {d : Nat} {r : Rule} {p : Production} {ks rest : List Kind} {os os' : List Opening}
      {e : Ending} (first : Unfolds t d r p ks os (.done rest))
      (later : Unfolds t d r (.many p) rest os' e) : Unfolds t d r (.atLeastOne p) ks (os ++ os') e

/-- A reading within `n` levels opens no activation beyond them. -/
theorem Reads.unfolds (h : Reads t n r p ks e) (d : Nat) :
    ∃ os, Unfolds t d r p ks os e ∧ ∀ o ∈ os, o.level ≤ d + n := by
  induction h generalizing d with
  | terminal h => exact ⟨[], .terminal h, by simp⟩
  | terminalStuck h => exact ⟨[], .terminalStuck h, by simp⟩
  | rule h hq _ ih =>
    obtain ⟨os, hos, hle⟩ := ih d
    exact ⟨os, .rule h hq hos, hle⟩
  | @nested n r q p ks e h hq _ ih =>
    obtain ⟨os, hos, hle⟩ := ih (d + 1)
    refine ⟨_, .nested h hq hos, List.forall_mem_cons.2 ⟨by simp, fun o ho => ?_⟩⟩
    have := hle o ho
    omega
  | seqNil => exact ⟨[], .seqNil, by simp⟩
  | seqStuck _ ih =>
    obtain ⟨os, hos, hle⟩ := ih d
    exact ⟨os, .seqStuck hos, hle⟩
  | seqCons _ _ ihf ihl =>
    obtain ⟨os, hos, hle⟩ := ihf d
    obtain ⟨os', hos', hle'⟩ := ihl d
    exact ⟨os ++ os', .seqCons hos hos', List.forall_mem_append.2 ⟨hle, hle'⟩⟩
  | choice h _ ih =>
    obtain ⟨os, hos, hle⟩ := ih d
    exact ⟨os, .choice h hos, hle⟩
  | choiceStuck h => exact ⟨[], .choiceStuck h, by simp⟩
  | optional h _ ih =>
    obtain ⟨os, hos, hle⟩ := ih d
    exact ⟨os, .optional h hos, hle⟩
  | optionalSkip h => exact ⟨[], .optionalSkip h, by simp⟩
  | manyEnd h => exact ⟨[], .manyEnd h, by simp⟩
  | manyStuck h _ ih =>
    obtain ⟨os, hos, hle⟩ := ih d
    exact ⟨os, .manyStuck h hos, hle⟩
  | manyCons h _ _ ihf ihl =>
    obtain ⟨os, hos, hle⟩ := ihf d
    obtain ⟨os', hos', hle'⟩ := ihl d
    exact ⟨os ++ os', .manyCons h hos hos', List.forall_mem_append.2 ⟨hle, hle'⟩⟩
  | atLeastOneStuck _ ih =>
    obtain ⟨os, hos, hle⟩ := ih d
    exact ⟨os, .atLeastOneStuck hos, hle⟩
  | atLeastOne _ _ ihf ihl =>
    obtain ⟨os, hos, hle⟩ := ihf d
    obtain ⟨os', hos', hle'⟩ := ihl d
    exact ⟨os ++ os', .atLeastOne hos hos', List.forall_mem_append.2 ⟨hle, hle'⟩⟩

namespace Unfolds

variable {os os' : List Opening}

/-- A reading that opens no activation beyond `n` levels is one within them. -/
theorem reads (h : Unfolds t d r p ks os e) (hle : ∀ o ∈ os, o.level ≤ d + n) :
    Reads t n r p ks e := by
  induction h generalizing n with
  | terminal h => exact .terminal h
  | terminalStuck h => exact .terminalStuck h
  | rule h hq _ ih => exact .rule h hq (ih hle)
  | @nested d r q p ks os e h hq _ ih =>
    obtain ⟨hd, hle⟩ := List.forall_mem_cons.1 hle
    obtain ⟨m, rfl⟩ : ∃ m, n = m + 1 := ⟨n - 1, by simp only at hd; omega⟩
    refine .nested h hq (ih fun o ho => ?_)
    have := hle o ho
    omega
  | seqNil => exact .seqNil
  | seqStuck _ ih => exact .seqStuck (ih hle)
  | seqCons _ _ ihf ihl =>
    obtain ⟨hf, hl⟩ := List.forall_mem_append.1 hle
    exact .seqCons (ihf hf) (ihl hl)
  | choice h _ ih => exact .choice h (ih hle)
  | choiceStuck h => exact .choiceStuck h
  | optional h _ ih => exact .optional h (ih hle)
  | optionalSkip h => exact .optionalSkip h
  | manyEnd h => exact .manyEnd h
  | manyStuck h _ ih => exact .manyStuck h (ih hle)
  | manyCons h _ _ ihf ihl =>
    obtain ⟨hf, hl⟩ := List.forall_mem_append.1 hle
    exact .manyCons h (ihf hf) (ihl hl)
  | atLeastOneStuck _ ih => exact .atLeastOneStuck (ih hle)
  | atLeastOne _ _ ihf ihl =>
    obtain ⟨hf, hl⟩ := List.forall_mem_append.1 hle
    exact .atLeastOne (ihf hf) (ihl hl)

/-- Some limit is never reached. -/
theorem exists_reads (h : Unfolds t d r p ks os e) : ∃ n, Reads t n r p ks e := by
  obtain ⟨n, hn⟩ : ∃ n, ∀ o ∈ os, o.level ≤ n := by
    clear h
    induction os with
    | nil => exact ⟨0, by simp⟩
    | cons o os ih =>
      obtain ⟨n, hn⟩ := ih
      refine ⟨max o.level n, List.forall_mem_cons.2 ⟨Nat.le_max_left _ _, fun o' ho' => ?_⟩⟩
      exact Nat.le_trans (hn o' ho') (Nat.le_max_right _ _)
  exact ⟨n, h.reads fun o ho => Nat.le_trans (hn o ho) (Nat.le_add_left n d)⟩

theorem ending_unique (h : Unfolds t d r p ks os e) (h' : Unfolds t d r p ks os' e') : e = e' := by
  obtain ⟨n, hn⟩ := h.exists_reads
  obtain ⟨m, hm⟩ := h'.exists_reads
  exact hn.unique hm

/-- A list has one reading at most, and it opens one list of activations. -/
theorem openings_unique (h : Unfolds t d r p ks os e) (h' : Unfolds t d r p ks os' e') :
    os = os' := by
  induction h generalizing os' e' with
  | terminal | terminalStuck | seqNil => cases h' <;> rfl
  | rule h hq _ ih =>
    cases h' with
    | rule h₂ _ body => exact ih (by rw [h] at h₂; cases h₂; exact body)
    | nested _ hq₂ _ => simp [hq] at hq₂
  | nested h hq _ ih =>
    cases h' with
    | rule _ hq₂ _ => simp [hq] at hq₂
    | nested h₂ _ body => rw [ih (by rw [h] at h₂; cases h₂; exact body)]
  | seqStuck hfirst ih =>
    cases h' with
    | seqStuck first => exact ih first
    | seqCons first _ => cases hfirst.ending_unique first
  | seqCons hfirst _ ihf ihl =>
    cases h' with
    | seqStuck first => cases hfirst.ending_unique first
    | seqCons first later =>
      cases hfirst.ending_unique first
      rw [ihf first, ihl later]
  | choice h _ ih =>
    cases h' with
    | choice h₂ taken => exact ih (by rw [h] at h₂; cases h₂; exact taken)
    | choiceStuck h₂ => simp [h] at h₂
  | choiceStuck h =>
    cases h' with
    | choice h₂ _ => simp [h] at h₂
    | choiceStuck => rfl
  | optional h _ ih =>
    cases h' with
    | optional _ body => exact ih body
    | optionalSkip h₂ => simp [h] at h₂
  | optionalSkip h =>
    cases h' with
    | optional h₂ _ => simp [h] at h₂
    | optionalSkip => rfl
  | manyEnd h =>
    cases h' with
    | manyEnd => rfl
    | manyStuck h₂ _ | manyCons h₂ _ _ => simp [h] at h₂
  | manyStuck h hfirst ih =>
    cases h' with
    | manyEnd h₂ => simp [h] at h₂
    | manyStuck _ first => exact ih first
    | manyCons _ first _ => cases hfirst.ending_unique first
  | manyCons h hfirst _ ihf ihl =>
    cases h' with
    | manyEnd h₂ => simp [h] at h₂
    | manyStuck _ first => cases hfirst.ending_unique first
    | manyCons _ first later =>
      cases hfirst.ending_unique first
      rw [ihf first, ihl later]
  | atLeastOneStuck hfirst ih =>
    cases h' with
    | atLeastOneStuck first => exact ih first
    | atLeastOne first _ => cases hfirst.ending_unique first
  | atLeastOne hfirst _ ihf ihl =>
    cases h' with
    | atLeastOneStuck first => cases hfirst.ending_unique first
    | atLeastOne first later =>
      cases hfirst.ending_unique first
      rw [ihf first, ihl later]

/-- What a limited reading has opened is within the limit. -/
theorem level_le (h : Unfolds t d r p ks os e) (h' : Reads t n r p ks e') :
    e = e' ∧ ∀ o ∈ os, o.level ≤ d + n := by
  obtain ⟨os', hos', hle⟩ := h'.unfolds d
  rw [h.openings_unique hos']
  exact ⟨h.ending_unique hos', hle⟩

end Unfolds

/-- Parts that were read within the limit do not hold the first activation beyond it. -/
theorem find?_append_of_le {os os' : List Opening} (h : ∀ o ∈ os, o.level ≤ n) :
    (os ++ os').find? (n < ·.level) = os'.find? (n < ·.level) := by
  have hnone : os.find? (n < ·.level) = none := by
    rw [List.find?_eq_none]
    intro o ho
    have := h o ho
    simpa using this
  rw [List.find?_append, hnone, Option.none_or]

/-- The activation at which a limited reading is given up is the first one beyond the limit. -/
theorem Exceeds.find?_eq {os : List Opening} (h : Exceeds t n r p ks q rest)
    (hu : Unfolds t d r p ks os e) :
    os.find? (d + n < ·.level) = some ⟨q, d + n + 1, rest⟩ := by
  induction h generalizing d os e with
  | here hq =>
    cases hu with
    | rule _ hq' _ => simp [hq] at hq'
    | nested => simp
  | rule h hq _ ih =>
    cases hu with
    | rule h' _ body => exact ih (by rw [h] at h'; cases h'; exact body)
    | nested _ hq' _ => simp [hq] at hq'
  | @nested n r q q' p ks rest h hq _ ih =>
    cases hu with
    | rule _ hq' _ => simp [hq] at hq'
    | nested h' _ body =>
      have hfind := ih (by rw [h] at h'; cases h'; exact body)
      rw [show d + 1 + n = d + (n + 1) by omega] at hfind
      rw [List.find?_cons_of_neg (by simp), hfind]
  | seqHead hfirst ih =>
    cases hu with
    | seqStuck first => exact ih first
    | seqCons first _ => rw [List.find?_append, ih first, Option.some_or]
  | seqTail hfirst _ ih =>
    cases hu with
    | seqStuck first => cases (first.level_le hfirst).1
    | seqCons first later =>
      obtain ⟨heq, hle⟩ := first.level_le hfirst
      cases heq
      rw [find?_append_of_le hle, ih later]
  | choice h _ ih =>
    cases hu with
    | choice h' taken => exact ih (by rw [h] at h'; cases h'; exact taken)
    | choiceStuck h' => simp [h] at h'
  | optional h _ ih =>
    cases hu with
    | optional _ body => exact ih body
    | optionalSkip h' => simp [h] at h'
  | manyHead h _ ih =>
    cases hu with
    | manyEnd h' => simp [h] at h'
    | manyStuck _ first => exact ih first
    | manyCons _ first _ => rw [List.find?_append, ih first, Option.some_or]
  | manyTail h hfirst _ ih =>
    cases hu with
    | manyEnd h' => simp [h] at h'
    | manyStuck _ first => cases (first.level_le hfirst).1
    | manyCons _ first later =>
      obtain ⟨heq, hle⟩ := first.level_le hfirst
      cases heq
      rw [find?_append_of_le hle, ih later]
  | atLeastOneHead _ ih =>
    cases hu with
    | atLeastOneStuck first => exact ih first
    | atLeastOne first _ => rw [List.find?_append, ih first, Option.some_or]
  | atLeastOneTail hfirst _ ih =>
    cases hu with
    | atLeastOneStuck first => cases (first.level_le hfirst).1
    | atLeastOne first later =>
      obtain ⟨heq, hle⟩ := first.level_le hfirst
      cases heq
      rw [find?_append_of_le hle, ih later]

end BlockNotation
