import BlockNotation.Proofs.Script.Faithful
import BlockNotation.Proofs.Script.Accord
import Mathlib.Data.List.TakeWhile

/-!
# Scripts that are read alike

Between two stacks, and after the last one, a script skips all delimiters and remarks there are.
How many delimiters end a token list does therefore not matter: of two lists abreast both are
scripts or none, and the stacks of the one correspond to those of the other
(`parseTokensWithin_abreast`).
-/

namespace BlockNotation

/-- What is left of some tokens after the leading ones of some kinds. -/
def past (q : Kind → Bool) (ts : List Token) : List Token := ts.dropWhile fun t => q t.kind

section Past

variable {q r : Kind → Bool} {ts us : List Token} {f : Token → Token}

theorem past_cons (q : Kind → Bool) (t : Token) (ts : List Token) :
    past q (t :: ts) = if q t.kind then past q ts else t :: ts := List.dropWhile_cons

theorem length_past_le : (past q ts).length ≤ ts.length := List.length_dropWhile_le _ ts

theorem length_past_lt {k : Kind} (h : (kindsOf ts).head? = some k) (hk : q k = true) :
    (past q ts).length < ts.length := by
  cases ts with
  | nil => cases h
  | cons t ts =>
    obtain rfl : t.kind = k := Option.some.inj h
    rw [past_cons, if_pos hk, List.length_cons]
    exact Nat.lt_succ_of_le length_past_le

theorem past_eq_self : past q ts = ts ↔ ∀ k ∈ (kindsOf ts).head?, q k = false := by
  rw [past, List.dropWhile_eq_self_iff]
  cases ts <;> simp

theorem past_past (h : ∀ k, q k = true → r k = true) : past r (past q ts) = past r ts := by
  induction ts with
  | nil => rfl
  | cons t ts ih =>
    rw [past_cons q]
    split
    · rename_i hq
      rw [ih, past_cons r, if_pos (h _ hq)]
    · rfl

theorem Spent.past_eq_nil (h : Spent ts) (hq : q .delimiter = true) : past q ts = [] :=
  List.dropWhile_eq_nil_iff.2 fun t ht => (h t ht).symm ▸ hq

/-- Delimiters that were skipped do not come next. -/
theorem past_eq_nil_of_spent (hq : q .delimiter = true) (h : Spent (past q ts)) :
    past q ts = [] := by
  rw [← h.past_eq_nil hq, past_past fun _ hk => hk]

theorem Abreast.past (h : Abreast f ts us) (hq : q .delimiter = true) :
    Abreast f (past q ts) (past q us) := by
  induction h with
  | spent left right =>
    rw [left.past_eq_nil hq, right.past_eq_nil hq]
    exact .spent .nil .nil
  | cons twins later ih =>
    rw [past_cons, past_cons, twins.kind]
    split
    · exact ih
    · exact .cons twins later

end Past

namespace Parser

/-! ## Skipping -/

/-- Each round of `p` succeeds and takes some of the leading tokens of the kinds `q`, the last one
what is left of them. -/
def Clears {α : Type} (q : Kind → Bool) (p : Parser (Option α)) : Prop := ∀ s : Cursor,
  (∃ s', p s = .ok (none, s') ∧ s'.rest = past q s.rest) ∨
    ∃ a s', p s = .ok (some a, s') ∧ s'.rest.length < s.rest.length ∧
      past q s'.rest = past q s.rest

variable {α : Type} {q : Kind → Bool} {p : Parser (Option α)} {f : Token → Token} {n : Nat}

/-- A repetition of skipping takes all tokens of some kinds. -/
theorem Clears.many (h : Clears q p) (s : Cursor) : ∃ as s', Parser.many p s = .ok (as, s') ∧
    s'.rest = past q s.rest ∧ (as ≠ [] → s'.rest.length < s.rest.length) := by
  have hlt : ∀ s a s', p s = .ok (some a, s') → s'.rest.length < s.rest.length := by
    intro s a s' hs
    obtain ⟨s₁, hrun, -⟩ | ⟨b, s₁, hrun, hlt, -⟩ := h s <;> rw [hs] at hrun <;> cases hrun
    exact hlt
  induction hlen : s.rest.length using Nat.strongRecOn generalizing s with
  | ind len ih =>
    subst hlen
    rw [many_eq_bind hlt]
    obtain ⟨s₁, hrun, hrest⟩ | ⟨a, s₁, hrun, hless, hrest⟩ := h s
    · exact ⟨[], s₁, bind_run_ok hrun, hrest, fun hne => absurd rfl hne⟩
    · obtain ⟨as, s₂, hmany, hpast, -⟩ := ih _ hless s₁ rfl
      refine ⟨a :: as, s₂, ?_, hpast.trans hrest, fun _ => ?_⟩
      · rw [bind_run_ok hrun]
        exact bind_run_ok hmany
      · rw [hpast]
        exact length_past_le.trans_lt hless

theorem Clears.accords (h : Clears q p) (hq : q .delimiter = true) :
    Accords f (fun _ _ => True) (Parser.many p) (Parser.many p) := by
  intro s s' hs as t has
  obtain ⟨as₁, t₁, hrun, ht, -⟩ := h.many s
  obtain ⟨bs, t', hrun', ht', -⟩ := h.many s'
  rw [has] at hrun
  cases hrun
  refine ⟨bs, t', hrun', trivial, ?_⟩
  rw [ht, ht']
  exact hs.past hq

/-- The kinds of what may stand between two stacks. -/
def separates (k : Kind) : Bool := k = .delimiter || k = .remark

theorem clears_delimiter : Clears (· = .delimiter) (take? .delimiter) := by
  intro s
  obtain ⟨o, s', ho⟩ := takeAny_run [.delimiter] s
  obtain ⟨rfl, hrest, hhead⟩ | ⟨t, rfl, ht, hrest⟩ := takeAny_cases ho
  · refine .inl ⟨s', ho, ?_⟩
    rw [hrest, past_eq_self.2]
    exact fun k hk => decide_eq_false (fun hd => hhead k hk (by simp [hd]))
  · refine .inr ⟨t, s', ho, ?_, ?_⟩
    · rw [hrest, List.length_cons]
      exact Nat.lt_succ_self _
    · rw [hrest, past_cons, if_pos (by simpa using ht)]

theorem clears_nextRemark? : Clears separates nextRemark? := by
  intro s
  obtain ⟨ds, s₁, hds, hs₁, -⟩ := clears_delimiter.many s
  obtain ⟨o, s', ho⟩ := takeAny_run [.remark] s₁
  have hrun : nextRemark? s = .ok (o, s') := (bind_run_ok hds).trans ho
  have hpast : past separates s₁.rest = past separates s.rest := by
    rw [hs₁, past_past fun k hk => by simp_all [separates]]
  have hclear : past (· = Kind.delimiter) s₁.rest = s₁.rest := by
    rw [hs₁, past_past fun _ hk => hk]
  obtain ⟨rfl, hrest, hhead⟩ | ⟨t, rfl, ht, hrest⟩ := takeAny_cases ho
  · refine .inl ⟨s', hrun, ?_⟩
    rw [hrest, ← hpast, past_eq_self.2]
    intro k hk
    have hdelimiter := past_eq_self.1 hclear k hk
    have hremark := hhead k hk
    simp_all [separates]
  · refine .inr ⟨t, s', hrun, ?_, ?_⟩
    · have hle : s₁.rest.length ≤ s.rest.length := hs₁ ▸ length_past_le
      rw [hrest, List.length_cons] at hle
      exact hle
    · rw [← hpast, hrest, past_cons, if_pos (by simp_all [separates])]

/-- A run of remarks is read where a remark comes next, and takes all that separates stacks. -/
theorem comments?_run (s : Cursor) :
    (∃ s', comments? s = .ok (none, s') ∧ s'.rest = s.rest ∧
      (kindsOf s.rest).head? ≠ some .remark) ∨
    ∃ c s', comments? s = .ok (some c, s') ∧ s'.rest = past separates s.rest ∧
      (kindsOf s.rest).head? = some .remark := by
  obtain ⟨o, s₁, ho⟩ := takeAny_run [.remark] s
  obtain ⟨rfl, hrest, hhead⟩ | ⟨t, rfl, ht, hrest⟩ := takeAny_cases ho
  · refine .inl ⟨s₁, bind_run_ok ho, hrest, fun hd => ?_⟩
    exact hhead _ hd (List.mem_singleton_self _)
  · obtain ⟨later, s', hlater, hs', -⟩ := clears_nextRemark?.many s₁
    obtain ht : t.kind = .remark := List.mem_singleton.1 ht
    refine .inr ⟨_, s', (bind_run_ok ho).trans (bind_run_ok hlater), ?_, ?_⟩
    · rw [hs', hrest, past_cons, if_pos (by simp [separates, ht])]
    · rw [hrest, kindsOf_cons, ht, List.head?_cons]

theorem clears_separator? : Clears separates separator? := by
  intro s
  obtain ⟨o, s₁, ho⟩ := takeAny_run [.delimiter] s
  obtain ⟨rfl, hrest, hhead⟩ | ⟨t, rfl, ht, hrest⟩ := takeAny_cases ho
  · have hcomments := comments?_run s₁
    rw [hrest] at hcomments
    obtain ⟨s', hrun, hs', hne⟩ | ⟨c, s', hrun, hs', hremark⟩ := hcomments
    · refine .inl ⟨s', (bind_run_ok ho).trans (bind_run_ok hrun), ?_⟩
      rw [hs', past_eq_self.2]
      intro k hk
      have hdelimiter := hhead k hk
      have hremark : k ≠ .remark := fun hr => hne (hr ▸ hk)
      simp_all [separates]
    · refine .inr ⟨[.comments c], s', (bind_run_ok ho).trans (bind_run_ok hrun), ?_, ?_⟩
      · rw [hs']
        exact length_past_lt hremark rfl
      · rw [hs', past_past fun _ hk => hk]
  · refine .inr ⟨[], s₁, bind_run_ok ho, ?_, ?_⟩
    · rw [hrest, List.length_cons]
      exact Nat.lt_succ_self _
    · rw [hrest, past_cons, if_pos (by simp_all [separates])]

theorem accords_comments? : Accords f (fun _ _ => True) comments? comments? := by
  intro s s' hs o t ho
  have hremark := hs.head?_eq_some_iff (k := .remark) (by decide)
  obtain ⟨t₁, hrun, ht, hne⟩ | ⟨c, t₁, hrun, ht, heq⟩ := comments?_run s <;>
    rw [ho] at hrun <;> cases hrun
  · obtain ⟨t', hrun', ht', -⟩ | ⟨c', t', -, -, heq'⟩ := comments?_run s'
    · exact ⟨none, t', hrun', trivial, ht ▸ ht' ▸ hs⟩
    · exact absurd (hremark.2 heq') hne
  · obtain ⟨t', -, -, hne'⟩ | ⟨c', t', hrun', ht', -⟩ := comments?_run s'
    · exact absurd (hremark.1 heq) hne'
    · refine ⟨some c', t', hrun', trivial, ?_⟩
      rw [ht, ht']
      exact hs.past rfl

/-! ## Stacks and what separates them -/

/-- The stacks among some segments correspond to those among others. -/
def SameStacks (f : Token → Token) (ss ss' : List Segment) : Prop :=
  List.Forall₂ (fun s s' => Counterparts f s.atomics s'.atomics) (ss.filterMap Segment.stack?)
    (ss'.filterMap Segment.stack?)

theorem SameStacks.append {ss ss' us us' : List Segment} (h : SameStacks f ss ss')
    (h' : SameStacks f us us') : SameStacks f (ss ++ us) (ss' ++ us') := by
  rw [SameStacks, List.filterMap_append, List.filterMap_append]
  exact List.rel_append h h'

theorem sameStacks_of_nil {ss ss' : List Segment} (h : ss.filterMap Segment.stack? = [])
    (h' : ss'.filterMap Segment.stack? = []) : SameStacks f ss ss' := by
  rw [SameStacks, h, h']
  exact .nil

theorem sameStacks_of_rel {o o' : Option Stack}
    (h : Option.Rel (fun s s' => Counterparts f s.atomics s'.atomics) o o') :
    SameStacks f (o.map Segment.stack).toList (o'.map Segment.stack).toList := by
  cases h with
  | none => exact .nil
  | some h => exact .cons h .nil

theorem separators_stackless {s s' : Cursor} {sss : List (List Segment)}
    (h : many separator? s = .ok (sss, s')) : sss.flatten.filterMap Segment.stack? = [] := by
  have hlt := (opens_separator? (n := 0) (r := .code)).lt
  obtain hnil | ⟨c, hc, -⟩ := separators_cases (rounds_of_many hlt h)
  · simp [hnil]
  · simp [hc, Segment.stack?]

theorem separators_eq_nil {s s' : Cursor} {sss : List (List Segment)}
    (h : many separator? s = .ok (sss, s')) :
    sss = [] ↔ past separates s.rest = s.rest := by
  obtain ⟨sss₁, s₁, hrun, hrest, hlt⟩ := clears_separator?.many s
  rw [h] at hrun
  cases hrun
  have hopens := opens_separator? (n := 0) (r := .code)
  constructor
  · rintro rfl
    cases rounds_of_many hopens.lt h with
    | last hlast => rw [← hrest, hopens.rest_eq hlast]
  · intro hself
    by_contra hne
    have hless := hlt hne
    rw [hrest, hself] at hless
    exact lt_irrefl _ hless

/-- Where something is left but delimiters, a script goes on with the same stack or not at all. -/
theorem accords_nextSegments? {s s' t : Cursor} {o : Option (List Segment)}
    (hs : Abreast f s.rest s'.rest) (hspent : ¬ Spent s.rest)
    (ho : nextSegments? (stackWithin? n) s = .ok (o, t)) :
    ∃ o' t', nextSegments? (stackWithin? n) s' = .ok (o', t') ∧
      Option.Rel (SameStacks f) o o' ∧ Abreast f t.rest t'.rest := by
  obtain ⟨sss, s₁, hsep, ho⟩ := of_bind_run ho
  obtain ⟨sss', s₁', hsep', -, hs₁⟩ :=
    clears_separator?.accords (f := f) rfl s s' hs sss s₁ hsep
  have hempty : sss = [] ↔ sss' = [] := by
    rw [separators_eq_nil hsep, separators_eq_nil hsep', past_eq_self, past_eq_self,
      hs.head?_eq hspent]
  by_cases hnil : sss = []
  · obtain rfl := hempty.1 hnil
    subst hnil
    cases ho
    exact ⟨none, s₁', bind_run_ok hsep', .none, hs₁⟩
  · have hnil' : ¬ sss' = [] := fun h => hnil (hempty.2 h)
    rw [← List.isEmpty_iff, Bool.not_eq_true] at hnil hnil'
    rw [hnil] at ho
    obtain ⟨stack, s₂, hstack, ho⟩ := of_bind_run ho
    cases ho
    obtain ⟨stack', t', hstack', hrel, ht⟩ :=
      accords_stack? (accords_clause n) (follows_clause n) s₁ s₁' hs₁ stack t hstack
    refine ⟨some (sss'.flatten ++ (stack'.map Segment.stack).toList), t',
      (bind_run_ok hsep').trans ?_, .some ?_, ht⟩
    · rw [hnil']
      exact bind_run_ok hstack'
    · exact (sameStacks_of_nil (separators_stackless hsep) (separators_stackless hsep')).append
        (sameStacks_of_rel hrel)

/-- Delimiters that are left are skipped, and no stack comes after them. -/
theorem nextSegments_spent (n : Nat) {s : Cursor} (h : Spent s.rest) :
    ∃ sss s', many (nextSegments? (stackWithin? n)) s = .ok (sss, s') ∧ s'.rest = [] ∧
      sss.flatten.filterMap Segment.stack? = [] := by
  rw [many_eq_bind opens_nextSegments?.lt]
  obtain ⟨sep, s₁, hsep, hs₁, -⟩ := clears_separator?.many s
  have hnil : s₁.rest = [] := hs₁.trans (h.past_eq_nil rfl)
  by_cases hempty : sep = []
  · subst hempty
    have hnone : nextSegments? (stackWithin? n) s = .ok (none, s₁) := bind_run_ok hsep
    exact ⟨[], s₁, bind_run_ok hnone, hnil, rfl⟩
  · have hend : ∀ q (s : Cursor), s.rest = [] → scriptTable.opens q (kindsOf s.rest) = false := by
      intro q s hs
      rw [hs]
      rfl
    obtain ⟨ks, -, hstack⟩ :=
      (opens_stackWithin? (n := n) (r := .code)).skipped s₁ (hend _ s₁ hnil)
    have hsome : nextSegments? (stackWithin? n) s = .ok (some sep.flatten, s₁.note ks) := by
      refine (bind_run_ok hsep).trans ?_
      rw [List.isEmpty_eq_false_iff.2 hempty]
      refine (bind_run_ok hstack).trans ?_
      rw [Option.map_none, Option.toList_none, List.append_nil]
      rfl
    obtain ⟨ks', -, hmany⟩ := opens_nextSegments?.many_skip (hend _ (s₁.note ks) hnil)
    refine ⟨[sep.flatten], (s₁.note ks).note ks', ?_, hnil, ?_⟩
    · rw [bind_run_ok hsome]
      exact bind_run_ok hmany
    · rw [List.flatten_singleton]
      exact separators_stackless hsep

theorem accords_laterSegments : Accords f (fun sss sss' => SameStacks f sss.flatten sss'.flatten)
    (many (nextSegments? (stackWithin? n))) (many (nextSegments? (stackWithin? n))) := by
  intro s
  induction hlen : s.rest.length using Nat.strongRecOn generalizing s with
  | ind len ih =>
    subst hlen
    intro s' hs sss t hrun
    by_cases hspent : Spent s.rest
    · obtain ⟨sss₁, t₁, hrun₁, ht, hnil⟩ := nextSegments_spent n hspent
      rw [hrun] at hrun₁
      cases hrun₁
      obtain ⟨sss', t', hrun', ht', hnil'⟩ := nextSegments_spent n (hs.spent_iff.1 hspent)
      refine ⟨sss', t', hrun', sameStacks_of_nil hnil hnil', ?_⟩
      rw [ht, ht']
      exact .spent .nil .nil
    · rw [many_eq_bind opens_nextSegments?.lt] at hrun ⊢
      obtain ⟨o, s₁, ho, hlater⟩ := of_bind_run hrun
      obtain ⟨o', s₁', ho', hrel, hs₁⟩ := accords_nextSegments? hs hspent ho
      rw [bind_run_ok ho']
      cases hrel with
      | none =>
        cases hlater
        exact ⟨[], s₁', rfl, .nil, hs₁⟩
      | some hss =>
        obtain ⟨later, s₂, hmany, hlater⟩ := of_bind_run hlater
        cases hlater
        obtain ⟨later', t', hmany', hrest, ht⟩ :=
          ih _ (opens_nextSegments?.lt s _ s₁ ho) s₁ rfl s₁' hs₁ later t hmany
        exact ⟨_, t', bind_run_ok hmany', hss.append hrest, ht⟩

theorem accords_segments :
    Accords f (SameStacks f) (segments (stackWithin? n)) (segments (stackWithin? n)) := by
  unfold segments
  refine (accords_stack? (accords_clause n) (follows_clause n)).cases (fun first first' h => ?_)
    (.pure .nil)
  exact accords_laterSegments.bind fun later later' hlater => .pure (.cons h hlater)

theorem accords_code (id : Nat) :
    Accords f (fun c c' => List.Forall₂ (fun s s' => Counterparts f s.atomics s'.atomics)
      c.stackList c'.stackList) (code (stackWithin? n) id) (code (stackWithin? n) id) := by
  unfold code
  refine .start fun _ _ => (clears_delimiter.accords rfl).bind fun _ _ _ => ?_
  refine accords_comments?.bind fun _ _ _ => accords_segments.bind fun segments segments' h => ?_
  exact .lastEnd fun _ _ => .pure h

theorem rest_eq_nil_of_laterSegments {s s' : Cursor} {sss : List (List Segment)}
    (h : many (nextSegments? (stackWithin? n)) s = .ok (sss, s')) (hspent : Spent s'.rest) :
    s'.rest = [] := by
  obtain ⟨s₀, hlast⟩ := (rounds_of_many opens_nextSegments?.lt h).exists_last
  obtain ⟨sep, s₁, hsep, hlast⟩ := of_bind_run hlast
  cases hempty : sep.isEmpty with
  | false =>
    rw [hempty] at hlast
    obtain ⟨stack, s₂, -, hlast⟩ := of_bind_run hlast
    cases hlast
  | true =>
    rw [hempty] at hlast
    cases hlast
    obtain ⟨sep', s₁, hsep', hs₁, -⟩ := clears_separator?.many s₀
    rw [hsep] at hsep'
    cases hsep'
    rw [hs₁] at hspent ⊢
    exact past_eq_nil_of_spent rfl hspent

/-- Leading remarks and delimiters are skipped as a whole. -/
theorem rest_eq_nil_of_comments? {s₀ s s' : Cursor} {o : Option Comments}
    (hs : s.rest = past (· = Kind.delimiter) s₀.rest) (h : comments? s = .ok (o, s'))
    (hspent : Spent s'.rest) : s'.rest = [] := by
  obtain ⟨s₁, hrun, hs₁, -⟩ | ⟨c, s₁, hrun, hs₁, -⟩ := comments?_run s <;>
    rw [h] at hrun <;> cases hrun
  · rw [hs₁, hs] at hspent ⊢
    exact past_eq_nil_of_spent rfl hspent
  · rw [hs₁] at hspent ⊢
    exact past_eq_nil_of_spent rfl hspent

/-- A script leaves no delimiters at the end. -/
theorem rest_eq_nil_of_code {id : Nat} {s s' : Cursor} {c : Code}
    (h : code (stackWithin? n) id s = .ok (c, s')) (hspent : Spent s'.rest) : s'.rest = [] := by
  obtain ⟨start, s₁, ⟨⟩, h⟩ := of_bind_run h
  obtain ⟨ds, s₂, hds, h⟩ := of_bind_run h
  obtain ⟨comments, s₃, hcomments, h⟩ := of_bind_run h
  obtain ⟨segments, s₄, hsegments, h⟩ := of_bind_run h
  obtain ⟨stop, s₅, ⟨⟩, h⟩ := of_bind_run h
  cases h
  obtain ⟨ds', s₂', hds', hs₂, -⟩ := clears_delimiter.many s
  rw [hds] at hds'
  cases hds'
  obtain ⟨first, s₅, hfirst, hsegments⟩ := of_bind_run hsegments
  cases first with
  | none =>
    cases hsegments
    have hrest := (opens_stackWithin? (n := n) (r := .code)).rest_eq hfirst
    rw [hrest] at hspent ⊢
    exact rest_eq_nil_of_comments? hs₂ hcomments hspent
  | some first =>
    obtain ⟨later, s₆, hlater, hsegments⟩ := of_bind_run hsegments
    cases hsegments
    exact rest_eq_nil_of_laterSegments hlater hspent

theorem accords_script (id : Nat) :
    Accords f (fun c c' => List.Forall₂ (fun s s' => Counterparts f s.atomics s'.atomics)
      c.stackList c'.stackList) (script n id) (script n id) := by
  intro s s' hs c t hrun
  obtain ⟨hcode, hnil⟩ := script_run hrun
  obtain ⟨c', s₁', hcode', hrel, hs₁⟩ := accords_code id s s' hs c t hcode
  have hspent : Spent s₁'.rest := hs₁.spent_iff.1 (hnil ▸ .nil)
  have hnil' := rest_eq_nil_of_code hcode' hspent
  have hfinish' : finish s₁' = .ok ((), s₁') := by rw [finish_run, if_pos hnil']
  exact ⟨c', s₁', (bind_run_ok hcode').trans (bind_run_ok hfinish'), hrel, hs₁⟩

end Parser

/-- Of two lists abreast the one is a script if the other is. It has as many stacks, and its atomic
blocks correspond to those of the other. -/
theorem parseTokensWithin_abreast {f : Token → Token} {ts us : List Token} (h : Abreast f ts us)
    {n id : Nat} {c : Code} (hc : parseTokensWithin n ts id = .ok c) :
    ∃ c', parseTokensWithin n us id = .ok c' ∧ c'.stackList.length = c.stackList.length ∧
      Counterparts f c.atomicBlocks c'.atomicBlocks := by
  unfold parseTokensWithin at hc ⊢
  cases hrun : Parser.script n id (.ofTokens ts) with
  | error e =>
    rw [hrun] at hc
    cases hc
  | ok x =>
    rw [hrun] at hc
    cases hc
    obtain ⟨c', t', hrun', hrel, -⟩ :=
      Parser.accords_script id (.ofTokens ts) (.ofTokens us) h x.1 x.2 hrun
    exact ⟨c', by rw [hrun'], hrel.length_eq.symm, .flatMap hrel⟩

end BlockNotation
