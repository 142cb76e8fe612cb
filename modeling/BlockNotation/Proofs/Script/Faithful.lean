import BlockNotation.Proofs.Script.Storing
import BlockNotation.Proofs.Script.Verdict

/-!
# The tree holds the tokens it was read from

A run of remarks takes all remarks and delimiters there are, so that no two runs stand side by
side (`nextSegments_apart`). With what the parsers store, the tree of an accepted token list
is well formed and holds the list less some delimiters (`parseTokens_faithful`).
-/

namespace BlockNotation

namespace Parser

/-- The production that stands between two stacks, repeated. -/
def separator : Production := .choice [.token .delimiter, .rule .comments]

/-- Neither a delimiter nor a remark comes next. -/
def Settled (s : Cursor) : Prop := scriptTable.opens separator (kindsOf s.rest) = false

theorem settled_iff {s : Cursor} :
    Settled s ↔ ∀ k ∈ (kindsOf s.rest).head?, k ≠ .delimiter ∧ k ≠ .remark := by
  rw [Settled, Table.opens_eq_false]
  refine forall₂_congr fun k _ => ?_
  rw [separator, Table.mem_firstOf_choice_cons, Table.mem_firstOf_choice_cons,
    Table.mem_firstOf_token, firstOf_rule]
  simp [Rule.lead]

/-- A run of remarks takes all remarks and delimiters there are. -/
theorem settled_of_comments? {s s' : Cursor} {c : Comments}
    (h : comments? s = .ok (some c, s')) : Settled s' := by
  obtain ⟨first, s₁, -, h⟩ := of_bind_run h
  cases first with
  | none => cases h
  | some first =>
    obtain ⟨later, s₂, hlater, h⟩ := of_bind_run h
    cases h
    obtain ⟨s₀, hlast⟩ := (rounds_of_many nextRemark?_lt hlater).exists_last
    obtain ⟨ds, s₃, hds, hremark⟩ := of_bind_run hlast
    obtain ⟨s₄, hdelimiter⟩ :=
      (rounds_of_many (opens_take? (n := 0) (r := .code) .delimiter).lt hds).exists_last
    obtain ⟨-, hrest, hr⟩ | ⟨t, ht, -⟩ := takeAny_cases hremark
    · obtain ⟨-, hrest', hd⟩ | ⟨t, ht, -⟩ := takeAny_cases hdelimiter
      · rw [settled_iff]
        intro k hk
        rw [hrest] at hk
        have hnr := hr k hk
        rw [hrest'] at hk
        have hnd := hd k hk
        simp_all
      · cases ht
    · cases ht

theorem separator?_cases {s s' : Cursor} {ss : List Segment}
    (h : separator? s = .ok (some ss, s')) :
    ss = [] ∨ ∃ c, ss = [.comments c] ∧ Settled s' := by
  obtain ⟨delimiter, s₁, -, h⟩ := of_bind_run h
  cases delimiter with
  | some _ =>
    cases h
    exact .inl rfl
  | none =>
    obtain ⟨comments, s₂, hcomments, h⟩ := of_bind_run h
    cases comments with
    | none => cases h
    | some c =>
      cases h
      exact .inr ⟨c, rfl, settled_of_comments? hcomments⟩

/-- Separators hold one run of remarks at most, and it is the last of them. -/
theorem separators_cases {s s' : Cursor} {sss : List (List Segment)}
    (h : Rounds separator? s sss s') :
    sss.flatten = [] ∨ ∃ c, sss.flatten = [.comments c] ∧ Settled s' := by
  have hopens : Opens 0 .code separator? separator := opens_separator?
  induction h with
  | last => exact .inl rfl
  | next hround later ih =>
    obtain rfl | ⟨c, rfl, hsettled⟩ := separator?_cases hround
    · simpa using ih
    · obtain ⟨rfl, hrest⟩ := hopens.rounds_skip hsettled later
      refine .inr ⟨c, rfl, ?_⟩
      rwa [Settled, hrest]

/-- With no separator next, a script does not go on. -/
theorem nextSegments_settled {levels : Nat} {s s' : Cursor} {sss : List (List Segment)}
    (hs : Settled s) (h : Rounds (nextSegments? (stackWithin? levels)) s sss s') :
    sss = [] := by
  have ho : scriptTable.opens (.seq [.atLeastOne separator, .optional (.rule .stack)])
      (kindsOf s.rest) = false := by
    rw [← hs]
    refine Table.opens_congr (fun k => ?_) rfl
    rw [Table.mem_firstOf_seq, Table.mem_firstOf_atLeastOne]
    rw [scriptTable_isNullable]
    decide
  exact (opens_nextSegments?.rounds_skip ho h).1

theorem nextSegments?_apart {levels : Nat} {s s' : Cursor} {ss : List Segment}
    (h : nextSegments? (stackWithin? levels) s = .ok (some ss, s')) :
    ss.IsChain Segment.Alternate ∧ ((∀ x ∈ ss.getLast?, x.comments? = none) ∨ Settled s') := by
  obtain ⟨separators, s₁, hmany, h⟩ := of_bind_run h
  have hsep := separators_cases
    (rounds_of_many (opens_separator? (n := 0) (r := .code)).lt hmany)
  cases hs : separators.isEmpty with
  | true => rw [hs] at h; cases h
  | false =>
    rw [hs] at h
    obtain ⟨stack, s₂, hstack, h⟩ := of_bind_run h
    cases h
    cases stack with
    | some stack =>
      obtain hnil | ⟨c, hc, -⟩ := hsep
      · simp [hnil, Segment.comments?]
      · simp [hc, Segment.comments?, Segment.Alternate]
    | none =>
      have hrest := (opens_stackWithin? (n := levels) (r := .code)).rest_eq hstack
      obtain hnil | ⟨c, hc, hsettled⟩ := hsep
      · simp [hnil]
      · refine ⟨by simp [hc], .inr ?_⟩
        rwa [Settled, hrest]

/-- No two runs of remarks stand side by side after a stack. -/
theorem nextSegments_apart {levels : Nat} {s s' : Cursor} {sss : List (List Segment)}
    (h : Rounds (nextSegments? (stackWithin? levels)) s sss s') :
    sss.flatten.IsChain Segment.Alternate := by
  induction h with
  | last => exact .nil
  | next hround later ih =>
    obtain ⟨hss, hlast | hsettled⟩ := nextSegments?_apart hround
    · rw [List.flatten_cons, List.isChain_append]
      exact ⟨hss, ih, fun x hx y _ => .inl (hlast x hx)⟩
    · rw [nextSegments_settled hsettled later]
      simpa using hss

theorem segments_apart {levels : Nat} (s : Cursor) (ss : List Segment) (s' : Cursor)
    (h : segments (stackWithin? levels) s = .ok (ss, s')) :
    (∀ x ∈ ss.head?, x.comments? = none) ∧ ss.IsChain Segment.Alternate := by
  obtain ⟨first, s₁, -, h⟩ := of_bind_run h
  cases first with
  | none =>
    cases h
    simp
  | some first =>
    obtain ⟨later, s₂, hlater, h⟩ := of_bind_run h
    cases h
    have hchain := nextSegments_apart (rounds_of_many opens_nextSegments?.lt hlater)
    refine ⟨by simp [Segment.comments?], List.isChain_cons.2 ⟨?_, hchain⟩⟩
    exact fun _ _ => .inl rfl

theorem stores_code (levels sourceId : Nat) :
    Stores [] (code (stackWithin? levels) sourceId) Code.fields fun c =>
      (∀ r ∈ c.comments, r.remarks ≠ []) ∧ (∀ s ∈ c.segments, s.Whole) ∧
        (∀ x ∈ c.segments.head?, x.comments? = none) ∧ c.segments.IsChain Segment.Alternate := by
  unfold code
  refine .start fun start => ?_
  refine drops_delimiters.bind fun _ _ => ?_
  refine stores_comments?.bind fun comments hcomments => ?_
  refine ((stores_segments levels).and segments_apart).bind fun segments hsegments => ?_
  refine .lastEnd fun stop => ?_
  exact .pure (by simp [Code.fields]) ⟨hcomments, hsegments.1, hsegments.2⟩

end Parser

/-- The tree of an accepted token list is well formed and spells the list. -/
theorem spells_of_parseTokensWithin {limit : Nat} {ts : List Token} {id : Nat} {code : Code}
    (h : parseTokensWithin limit ts id = .ok code) : Spells ts code.fields ∧ code.WellFormed := by
  unfold parseTokensWithin at h
  split at h
  · rename_i s hrun
    cases h
    obtain ⟨hcode, hend⟩ := Parser.script_run hrun
    obtain ⟨w, fs, hrest, hw, hfields, hcomments, hwhole, hfirst, hchain⟩ :=
      Parser.stores_code limit id _ _ _ hcode
    have hts : ts = w := by rwa [hend, List.append_nil] at hrest
    have hfs : code.fields = fs := hfields
    rw [← hts, ← hfs] at hw
    exact ⟨hw, Code.wellFormed hw.holds hcomments hwhole hfirst hchain⟩
  · cases h

/-- The tree of an accepted token list is well formed, the kinds of the list derive from the
grammar, and the tree holds the tokens of the list, in order, less some delimiters: it keeps those
of its clauses. -/
theorem parseTokens_faithful {ts : List Token} {id : Nat} {code : Code}
    (h : parseTokens ts id = .ok code) :
    code.WellFormed ∧
    Derives scriptRules (.rule .code) (kindsOf ts) ∧
    code.tokens.Sublist ts ∧
    code.tokens.filter (·.kind ≠ .delimiter) = ts.filter (·.kind ≠ .delimiter) ∧
    code.tokens.filter (·.kind = .delimiter) = code.delimiters := by
  obtain ⟨hspells, hwf⟩ := spells_of_parseTokensWithin h
  have hderives : Derives scriptRules (.rule .code) (kindsOf ts) := by
    obtain ⟨w, hw, hd⟩ := (parseTokensWithin_ok_iff.1 ⟨code, h⟩).derives
    rw [hw, List.append_nil]
    exact hd
  exact ⟨hwf, hderives, hspells.sublist, hspells.filter_eq, hwf.delimiters_eq⟩

/-- A block, and a loop over another: the delimiter between them is not kept, that of the loop's
clause is. -/
theorem parseTokens_faithful_loop :
    let delimiter (n : Nat) : Token := .ofText .delimiter ⟨n, ⟨1, n⟩⟩ [';']
    let ts : List Token := [.ofText .label .origin ['a'], delimiter 1,
      .ofText .foreverWord .origin ['f'], delimiter 3, .ofText .label .origin ['b']]
    ∃ code, parseTokens ts 0 = .ok code ∧ code.WellFormed ∧ code.tokens.Sublist ts ∧
      code.delimiters = [delimiter 3] := by
  intro delimiter ts
  have h : (match parseTokens ts 0 with
    | .ok code => decide (code.tokens.filter (·.kind = .delimiter) = [delimiter 3])
    | .error _ => false) = true := by decide +kernel
  cases hp : parseTokens ts 0 with
  | error e => rw [hp] at h; cases h
  | ok code =>
    rw [hp] at h
    obtain ⟨hwf, -, hsub, -, hdelimiters⟩ := parseTokens_faithful hp
    exact ⟨code, rfl, hwf, hsub, hdelimiters ▸ of_decide_eq_true h⟩

end BlockNotation
