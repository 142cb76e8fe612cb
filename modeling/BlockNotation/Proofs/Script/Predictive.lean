import BlockNotation.Proofs.Script.Following

/-!
# The parser reads the grammar

Every parser of a script follows the production of its rule, from the single token up to the whole
script (`follows_code`). The parsers of one level of nesting are treated under the assumption that
those of the next level follow theirs.
-/

namespace BlockNotation

namespace Parser

variable {n : Nat} {r : Rule}

/-! ## Atomic blocks -/

theorem follows_modifier? : Follows n r modifier? (.rule .modifier) fun _ => True := by
  refine Follows.rule rfl rfl (Opens.optional ?_)
  unfold modifier?
  refine (opens_take? .doubleColon).bind rfl (fun marker => ?_) rfl
  refine (follows_take .label).bind fun label _ => ?_
  exact Follows.pure rfl

theorem follows_annotations? : Follows n r annotations? (.rule .annotations) fun _ => True := by
  refine Follows.rule rfl rfl (Opens.optional ?_)
  unfold annotations?
  refine (opens_take? .remark).either (fun k => (Table.mem_firstOf_seq rfl k).symm)
    (fun _ => .refl) (fun remark => ?_) (Opens.choice ?_)
  · refine (opens_take? .identifier).optional.bind fun id _ => ?_
    exact Follows.pure rfl
  · refine (opens_take? .identifier).bind rfl (fun id => ?_) rfl
    refine (opens_take? .remark).optional.bind fun remark _ => ?_
    exact Follows.pure rfl

section Atomic

/-- A parser of brackets reads them wherever a bracket opens. -/
def ReadsBrackets (n : Nat) (brackets : Shape → Parser Brackets) : Prop :=
  ∀ r shape s, scriptTable.opens (.rule shape.rule) (kindsOf s.rest) = true →
    Agrees n r (.rule shape.rule) (fun _ => True) 1 s (brackets shape s)

theorem firstOf_shape (shape : Shape) :
    scriptTable.firstOf (.rule shape.rule) = [shape.opening] := by
  rw [firstOf_rule]
  cases shape <;> rfl

variable {brackets : Shape → Parser Brackets} (hb : ReadsBrackets n brackets)

include hb

omit hb in
/-- Brackets are looked for by the kind that opens them. -/
theorem brackets?_run (shape : Shape) (s : Cursor) : brackets? brackets shape s =
    if scriptTable.opens (.rule shape.rule) (kindsOf s.rest) = true
    then (do return some (← brackets shape) : Parser (Option Brackets)) (s.note [shape.opening])
    else .ok (none, s.note [shape.opening]) := by
  have hsees : (decide ((s.rest.head?.map (·.kind)) = some shape.opening))
      = scriptTable.opens (.rule shape.rule) (kindsOf s.rest) := by
    rw [Bool.eq_iff_iff]
    cases s.rest with
    | nil => simp [Table.opens]
    | cons t rest => simp [Table.opens_cons, firstOf_shape]
  change (if (decide _ : Bool) = true then _ else _ : Parser (Option Brackets)) (s.note _) = _
  rw [hsees]
  split <;> rfl

theorem opens_brackets? (shape : Shape) :
    Opens n r (brackets? brackets shape) (.rule shape.rule) := by
  constructor
  · intro s ho
    rw [brackets?_run, if_pos ho]
    have ha : Agrees n r (.seq [.rule shape.rule]) (fun o => o.isSome = true) 1
        (s.note [shape.opening])
        ((do return some (← brackets shape)) (s.note [shape.opening])) := by
      refine (hb r shape (s.note [shape.opening]) ho).bind fun a _ => ?_
      exact Follows.pure rfl
    exact (ha.congr fun _ => .seqSingleton).of_note (Nat.le_refl 1)
  · intro s ho
    rw [brackets?_run, ho]
    exact ⟨[shape.opening], fun k => by rw [firstOf_shape], rfl⟩

theorem opens_value? : Opens n r (value? brackets)
    (.choice [.terminal (.family .literal), .rule .expression, .rule .predicate]) := by
  unfold value?
  refine (opens_takeAny (.family .literal)).orElse (fun a => ⟨_, rfl⟩) ?_
  refine (opens_brackets? hb .round).orElse (fun a => ⟨_, rfl⟩) ?_
  exact (opens_brackets? hb .angle).map.choice

theorem opens_argument_definition {body : Production}
    (h : scriptTable.definition? .argument = some body) :
    Opens n .argument (argument? brackets) body := by
  cases h
  unfold argument?
  refine (opens_take? .openCurly).either (fun k => (Table.mem_firstOf_seq rfl k).symm)
    (fun _ => .refl) (fun opening => ?_) (opens_value? hb).map
  refine (opens_value? hb).optional.bind fun value _ => ?_
  refine (opens_take? .identifier).optional.bind fun id _ => ?_
  refine (follows_take .closeCurly).bind fun closing _ => ?_
  exact Follows.pure rfl

theorem opens_argument? : Opens n r (argument? brackets) (.rule .argument) :=
  Opens.rule rfl rfl (opens_argument_definition hb rfl)

theorem follows_argument : Follows n r (argument brackets) (.rule .argument) fun _ => True := by
  refine Follows.rule rfl rfl ?_
  refine (opens_argument_definition hb rfl).orFail (fun a => ⟨a, rfl⟩) ?_
  rw [firstOf_definition (ρ := .argument) rfl, firstOf_rule]

theorem opens_condition_definition {body : Production}
    (h : scriptTable.definition? .condition = some body) :
    Opens n .condition (condition? brackets) body := by
  cases h
  unfold condition?
  refine (opens_take? .openCurly).either (fun k => (Table.mem_firstOf_seq rfl k).symm)
    (fun _ => .refl) (fun opening => ?_) (opens_brackets? hb .angle).map.choice
  refine (opens_brackets? hb .angle).optional.bind fun predicate _ => ?_
  refine (opens_take? .identifier).optional.bind fun id _ => ?_
  refine (follows_take .closeCurly).bind fun closing _ => ?_
  exact Follows.pure rfl

theorem follows_condition : Follows n r (condition brackets) (.rule .condition) fun _ => True := by
  refine Follows.rule rfl rfl ?_
  refine (opens_condition_definition hb rfl).orFail (fun a => ⟨a, rfl⟩) ?_
  rw [firstOf_definition (ρ := .condition) rfl, firstOf_rule]

theorem opens_element? :
    Opens n r (element? brackets) (.choice [.token .label, .rule .argument]) := by
  unfold element?
  refine (opens_take? .label).orElse (fun a => ⟨_, rfl⟩) ?_
  exact (opens_argument? hb).map.choice

theorem opens_atomic? : Opens n r (atomic? brackets) (.rule .atomic) := by
  refine Opens.rule rfl rfl ?_
  unfold atomic?
  refine Opens.start fun start => ?_
  refine (opens_element? hb).manyThen (by decide) ?_ (fun element elements => ?_) rfl
  · rw [scriptTable_isNullable]
    decide
  · refine follows_modifier?.bind fun modifier _ => ?_
    refine follows_annotations?.bind fun annotations _ => ?_
    refine Follows.lastEnd fun stop => ?_
    exact Follows.pure rfl

end Atomic

/-- Brackets are read as their rule is, with one level less for what is inside. -/
theorem readsBrackets : ∀ n, ReadsBrackets n (brackets n)
  | 0, r, shape, s, _ => .tooDeep (w := []) rfl ⟨rfl, rfl, rfl⟩ (.here (by cases shape <;> rfl))
  | n + 1, r, shape, s, ho => by
    have hbody : scriptTable.definition? shape.rule = some (.seq [
        .token shape.opening, .optional (.rule .atomic), .token shape.closing]) := by
      cases shape <;> rfl
    refine Agrees.congr (fun _ => .nested hbody (by cases shape <;> rfl)) ?_
    have htoken : scriptTable.opens (.token shape.opening) (kindsOf s.rest) = true := by
      rw [← ho]
      refine Table.opens_congr (fun k => ?_) rfl
      rw [← firstOf_definition hbody, Table.mem_firstOf_seq rfl]
    have hopen := take_agrees (n := n) (r := shape.rule) shape.opening s
    rw [if_pos htoken] at hopen
    refine hopen.bind fun opening _ => ?_
    refine (opens_atomic? (readsBrackets n)).optional.bind fun atomic _ => ?_
    refine (follows_take shape.closing).bind fun closing _ => ?_
    exact Follows.pure trivial

/-! ## Stacks -/

/-- What a stack may hold after its first block. -/
def stackTail : List Production :=
  [.many (.seq [.token .delimiter, .rule .block]), .optional (.token .delimiter)]

theorem alike_stackTail_next {ks : List Kind}
    (h : scriptTable.goesOn .stack (.seq [.token .delimiter, .rule .block]) ks = true) :
    Alike scriptTable n .stack (.seq (.token .delimiter :: .rule .block :: stackTail)) n .stack
      (.seq stackTail) ks := by
  let next : Production := .seq [.token .delimiter, .rule .block]
  exact (Alike.seqAppend stackTail [.token .delimiter, .rule .block]).trans
    ((Alike.seqAppend [.optional (.token .delimiter)] [next, .many next]).trans
      (Alike.many h).seqCongr)

theorem reads_stackTail_next {ks : List Kind} {e : Ending}
    (h : scriptTable.goesOn .stack (.seq [.token .delimiter, .rule .block]) ks = true) :
    Reads scriptTable n .stack (.seq stackTail) ks e ↔
      Reads scriptTable n .stack (.seq (.token .delimiter :: .rule .block :: stackTail)) ks e :=
  ((alike_stackTail_next h).reads e).symm

theorem reads_stackTail_end {ks : List Kind} {e : Ending}
    (h : scriptTable.goesOn .stack (.seq [.token .delimiter, .rule .block]) ks = false) :
    Reads scriptTable n .stack (.seq stackTail) ks e ↔
      Reads scriptTable n .stack (.optional (.token .delimiter)) ks e :=
  (reads_seq_of_done (.manyEnd h)).trans reads_seq_singleton

/-- A stack that ends with a delimiter could only have gone on with a block. -/
theorem done_stackTail_delimiter {rest : List Kind} (hm : Moves scriptTable n .stack (.rule .block))
    (h : ∀ k ∈ rest.head?, k ∉ Rule.block.lead) :
    Done scriptTable n .stack (.seq stackTail) [.delimiter] rest Rule.block.lead where
  apart := h
  ends u hu := by
    have ho : scriptTable.opens (.rule .block) u = false :=
      Table.opens_eq_false.2 (by rwa [firstOf_rule])
    refine (reads_stackTail_end ?_).2 (.optional ?_ (reads_token .delimiter u))
    · rw [List.singleton_append, Table.goesOn_stack_cons, ho]
      rfl
    · exact Table.opens_cons.2 (Table.mem_firstOf_token.2 rfl)
  passes k hk v := by
    have ho : scriptTable.opens (.rule .block) (k :: v) = true := by
      rw [Table.opens_cons, firstOf_rule]
      exact hk
    have hb : Passes scriptTable n .stack (.rule .block) (k :: v) v.length :=
      fun e he => Nat.le_of_lt_succ (hm _ e ho he)
    intro e he
    rw [List.singleton_append, reads_stackTail_next (by simp [Table.goesOn_stack_cons, ho])] at he
    exact hb.seqHead.seqTail (reads_token .delimiter (k :: v)) e he

/-- A stack without a delimiter after its last block could have had one. -/
theorem done_stackTail_nil {rest : List Kind} (h : ∀ k ∈ rest.head?, k ≠ .delimiter) :
    Done scriptTable n .stack (.seq stackTail) [] rest [.delimiter, .delimiter] where
  apart k hk := by simpa using h k hk
  ends u hu := by
    have hne : ∀ k ∈ u.head?, k ≠ .delimiter := fun k hk => by simpa using hu k hk
    refine (reads_stackTail_end ?_).2 (.optionalSkip (Table.opens_eq_false.2 fun k hk => ?_))
    · cases u with
      | nil => rfl
      | cons k u => simp [Table.goesOn_stack_cons, hne k rfl]
    · rw [Table.mem_firstOf_token]
      exact hne k hk
  passes k hk v e he := by
    obtain rfl : k = .delimiter := by simpa using hk
    by_cases hgo : scriptTable.goesOn .stack (.seq [.token .delimiter, .rule .block])
        (.delimiter :: v) = true
    · rw [List.nil_append, reads_stackTail_next hgo,
        reads_seq_of_done (reads_token .delimiter v)] at he
      exact he.length_le
    · rw [List.nil_append, reads_stackTail_end (by simpa using hgo)] at he
      rw [reads_optional_iff (Table.opens_cons.2 (Table.mem_firstOf_token.2 rfl))] at he
      cases he.unique (reads_token (n := n) .delimiter v)
      exact Nat.le_refl _

section Stack

variable {clause : Parser Clause}
  (hc : ∀ r, Follows n r clause (.rule .clause) fun _ => True)

include hc

theorem opens_ifElse? : Opens n r (ifElse? (brackets n) clause) (.rule .ifElse) := by
  refine Opens.rule rfl rfl ?_
  unfold ifElse?
  refine Opens.start fun start => ?_
  refine (opens_take? .ifWord).bind rfl (fun keyword => ?_) rfl
  refine (follows_condition (readsBrackets n)).bind fun condition _ => ?_
  refine (opens_take? .thenWord).optional.bind fun thenWord _ => ?_
  refine follows_annotations?.bind fun annotations _ => ?_
  refine (hc _).bind fun body _ => ?_
  have helse : Opens n .ifElse (elseBranch? clause) (.seq [.token .elseWord, .rule .clause]) := by
    unfold elseBranch?
    refine (opens_take? .elseWord).bind rfl (fun keyword => ?_) rfl
    refine (hc _).bind fun clause _ => ?_
    exact Follows.pure rfl
  refine helse.optional.bind fun otherwise _ => ?_
  refine Follows.lastEnd fun stop => ?_
  exact Follows.pure rfl

/-- What a loop depends on is read in front of its annotations. -/
theorem opens_loop? {α : Type} {word : Kind} {head : Parser α}
    {make : Token → α → Option Annotations → Clause → Span → Composite} {ps : List Production}
    (hhead : ∀ g : α → Parser (Option Composite),
      (∀ a, Follows n r (g a) (.seq [.rule .annotations, .rule .clause]) fun o => o.isSome = true) →
        Follows n r (head >>= g) (.seq ps) fun o => o.isSome = true) :
    Opens n r (loop? clause word head make) (.seq (.token word :: ps)) := by
  unfold loop?
  refine Opens.start fun start => ?_
  refine (opens_take? word).bind rfl (fun keyword => ?_) rfl
  refine hhead _ fun a => ?_
  refine follows_annotations?.bind fun annotations _ => ?_
  refine (hc _).bind fun body _ => ?_
  refine Follows.lastEnd fun stop => ?_
  exact Follows.pure rfl

theorem opens_forever? : Opens n r (forever? clause) (.rule .forever) :=
  Opens.rule rfl rfl (opens_loop? hc fun _ hg => hg ())

theorem opens_repeatTimes? : Opens n r (repeatTimes? (brackets n) clause) (.rule .repeatTimes) :=
  Opens.rule rfl rfl (opens_loop? hc fun _ hg =>
    (follows_argument (readsBrackets n)).bind fun count _ => hg count)

theorem opens_repeatUntil? : Opens n r (repeatUntil? (brackets n) clause) (.rule .repeatUntil) :=
  Opens.rule rfl rfl (opens_loop? hc fun _ hg =>
    (follows_condition (readsBrackets n)).bind fun condition _ => hg condition)

theorem opens_composite? : Opens n r (composite? (brackets n) clause) (.rule .composite) := by
  refine Opens.rule rfl rfl ?_
  unfold composite?
  refine (opens_ifElse? hc).orElse (fun a => ⟨a, rfl⟩) ?_
  refine (opens_forever? hc).orElse (fun a => ⟨a, rfl⟩) ?_
  refine (opens_repeatTimes? hc).orElse (fun a => ⟨a, rfl⟩) ?_
  exact (opens_repeatUntil? hc).choice

theorem opens_block? : Opens n r (block? (brackets n) clause) (.rule .block) := by
  refine Opens.rule rfl rfl ?_
  unfold block?
  refine (opens_atomic? (readsBrackets n)).orElse (fun a => ⟨_, rfl⟩) ?_
  exact (opens_composite? hc).map.choice

omit hc in
theorem seesNextBlock_run (s : Cursor) : seesNextBlock s =
    .ok (scriptTable.goesOn .stack (.seq [.token .delimiter, .rule .block]) (kindsOf s.rest),
      s.note [.delimiter]) := by
  unfold seesNextBlock
  congr 2
  rcases s.rest with _ | ⟨t, _ | ⟨u, rest⟩⟩
  · rfl
  · simp [Table.goesOn_stack_cons, Table.opens]
  · rw [kindsOf_cons, Table.goesOn_stack_cons, kindsOf_cons, Table.opens, firstOf_rule]

omit hc in
/-- A delimiter with a block after it is looked for with two tokens of lookahead. -/
theorem nextBlock?_run (s : Cursor) : nextBlock? (brackets n) clause s =
    if scriptTable.goesOn .stack (.seq [.token .delimiter, .rule .block]) (kindsOf s.rest) = true
    then (do let _ ← take? .delimiter; block? (brackets n) clause) (s.note [.delimiter])
    else .ok (none, s.note [.delimiter]) := by
  have hrun : nextBlock? (brackets n) clause s = (seesNextBlock s).bind fun x =>
      (if x.1 = true then do let _ ← take? .delimiter; block? (brackets n) clause else pure none :
        Parser (Option Block)) x.2 := rfl
  rw [hrun, seesNextBlock_run]
  change (if _ then _ else _ : Parser (Option Block)) _ = _
  split <;> rfl

omit hc in
theorem nextBlock?_goesOn (n : Nat) (clause : Parser Clause) {s : Cursor}
    (h : scriptTable.goesOn .stack (.seq [.token .delimiter, .rule .block]) (kindsOf s.rest)
      = true) :
    ∃ t s', t.kind = .delimiter ∧ s.Reaches s' [t] [] ∧ s'.lastEnd = t.span.stop ∧
      scriptTable.opens (.rule .block) (kindsOf s'.rest) = true ∧
      nextBlock? (brackets n) clause s = block? (brackets n) clause s' := by
  cases hs : s.rest with
  | nil => simp [hs, Table.goesOn_stack_nil] at h
  | cons t rest =>
    have h' := h
    rw [hs, kindsOf_cons, Table.goesOn_stack_cons, Bool.and_eq_true, decide_eq_true_eq] at h'
    obtain ⟨s', htake, hreach, hend⟩ :=
      takeAny_of_mem (s := s.note [.delimiter]) hs (List.mem_singleton.2 h'.1)
    refine ⟨t, s', h'.1, hreach.of_note (Nat.le_refl 1), hend, ?_, ?_⟩
    · have hr : t :: rest = t :: s'.rest := hs.symm.trans hreach.rest
      rw [← (List.cons.inj hr).2]
      exact h'.2
    · rw [nextBlock?_run, if_pos h]
      exact bind_run_ok htake

theorem nextBlock?_lt (s : Cursor) (b : Block) (s' : Cursor)
    (h : nextBlock? (brackets n) clause s = .ok (some b, s')) : s'.rest.length < s.rest.length := by
  by_cases hgo : scriptTable.goesOn .stack (.seq [.token .delimiter, .rule .block])
      (kindsOf s.rest) = true
  · obtain ⟨t, s₁, -, hreach, -, -, hrun⟩ := nextBlock?_goesOn n clause hgo
    have hlt := (opens_block? (r := .stack) hc).lt s₁ b s' (hrun ▸ h)
    rw [hreach.rest, List.length_append]
    omega
  · rw [nextBlock?_run, if_neg hgo] at h
    cases h

omit hc in
theorem trailingDelimiter_run (s : Cursor) :
    (∃ t s', t.kind = .delimiter ∧ s.Reaches s' [t] [] ∧
      trailingDelimiter s = .ok ((), s'.note Rule.block.lead)) ∨
    (∀ k ∈ (kindsOf s.rest).head?, k ≠ .delimiter) ∧
      trailingDelimiter s = .ok ((), s.note [.delimiter]) := by
  by_cases h : ∀ k ∈ (kindsOf s.rest).head?, k ∉ [Kind.delimiter]
  · refine .inr ⟨by simpa using h, ?_⟩
    exact bind_run_ok (takeAny_of_not_mem h)
  · cases hs : s.rest with
    | nil => simp [hs] at h
    | cons t rest =>
      have ht : t.kind ∈ [Kind.delimiter] := by simpa [hs] using h
      obtain ⟨s', htake, hreach, -⟩ := takeAny_of_mem hs ht
      refine .inl ⟨t, s', by simpa using ht, hreach, ?_⟩
      exact bind_run_ok htake

/-- What comes after the first block of a stack. -/
theorem follows_stackTail (value : List Block → Nat → Stack) :
    Follows n .stack
      (do
        let later ← many (nextBlock? (brackets n) clause)
        let stop ← lastEnd
        trailingDelimiter
        return some (value later stop))
      (.seq stackTail) fun o => o.isSome = true := by
  intro s
  induction hlen : s.rest.length using Nat.strongRecOn generalizing s value with
  | ind len ih =>
    subst hlen
    rw [many_bind (nextBlock?_lt hc)]
    by_cases hgo : scriptTable.goesOn .stack (.seq [.token .delimiter, .rule .block])
        (kindsOf s.rest) = true
    · obtain ⟨t, s', ht, hreach, -, hopens, hrun⟩ := nextBlock?_goesOn n clause hgo
      have hlen : s'.rest.length < s.rest.length := by
        rw [hreach.rest, List.length_append, List.length_singleton]
        omega
      have hnext : ∀ ks, ks.take 2 = (kindsOf s.rest).take 2 → Alike scriptTable n .stack
          (.seq (.token .delimiter :: .rule .block :: stackTail)) n .stack (.seq stackTail) ks :=
        fun ks hk => alike_stackTail_next ((Table.goesOn_stack_congr hk).trans hgo)
      have hread : Done scriptTable n .stack (.token .delimiter) (kindsOf [t])
          (kindsOf s'.rest) [] := done_terminal (List.mem_singleton.2 ht)
      rw [bind_run_congr hrun]
      refine Agrees.weaken (fun _ h => h) (Nat.zero_le 2) (Agrees.congrTake hnext
        (Agrees.prepend (m := 1) (w := [t]) (Nat.le_refl 1) hreach hread
          (((opens_block? hc).taken s' hopens).bindAt fun o s'' hsome hlt => ?_)))
      obtain ⟨b, rfl⟩ := Option.isSome_iff_exists.1 hsome
      exact ih _ (by omega) (fun later stop => value (b :: later) stop) s'' rfl
    · rw [bind_run_ok ((nextBlock?_run s).trans (if_neg hgo))]
      change Agrees _ _ _ _ _ s
        ((trailingDelimiter >>= fun _ => pure (some (value [] s.lastEnd))) (s.note [.delimiter]))
      rcases trailingDelimiter_run (s.note [.delimiter]) with
        ⟨t, s', ht, hreach, hrun⟩ | ⟨hne, hrun⟩
      · rw [bind_run_ok hrun]
        have hreach := hreach.of_note (Nat.le_refl 1)
        have hlead : ∀ k ∈ (kindsOf s'.rest).head?, k ∉ Rule.block.lead := by
          rw [← firstOf_rule, ← Table.opens_eq_false]
          simpa [hreach.rest, Table.goesOn_stack_cons, ht] using hgo
        refine .done rfl (Nat.zero_le _) (hreach.trans Cursor.reaches_note) ?_
        rw [List.append_nil, kindsOf_cons, ht]
        exact done_stackTail_delimiter (opens_block? hc).moves hlead
      · rw [bind_run_ok hrun]
        exact .done rfl (Nat.zero_le _) (Cursor.reaches_note.trans Cursor.reaches_note)
          (done_stackTail_nil hne)

theorem opens_stack? : Opens n r (stack? (brackets n) clause) (.rule .stack) := by
  refine Opens.rule rfl rfl ?_
  unfold stack?
  refine Opens.start fun start => ?_
  refine (opens_block? hc).bind ?_ (fun first => ?_) rfl
  · rw [scriptTable_isNullable]
    rfl
  · exact follows_stackTail hc fun later stop => ⟨first :: later, ⟨start, stop⟩⟩

end Stack

/-- A clause is read as its rule is, with one level less for what is inside. -/
theorem follows_clause : ∀ n r, Follows n r (clause n) (.rule .clause) fun _ => True
  | 0, r => fun s => .tooDeep (w := []) rfl ⟨rfl, rfl, rfl⟩ (.here rfl)
  | n + 1, r => by
    refine Follows.congr (fun _ => .nested rfl rfl) ?_
    unfold clause
    refine (opens_take? .delimiter).optional.bind fun delimiter _ => ?_
    refine (opens_stack? (follows_clause n)).optional.bind fun body _ => ?_
    refine (opens_take? .endWord).optional.bind fun closing _ => ?_
    exact Follows.pure trivial

theorem opens_stackWithin? : Opens n r (stackWithin? n) (.rule .stack) :=
  opens_stack? (follows_clause n)

/-! ## Scripts -/

/-- A remark with the delimiters after it. -/
def remarkLine : Production := .seq [.token .remark, .many (.token .delimiter)]

theorem alike_remarkLines {ks : List Kind} :
    Alike scriptTable n r (.seq [.token .remark, .many (.token .delimiter), .many remarkLine]) n r
      (.seq [remarkLine, .many remarkLine]) ks :=
  Alike.seqAppend [.many remarkLine] [.token .remark, .many (.token .delimiter)]

theorem nextRemark?_lt (s : Cursor) (t : Token) (s' : Cursor)
    (h : nextRemark? s = .ok (some t, s')) : s'.rest.length < s.rest.length := by
  obtain ⟨ts, s₁, hmany, htake⟩ := of_bind_run h
  have hle := ((opens_take? (n := 0) (r := .comments) .delimiter).many (by decide)).length_le hmany
  have hlt := (opens_take? (n := 0) (r := .comments) .remark).lt s₁ t s' htake
  omega

/-- What comes after the first remark of a run: the parser takes delimiters in front of the next
remark where the rule has them after the last one. -/
theorem follows_nextRemarks (value : List Token → Comments) :
    Follows n .comments (do return some (value (← many nextRemark?)))
      (.seq [.many (.token .delimiter), .many remarkLine]) fun o => o.isSome = true := by
  have hopens : ∀ k,
      k ∈ scriptTable.firstOf remarkLine ↔ k ∈ scriptTable.firstOf (.token .remark) :=
    Table.mem_firstOf_seq rfl
  intro s
  induction hlen : s.rest.length using Nat.strongRecOn generalizing s value with
  | ind len ih =>
    subst hlen
    rw [many_bind nextRemark?_lt, nextRemark?, bind_assoc]
    refine ((opens_take? .delimiter).many (by decide) s).bindAt fun _ s' _ hle => ?_
    by_cases ho : scriptTable.opens (.token .remark) (kindsOf s'.rest) = true
    · have hread : ∀ ks, scriptTable.opens (.token .remark) ks = true →
          Alike scriptTable n .comments
            (.seq [.token .remark, .many (.token .delimiter), .many remarkLine]) n .comments
            (.seq [.many remarkLine]) ks := by
        intro ks hk
        have hgo : scriptTable.goesOn .comments remarkLine ks = true := by
          rw [Table.goesOn_of_ne (by decide), Table.opens_congr hopens rfl, hk]
        exact alike_remarkLines.trans ((Alike.many hgo).trans .singleton)
      refine Agrees.weaken (fun _ h => h) (Nat.zero_le 1) (Agrees.congrOpens ho hread
        (((opens_take? .remark).taken s' ho).bindAt fun o s'' hsome hlt => ?_))
      obtain ⟨t, rfl⟩ := Option.isSome_iff_exists.1 hsome
      exact ih _ (by omega) (fun later => value (t :: later)) s'' rfl
    · rw [Bool.not_eq_true] at ho
      have hm : Moves scriptTable n .comments remarkLine := (opens_take? .remark).moves.seq rfl
      obtain ⟨ks, hks, hrun⟩ := (opens_take? (n := n) (r := .comments) .remark).skipped s' ho
      rw [bind_run_ok hrun]
      refine .done rfl (Nat.zero_le _) Cursor.reaches_note ?_
      refine Done.congr (fun _ _ => reads_seq_singleton.symm) ?_
      refine Done.manyEnd (by decide) hm (fun k => (hks k).trans (hopens k).symm) ?_
      rwa [Table.opens_congr hopens rfl]

theorem opens_comments? : Opens n r comments? (.rule .comments) := by
  refine Opens.rule rfl rfl ?_
  have hseq : Opens n .comments comments?
      (.seq [.token .remark, .many (.token .delimiter), .many remarkLine]) := by
    unfold comments?
    refine (opens_take? .remark).bind rfl (fun first => ?_) rfl
    exact follows_nextRemarks fun later =>
      ⟨first :: later, ⟨first.span.start, ((later.getLast?).getD first).span.stop⟩⟩
  refine hseq.congr (fun k => ?_) fun ks _ => alike_remarkLines.trans .atLeastOne
  rw [Table.mem_firstOf_seq rfl, Table.mem_firstOf_atLeastOne, Table.mem_firstOf_seq rfl]

theorem opens_separator? : Opens n r separator? (.choice [.token .delimiter, .rule .comments]) := by
  unfold separator?
  refine (opens_take? .delimiter).orElse (fun a => ⟨_, rfl⟩) ?_
  exact opens_comments?.map.choice

theorem opens_nextSegments? : Opens n .code (nextSegments? (stackWithin? n)) (.seq [
    .atLeastOne (.choice [.token .delimiter, .rule .comments]), .optional (.rule .stack)]) := by
  unfold nextSegments?
  refine opens_separator?.manyThen (by decide) ?_ (fun first later => ?_) rfl
  · rw [scriptTable_isNullable]
    decide
  · refine opens_stackWithin?.optional.bind fun stack _ => ?_
    exact Follows.pure rfl

theorem follows_code (sourceId : Nat) :
    Follows n r (code (stackWithin? n) sourceId) (.rule .code) fun _ => True := by
  refine Follows.rule rfl rfl ?_
  unfold code
  refine Follows.start fun start => ?_
  refine ((opens_take? .delimiter).many (by decide)).bind fun _ _ => ?_
  refine opens_comments?.optional.bind fun comments _ => ?_
  have hsegments : Follows n .code (segments (stackWithin? n))
      (.optional (.seq [.rule .stack, .many (.seq [
        .atLeastOne (.choice [.token .delimiter, .rule .comments]), .optional (.rule .stack)])]))
      fun _ => True := by
    unfold segments
    refine opens_stackWithin?.optionalBind ?_ (fun first => ?_) rfl
    · rw [scriptTable_isNullable]
      rfl
    · refine (opens_nextSegments?.many (by decide)).bind fun later _ => ?_
      exact Follows.pure trivial
  refine hsegments.bind fun segments _ => ?_
  refine Follows.lastEnd fun stop => ?_
  exact Follows.pure trivial

end Parser

end BlockNotation
