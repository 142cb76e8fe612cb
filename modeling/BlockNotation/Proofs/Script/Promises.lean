import BlockNotation.Proofs.Script.Demands
import BlockNotation.Proofs.Script.Faithful

/-!
# Every demand is met

Rule by rule, what a parser of `BlockNotation.Proofs.Script.Committed` demands is there once it was
tested for: the test of a rule, and the tests inside the rule, look at the same token and at the
same kinds. The parsers of one level of nesting are treated under the assumption that those of the
next level demand nothing that is not there.
-/

namespace BlockNotation

namespace Committed

open BlockNotation.Parser (take? takeAny many take)

variable {s s' : Cursor} {n : Nat} (dead : (α : Type) → Rule → List Kind → Parser α)

/-! ## Atomic blocks -/

/-- What an argument holds. -/
def valueParts : Production :=
  .choice [.terminal (.family .literal), .rule .expression, .rule .predicate]

theorem tests_seesValue : Tests seesValue valueParts := by
  have hliteral : Tests (seesAny Family.literal.kinds) (.terminal (.family .literal)) :=
    tests_seesAny fun k => (Table.mem_firstOf_terminal (τ := .family .literal)).symm
  exact hliteral.orElse
    ((tests_seesRule .expression).orElse (tests_seesRule .predicate).choice)

section Atomic

variable {brackets brackets' : Shape → Parser Brackets}

/-- Brackets are read alike wherever one opens. -/
def ServesBrackets (brackets brackets' : Shape → Parser Brackets) : Prop :=
  ∀ shape s s', Beside s s' → scriptTable.opens (.rule shape.rule) (kindsOf s.rest) = true →
    Outcomes same Eq (brackets shape s) (brackets' shape s')

/-- A literal begins no brackets. -/
theorem value_literal {t : Token} {rest : List Token} (hrest : s.rest = t :: rest)
    (ht : t.kind ∈ Family.literal.kinds) : value dead brackets s =
      (takeAny Family.literal.kinds >>= fun o =>
        match o with
        | some token => pure (.literal token)
        | none => dead _ .argument Rule.argument.lead : Parser Value)
      ((s.note Rule.expression.lead).note Rule.predicate.lead) := by
  have hno : ∀ shape : Shape, scriptTable.opens (.rule shape.rule) (kindsOf s.rest) = false := by
    intro shape
    rw [hrest, kindsOf_cons, Table.opens_eq_false]
    rintro k ⟨⟩ hk
    rw [Parser.firstOf_shape, List.mem_singleton] at hk
    rw [hk] at ht
    cases shape <;> exact absurd ht (by decide)
  have hround : seesRule .expression s = .ok (false, s.note Rule.expression.lead) :=
    hno .round ▸ seesRule_run .expression s
  have hangle : seesRule .predicate (s.note Rule.expression.lead) =
      .ok (false, (s.note Rule.expression.lead).note Rule.predicate.lead) :=
    hno .angle ▸ seesRule_run .predicate (s.note Rule.expression.lead)
  rw [value, bind_run_ok hround]
  exact bind_run_ok hangle

variable (hb : ServesBrackets brackets brackets') (hr : Parser.ReadsBrackets n brackets')

section

include hb

theorem meets_brackets (shape : Shape) :
    Meets (brackets shape) (Parser.brackets? brackets' shape) (.rule shape.rule) := by
  intro s s' hs ho
  rw [Parser.brackets?_run, if_pos (hs.rest ▸ ho), ← bind_pure (brackets shape)]
  refine (hb shape s _ (hs.noteRight _) ho).bind fun b b' hbb => Parallel.pure ?_
  rw [hbb]

end

include hb hr

/-- A value that is no literal. -/
theorem meets_bracketed : Meets (value dead brackets)
    (do
      match ← Parser.brackets? brackets' .round with
      | some expression => return some (.bracketed .round expression)
      | none => return (← Parser.brackets? brackets' .angle).map (.bracketed .angle))
    (.choice [.rule .expression, .rule .predicate]) := by
  have hround : Opens n .argument (Parser.brackets? brackets' .round) (.rule .expression) :=
    Parser.opens_brackets? hr .round
  unfold value
  refine Meets.orElse ?_ hround (Meets.last ?_)
  · exact (meets_brackets hb .round).map fun _ => rfl
  · exact (meets_brackets hb .angle).map fun _ => rfl

theorem meets_value : Meets (value dead brackets) (Parser.value? brackets') valueParts := by
  intro s s' hs ho
  -- literals are looked for last on the one side and first on the other
  by_cases hk : ∀ k ∈ (kindsOf s.rest).head?, k ∉ Family.literal.kinds
  · rw [Parser.value?, bind_run_ok (takeAny_of_not_mem (hs.rest ▸ hk))]
    refine meets_bracketed dead hb hr s _ (hs.noteRight _) (opens_choice_tail ho ?_)
    exact Table.opens_eq_false.2 fun k hk' => mt Table.mem_firstOf_terminal.1 (hk k hk')
  · cases hrest : s.rest with
    | nil => simp [hrest] at hk
    | cons t rest =>
      have ht : t.kind ∈ Family.literal.kinds := by simpa [hrest] using hk
      obtain ⟨s₁, hrun, hrun', -⟩ :=
        takeAny_beside ((hs.noteLeft Rule.expression.lead).noteLeft Rule.predicate.lead) hrest ht
      rw [Parser.value?, bind_run_ok hrun', value_literal dead hrest ht, bind_run_ok hrun]
      exact .ok rfl (same_refl s₁)

theorem mirrors_value? : Mirrors (value? dead brackets) (Parser.value? brackets') :=
  (meets_value dead hb hr).joins.mirrors tests_seesValue (Parser.opens_value? (r := .argument) hr)

theorem joins_value? : Joins (value? dead brackets) (Parser.value? brackets') valueParts :=
  (meets_value dead hb hr).joins.tested tests_seesValue

theorem meets_argument :
    Meets (argument dead brackets) (Parser.argument? brackets') (.rule .argument) := by
  intro s s' hs ho
  refine take?_beside hs (fun opening => ?_) fun hk => ?_
  · refine (mirrors_value? dead hb hr).bind fun value => ?_
    refine (mirrors_take? .identifier).bind fun id => ?_
    exact (mirrors_take .argument .closeCurly).bind fun closing => .pure rfl
  · have hcurly : scriptTable.opens (.seq [.token .openCurly, .optional valueParts,
        .optional (.token .identifier), .token .closeCurly]) (kindsOf s.rest) = false :=
      (Table.opens_congr (Table.mem_firstOf_seq rfl) rfl).trans hk
    have hv : scriptTable.opens valueParts (kindsOf s.rest) = true :=
      opens_choice_tail (opens_definition (ρ := .argument) rfl ho) hcurly
    refine (joins_value? dead hb hr _ _ ((hs.noteLeft _).noteRight _) hv).bind fun o o' hoo => ?_
    obtain ⟨value, rfl, rfl⟩ := hoo
    exact Parallel.pure rfl

theorem mirrors_argument : Mirrors (argument dead brackets) (Parser.argument brackets') := by
  unfold Parser.argument Parser.argument?
  rw [bind_assoc]
  refine (mirrors_take? .openCurly).bind fun o => ?_
  cases o with
  | some opening =>
    simp only [bind_assoc, pure_bind]
    refine (mirrors_value? dead hb hr).bind fun value => ?_
    refine (mirrors_take? .identifier).bind fun id => ?_
    exact (mirrors_take .argument .closeCurly).bind fun closing => .pure rfl
  | none =>
    simp only [bind_assoc, pure_bind]
    refine (mirrors_value? dead hb hr).bind fun o => ?_
    cases o with
    | some value => exact .pure rfl
    | none => exact Parallel.fail

theorem mirrors_condition : Mirrors (condition brackets) (Parser.condition brackets') := by
  have hpredicate : Mirrors (ifSeen .predicate (brackets .angle))
      (Parser.brackets? brackets' .angle) :=
    mirrors_ifSeen (meets_brackets hb .angle) (Parser.opens_brackets? (r := .condition) hr .angle)
  unfold Parser.condition Parser.condition?
  rw [bind_assoc]
  refine (mirrors_take? .openCurly).bind fun o => ?_
  cases o with
  | some opening =>
    simp only [bind_assoc, pure_bind]
    refine hpredicate.bind fun predicate => ?_
    refine (mirrors_take? .identifier).bind fun id => ?_
    exact (mirrors_take .condition .closeCurly).bind fun closing => .pure rfl
  | none =>
    simp only [bind_assoc, pure_bind]
    refine hpredicate.bind fun o => ?_
    cases o with
    | some predicate => exact .pure rfl
    | none => exact Parallel.fail

theorem mirrors_element? : Mirrors (element? dead brackets) (Parser.element? brackets') := by
  have hargument : Mirrors (ifSeen .argument (argument dead brackets))
      (Parser.argument? brackets') :=
    mirrors_ifSeen (meets_argument dead hb hr) (Parser.opens_argument? (r := .atomic) hr)
  refine (mirrors_take? .label).bind fun o => ?_
  cases o with
  | some token => exact .pure rfl
  | none => exact hargument.bind fun argument => .pure rfl

theorem joins_element? : Joins (element? dead brackets) (Parser.element? brackets')
    (.choice [.token .label, .rule .argument]) := by
  refine joins_take? (fun token => .pure ⟨_, rfl, rfl⟩) ?_
  exact (joins_ifSeen (meets_argument dead hb hr)).map.choice

theorem meets_atomic : Meets (atomic dead brackets) (Parser.atomic? brackets') (.rule .atomic) := by
  refine Meets.start fun start => ?_
  intro s s' hs ho
  have helement : scriptTable.opens (.choice [.token .label, .rule .argument]) (kindsOf s.rest)
      = true := by
    rw [← opens_definition (ρ := .atomic) rfl ho]
    refine Table.opens_congr (fun k => (Table.mem_firstOf_seq_atLeastOne ?_ k).symm) rfl
    rw [scriptTable_isNullable]
    decide
  refine (many_beside (mirrors_element? dead hb hr) (joins_element? dead hb hr)
    (Parser.opens_element? (r := .atomic) hr) (by decide) hs helement).bind fun elements _ hee => ?_
  obtain ⟨rfl, hne⟩ := hee
  rw [if_neg (by simpa using hne), if_neg (by simpa using hne)]
  refine mirrors_modifier?.bind fun modifier => ?_
  refine mirrors_annotations?.bind fun annotations => ?_
  exact Mirrors.lastEnd fun stop => .pure rfl

end Atomic

/-- Brackets are read alike, however many levels are left. -/
theorem servesBrackets : ∀ n, ServesBrackets (brackets dead n) (Parser.brackets n)
  | 0 => fun shape s s' hs _ => .error (hs.fails _)
  | n + 1 => by
    intro shape s s' hs ho
    have htoken : scriptTable.opens (.token shape.opening) (kindsOf s.rest) = true := by
      rw [← ho]
      refine Table.opens_congr (fun k => ?_) rfl
      rw [Parser.firstOf_shape, Table.mem_firstOf_token, List.mem_singleton]
    obtain ⟨t, s₁, hrun, hrun'⟩ := opening_beside dead (ρ := shape.rule) hs htoken
    have htake : take shape.rule shape.opening s' = .ok (t, s₁) := bind_run_ok hrun'
    rw [brackets, Parser.brackets, Parser.bracketsOf, bind_run_ok hrun, bind_run_ok htake]
    have hr := Parser.readsBrackets n
    have hatomic : Mirrors (ifSeen .atomic (atomic dead (brackets dead n)))
        (Parser.atomic? (Parser.brackets n)) :=
      mirrors_ifSeen (meets_atomic dead (servesBrackets n) hr)
        (Parser.opens_atomic? (r := .atomic) hr)
    refine Outcomes.bind (hatomic s₁ s₁ (same_refl s₁)) fun atomic _ hsame => ?_
    subst hsame
    exact (mirrors_take _ _).bind fun closing => .pure rfl

/-! ## Stacks -/

section Stack

variable {clause clause' : Parser Clause} (hm : Mirrors clause clause')
  (hc : ∀ r, Follows n r clause' (.rule .clause) fun _ => True)

section

include hm

theorem meets_ifElse :
    Meets (ifElse dead n clause) (Parser.ifElse? (Parser.brackets n) clause') (.rule .ifElse) := by
  refine Meets.start fun start => meets_opening dead rfl fun keyword => ?_
  have hr := Parser.readsBrackets n
  refine (mirrors_condition (servesBrackets dead n) hr).bind fun condition => ?_
  refine (mirrors_take? .thenWord).bind fun thenWord => ?_
  refine mirrors_annotations?.bind fun annotations => ?_
  refine hm.bind fun body => ?_
  refine (mirrors_elseBranch? hm).bind fun otherwise => ?_
  exact Mirrors.lastEnd fun stop => .pure rfl

/-- A loop demands no more than its keyword. -/
theorem meets_loop {α : Type} {ρ : Rule} {word : Kind} (hρ : ρ.lead = [word])
    {head head' : Parser α} (hhead : Mirrors head head')
    (make : Token → α → Option Annotations → Clause → Span → Composite) :
    Meets (loop dead clause ρ word head make) (Parser.loop? clause' word head' make)
      (.rule ρ) := by
  refine Meets.start fun start => meets_opening dead hρ fun keyword => ?_
  refine hhead.bind fun head => ?_
  refine mirrors_annotations?.bind fun annotations => ?_
  refine hm.bind fun body => ?_
  exact Mirrors.lastEnd fun stop => .pure rfl

theorem meets_forever : Meets (forever dead clause) (Parser.forever? clause') (.rule .forever) :=
  meets_loop dead hm rfl (.pure rfl) _

theorem meets_repeatTimes :
    Meets (repeatTimes dead n clause) (Parser.repeatTimes? (Parser.brackets n) clause')
      (.rule .repeatTimes) :=
  meets_loop dead hm rfl
    (mirrors_argument dead (servesBrackets dead n) (Parser.readsBrackets n)) _

theorem meets_repeatUntil :
    Meets (repeatUntil dead n clause) (Parser.repeatUntil? (Parser.brackets n) clause')
      (.rule .repeatUntil) :=
  meets_loop dead hm rfl (mirrors_condition (servesBrackets dead n) (Parser.readsBrackets n)) _

end

include hm hc

theorem meets_composite :
    Meets (composite dead n clause) (Parser.composite? (Parser.brackets n) clause')
      (.rule .composite) := by
  have hchoice : Meets (composite dead n clause) (Parser.composite? (Parser.brackets n) clause')
      (.choice [.rule .ifElse, .rule .forever, .rule .repeatTimes, .rule .repeatUntil]) := by
    unfold composite Parser.composite?
    refine Meets.orElse ?_ (Parser.opens_ifElse? (r := .composite) hc) ?_
    · exact (meets_ifElse dead hm).keep fun _ => rfl
    refine Meets.orElse ?_ (Parser.opens_forever? (r := .composite) hc) ?_
    · exact (meets_forever dead hm).keep fun _ => rfl
    refine Meets.orElse ?_ (Parser.opens_repeatTimes? (r := .composite) hc) ?_
    · exact (meets_repeatTimes dead hm).keep fun _ => rfl
    exact (meets_repeatUntil dead hm).last
  exact hchoice.congr fun k => by rw [firstOf_definition (ρ := .composite) rfl]

theorem meets_block :
    Meets (block dead n clause) (Parser.block? (Parser.brackets n) clause') (.rule .block) := by
  have hr := Parser.readsBrackets n
  have hchoice : Meets (block dead n clause) (Parser.block? (Parser.brackets n) clause')
      (.choice [.rule .atomic, .rule .composite]) := by
    unfold block Parser.block?
    refine Meets.orElse ?_ (Parser.opens_atomic? (r := .block) hr) ?_
    · exact (meets_atomic dead (servesBrackets dead n) hr).map fun _ => rfl
    · exact Meets.last ((meets_composite dead hm hc).map fun _ => rfl)
  exact hchoice.congr fun k => by rw [firstOf_definition (ρ := .block) rfl]

/-- Where a delimiter and the beginning of a block come next, both are taken. -/
theorem mirrors_nextBlock? :
    Mirrors (nextBlock? dead n clause) (Parser.nextBlock? (Parser.brackets n) clause') := by
  intro s s' hs
  rw [nextBlock?, bind_run_ok (Parser.seesNextBlock_run s), Parser.nextBlock?,
    bind_run_ok (Parser.seesNextBlock_run s'), ← hs.1.rest]
  have hnoted : same.cursor (s.note [.delimiter]) (s'.note [.delimiter]) :=
    same_note hs fun _ => .rfl
  cases hgo : scriptTable.goesOn .stack (.seq [.token .delimiter, .rule .block]) (kindsOf s.rest)
    with
  | false => exact .ok rfl hnoted
  | true =>
    cases hrest : s.rest with
    | nil => simp [hrest, Table.goesOn_stack_nil] at hgo
    | cons t rest =>
      rw [hrest, kindsOf_cons, Table.goesOn_stack_cons, Bool.and_eq_true, decide_eq_true_eq] at hgo
      obtain ⟨s₁, hrun, hrun', hs₁⟩ :=
        takeAny_beside hnoted.1 hrest (List.mem_singleton.2 hgo.1)
      rw [if_pos rfl, if_pos rfl, bind_run_ok (p := take? .delimiter) hrun,
        bind_run_ok (p := take? .delimiter) hrun']
      exact (meets_block dead hm hc).joins.eq (.refl s₁) (hs₁ ▸ hgo.2)

theorem meets_stack :
    Meets (stack dead n clause) (Parser.stack? (Parser.brackets n) clause') (.rule .stack) := by
  have hblock : Meets (stack dead n clause) (Parser.stack? (Parser.brackets n) clause')
      (.rule .block) := by
    refine Meets.start fun start => (meets_block dead hm hc).bind fun first => ?_
    refine (mirrors_nextBlock? dead hm hc).many.bind fun later => ?_
    refine Mirrors.lastEnd fun stop => ?_
    exact mirrors_trailingDelimiter.bind fun _ => .pure rfl
  exact hblock.congr fun k => by rw [firstOf_rule, firstOf_rule]; rfl

theorem mirrors_ifSeen_stack :
    Mirrors (ifSeen .stack (stack dead n clause)) (Parser.stack? (Parser.brackets n) clause') :=
  mirrors_ifSeen (meets_stack dead hm hc) (Parser.opens_stack? (r := .clause) hc)

end Stack

theorem mirrors_clause : ∀ n, Mirrors (clause dead n) (Parser.clause n)
  | 0 => Parallel.fail
  | n + 1 => by
    refine (mirrors_take? .delimiter).bind fun delimiter => ?_
    refine (mirrors_ifSeen_stack dead (mirrors_clause n) (Parser.follows_clause n)).bind
      fun body => ?_
    exact (mirrors_take? .endWord).bind fun closing => .pure rfl

/-! ## Scripts -/

theorem mirrors_nextStack (n : Nat) :
    Mirrors (ifSeen .stack (stack dead n (clause dead n))) (Parser.stackWithin? n) :=
  mirrors_ifSeen_stack dead (mirrors_clause dead n) (Parser.follows_clause n)

theorem meets_comments : Meets (comments dead) Parser.comments? (.rule .comments) := by
  refine meets_opening dead rfl fun first => ?_
  exact mirrors_nextRemark?.many.bind fun later => .pure rfl

theorem tests_seesSeparator : Tests seesSeparator Parser.separator := by
  have hdelimiter : Tests (seesAny [.delimiter]) (.token .delimiter) :=
    tests_seesAny fun k => by simp
  exact hdelimiter.orElse (tests_seesRule .comments).choice

theorem joins_separator : Joins (separator dead) Parser.separator? Parser.separator := by
  unfold separator Parser.separator?
  refine joins_take? (fun _ => .pure ⟨_, rfl, rfl⟩) ?_
  exact Joins.choice (Meets.joinsMap (meets_comments dead) fun _ => rfl)

theorem joins_separator? : Joins (separator? dead) Parser.separator? Parser.separator :=
  (joins_separator dead).tested tests_seesSeparator

theorem mirrors_separator? : Mirrors (separator? dead) Parser.separator? :=
  (joins_separator dead).mirrors tests_seesSeparator (Parser.opens_separator? (n := 0) (r := .code))

theorem mirrors_nextSegments? (n : Nat) :
    Mirrors (nextSegments? dead n) (Parser.nextSegments? (Parser.stackWithin? n)) := by
  have hopens := Parser.opens_nextSegments? (n := n)
  have hf : ∀ k, k ∈ scriptTable.firstOf Parser.separator ↔ k ∈ scriptTable.firstOf
      (.seq [.atLeastOne Parser.separator, .optional (.rule .stack)]) := by
    refine fun k => (Table.mem_firstOf_seq_atLeastOne ?_ k).symm
    rw [scriptTable_isNullable]
    decide
  refine Joins.mirrors ?_ (tests_seesSeparator.congr hf) hopens
  intro s s' hs ho
  rw [← Table.opens_congr hf rfl] at ho
  refine (many_beside (mirrors_separator? dead) (joins_separator? dead)
    (Parser.opens_separator? (n := 0) (r := .code)) (by decide) hs ho).bind fun found _ hff => ?_
  obtain ⟨rfl, hne⟩ := hff
  rw [if_neg (by simpa using hne)]
  exact (mirrors_nextStack dead n).bind fun stack => .pure ⟨_, rfl, rfl⟩

theorem mirrors_segments (n : Nat) :
    Mirrors (segments dead n) (Parser.segments (Parser.stackWithin? n)) := by
  refine (mirrors_nextStack dead n).bind fun o => ?_
  cases o with
  | none => exact .pure rfl
  | some first => exact (mirrors_nextSegments? dead n).many.bind fun later => .pure rfl

theorem mirrors_code (n id : Nat) :
    Mirrors (code dead n id) (Parser.code (Parser.stackWithin? n) id) := by
  refine Mirrors.start fun start => ?_
  refine (mirrors_take? .delimiter).many.bind fun _ => ?_
  have hcomments : Mirrors (ifSeen .comments (comments dead)) Parser.comments? :=
    mirrors_ifSeen (meets_comments dead) (Parser.opens_comments? (n := n) (r := .code))
  refine hcomments.bind fun comments => ?_
  refine (mirrors_segments dead n).bind fun segments => ?_
  exact Mirrors.lastEnd fun stop => .pure rfl

theorem mirrors_script (n id : Nat) : Mirrors (script dead n id) (Parser.script n id) :=
  (mirrors_code dead n id).bind fun _ => mirrors_finish.bind fun _ => .pure rfl

/-- The failures of a demand that was tested for are never reached. -/
theorem script_eq (n id : Nat) (s : Cursor) :
    (script dead n id s).map Prod.fst = (Parser.script n id s).map Prod.fst := by
  have h := mirrors_script dead n id s s (same_refl s)
  generalize script dead n id s = res, Parser.script n id s = res' at h
  cases h with
  | ok value cursor => exact congrArg Except.ok value
  | error failure => exact congrArg Except.error failure

end Committed

end BlockNotation
