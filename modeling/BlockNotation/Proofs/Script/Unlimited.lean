import BlockNotation.Proofs.Script.Advancing
import BlockNotation.Proofs.Script.Limit

/-!
# Parsing without a limit

Brackets nest an atomic block and clauses nest a stack. Whichever parsers are given for these,
they are used only behind a token that was taken (`guarded_atomic?`, `guarded_stack?`). So the
parsers that nest themselves exist without any limit, by recursion on the tokens that are left
(`Parser.Unlimited`), and parsing within more levels than there are tokens is the same
(`unlimited_total`).
-/

namespace BlockNotation

namespace Parser

variable {k : Nat} {s : Cursor} {atomic atomic' : Parser (Option Atomic)}
  {stack stack' : Parser (Option Stack)} {b b' : Shape → Parser Brackets} {c c' : Parser Clause}

/-! ## Atomic blocks -/

section Atomic

variable (hb : ∀ shape, AgreeFrom k s (fun _ => 1) (b shape) (b' shape))

include hb

theorem agree_brackets? (shape : Shape) :
    AgreeFrom k s given (brackets? b shape) (brackets? b' shape) := by
  unfold brackets?
  refine .after (takes_sees _) fun seen => ?_
  cases seen with
  | true => exact (hb shape).bind fun _ => .pure rfl
  | false => exact .pure rfl

theorem agree_value? : AgreeFrom k s given (value? b) (value? b') := by
  unfold value?
  refine .after (takes_takeAny _) fun token => ?_
  cases token with
  | some token => exact .pure rfl
  | none =>
    refine (agree_brackets? hb .round).bind fun expression => ?_
    cases expression with
    | some expression => exact .pure rfl
    | none =>
      refine (agree_brackets? hb .angle).bind fun predicate => ?_
      cases predicate <;> exact .pure rfl

theorem agree_argument? : AgreeFrom k s given (argument? b) (argument? b') := by
  unfold argument?
  refine .after (takes_take? _) fun opening => ?_
  cases opening with
  | some opening =>
    refine ((agree_value? hb).mono (Nat.le_add_right k 1)).bind fun value => ?_
    refine .after (takes_take? _) fun id => .after (takes_take _ _) fun closing => .pure ?_
    simp [given]
  | none =>
    refine (agree_value? hb).bind fun value => ?_
    cases value <;> exact .pure rfl

theorem agree_argument : AgreeFrom k s (fun _ => 1) (argument b) (argument b') := by
  unfold argument
  refine (agree_argument? hb).bind fun argument => ?_
  cases argument with
  | some argument => exact .pure rfl
  | none => exact .fail

theorem agree_condition? : AgreeFrom k s given (condition? b) (condition? b') := by
  unfold condition?
  refine .after (takes_take? _) fun opening => ?_
  cases opening with
  | some opening =>
    refine ((agree_brackets? hb .angle).mono (Nat.le_add_right k 1)).bind fun predicate => ?_
    refine .after (takes_take? _) fun id => .after (takes_take _ _) fun closing => .pure ?_
    simp [given]
  | none =>
    refine (agree_brackets? hb .angle).bind fun predicate => ?_
    cases predicate <;> exact .pure rfl

theorem agree_condition : AgreeFrom k s (fun _ => 1) (condition b) (condition b') := by
  unfold condition
  refine (agree_condition? hb).bind fun condition => ?_
  cases condition with
  | some condition => exact .pure rfl
  | none => exact .fail

theorem agree_element? : AgreeFrom k s given (element? b) (element? b') := by
  unfold element?
  refine .after (takes_take? _) fun token => ?_
  cases token with
  | some token => exact .pure rfl
  | none =>
    refine (agree_argument? hb).bind fun argument => ?_
    cases argument <;> exact .pure rfl

end Atomic

theorem takes_modifier? : Takes given modifier? := by
  refine .of_agreeFrom fun s => .after (takes_take? _) fun marker => ?_
  cases marker with
  | some marker => exact .after (takes_take _ _) fun label => .pure rfl
  | none => exact .pure rfl

theorem takes_annotations? : Takes given annotations? := by
  refine .of_agreeFrom fun s => .after (takes_take? _) fun remark => ?_
  cases remark with
  | some remark => exact .after (takes_take? _) fun id => .pure (by simp [given])
  | none =>
    refine .after (takes_take? _) fun id => ?_
    cases id with
    | some id => exact .after (takes_take? _) fun remark => .pure (by simp [given])
    | none => exact .pure rfl

theorem agree_atomic? (hb : ∀ shape, AgreeFrom k s (fun _ => 1) (b shape) (b' shape)) :
    AgreeFrom k s given (atomic? b) (atomic? b') := by
  unfold atomic?
  refine .after takes_start fun start => (agree_element? hb).many.bind fun elements => ?_
  cases elements with
  | nil => exact .pure rfl
  | cons element elements =>
    refine .after takes_modifier? fun modifier => .after takes_annotations? fun annotations => ?_
    exact .after takes_lastEnd fun stop => .pure (by simp [given])

/-- Brackets take their opening token first. -/
theorem agree_brackets (h : AgreeFrom (k + 1) s (fun _ => 0) atomic atomic') (shape : Shape) :
    AgreeFrom k s (fun _ => 1) (bracketsOf atomic shape) (bracketsOf atomic' shape) := by
  unfold bracketsOf
  refine .after (takes_take _ _) fun opening => h.bind fun atomic => ?_
  exact .after (takes_take _ _) fun closing => .pure rfl

/-! ## Stacks -/

/-- A clause may take nothing at all. -/
theorem agree_clause (h : AgreeFrom k s (fun _ => 0) stack stack') :
    AgreeFrom k s (fun _ => 0) (clauseOf stack) (clauseOf stack') := by
  unfold clauseOf
  refine .after (takes_take? _) fun delimiter => ?_
  refine (h.mono (Nat.le_add_right _ _)).bind fun body => ?_
  exact .after (takes_take? _) fun closing => .pure (by simp)

section Stack

variable (hb : ∀ shape, AgreeFrom k s (fun _ => 1) (b shape) (b' shape))
  (hc : AgreeFrom (k + 1) s (fun _ => 0) c c')

include hc in
theorem agree_elseBranch? : AgreeFrom k s given (elseBranch? c) (elseBranch? c') := by
  unfold elseBranch?
  refine .after (takes_take? _) fun keyword => ?_
  cases keyword with
  | some keyword => exact hc.bind fun clause => .pure rfl
  | none => exact .pure rfl

include hc in
theorem agree_loop? {α : Type} {w : α → Nat} {head head' : Parser α}
    (hhead : AgreeFrom k s w head head') (word : Kind)
    (make : Token → α → Option Annotations → Clause → Span → Composite) :
    AgreeFrom k s given (loop? c word head make) (loop? c' word head' make) := by
  unfold loop?
  refine .after takes_start fun start => .after (takes_take? _) fun keyword => ?_
  cases keyword with
  | some keyword =>
    refine (hhead.mono (Nat.le_add_right k 1)).bind fun head => ?_
    refine .after takes_annotations? fun annotations => ?_
    refine (hc.mono (by simp only [given]; omega)).bind fun body => ?_
    exact .after takes_lastEnd fun stop => .pure (by simp [given])
  | none => exact .pure rfl

include hc in
theorem agree_forever? : AgreeFrom k s given (forever? c) (forever? c') := by
  have hhead : AgreeFrom k s (fun _ => 0) (pure () : Parser Unit) (pure ()) := .pure rfl
  exact agree_loop? hc hhead _ _

include hb hc

theorem agree_ifElse? : AgreeFrom k s given (ifElse? b c) (ifElse? b' c') := by
  unfold ifElse?
  refine .after takes_start fun start => .after (takes_take? _) fun keyword => ?_
  cases keyword with
  | some keyword =>
    refine ((agree_condition hb).mono (Nat.le_add_right k 1)).bind fun condition => ?_
    refine .after (takes_take? _) fun thenWord => .after takes_annotations? fun annotations => ?_
    refine (hc.mono (by simp only [given]; omega)).bind fun body => ?_
    refine ((agree_elseBranch? hc).mono (by simp only [given]; omega)).bind fun otherwise => ?_
    exact .after takes_lastEnd fun stop => .pure (by simp [given])
  | none => exact .pure rfl

theorem agree_repeatTimes? : AgreeFrom k s given (repeatTimes? b c) (repeatTimes? b' c') :=
  agree_loop? hc (agree_argument hb) _ _

theorem agree_repeatUntil? : AgreeFrom k s given (repeatUntil? b c) (repeatUntil? b' c') :=
  agree_loop? hc (agree_condition hb) _ _

theorem agree_composite? :
    AgreeFrom k s given (composite? b c) (composite? b' c') := by
  unfold composite?
  refine (agree_ifElse? hb hc).bind fun ifElse => ?_
  cases ifElse with
  | some composite => exact .pure rfl
  | none =>
    refine (agree_forever? hc).bind fun forever => ?_
    cases forever with
    | some composite => exact .pure rfl
    | none =>
      refine (agree_repeatTimes? hb hc).bind fun repeatTimes => ?_
      cases repeatTimes with
      | some composite => exact .pure rfl
      | none => exact agree_repeatUntil? hb hc

theorem agree_block? : AgreeFrom k s given (block? b c) (block? b' c') := by
  unfold block?
  refine (agree_atomic? hb).bind fun atomic => ?_
  cases atomic with
  | some atomic => exact .pure rfl
  | none =>
    refine (agree_composite? hb hc).bind fun composite => ?_
    cases composite <;> exact .pure rfl

theorem agree_nextBlock? :
    AgreeFrom k s given (nextBlock? b c) (nextBlock? b' c') := by
  have hsees : Takes (fun _ => 0) seesNextBlock := by
    rintro s _ _ ⟨⟩
    exact .note s _
  unfold nextBlock?
  refine .after hsees fun seen => ?_
  cases seen with
  | false => exact .pure rfl
  | true =>
    refine .after (takes_take? _) fun delimiter => ?_
    exact ((agree_block? hb hc).mono (Nat.le_add_right k _)).weaken fun _ => Nat.sub_le _ _

theorem agree_stack? : AgreeFrom k s given (stack? b c) (stack? b' c') := by
  have htrailing : Takes (fun _ => 0) trailingDelimiter := by
    refine .of_agreeFrom fun s => .after (takes_take? _) fun delimiter => ?_
    cases delimiter with
    | none => exact .pure rfl
    | some delimiter => exact ((takes_note _).agreeFrom _ _).weaken fun _ => Nat.zero_le _
  unfold stack?
  refine .after takes_start fun start => (agree_block? hb hc).bind fun first => ?_
  cases first with
  | none => exact .pure rfl
  | some first =>
    refine ((agree_nextBlock? hb hc).many.mono (Nat.le_add_right k 1)).bind fun later => ?_
    exact .after takes_lastEnd fun stop => .after htrailing fun _ => .pure (by simp [given])

end Stack

/-- What is nested in atomic blocks, blocks and stacks is used only behind a token that was
taken. -/
theorem agree_nested (ha : AgreeFrom 1 s given atomic atomic')
    (hs : AgreeFrom 1 s given stack stack') :
    AgreeFrom 0 s given (atomic? (bracketsOf atomic)) (atomic? (bracketsOf atomic')) ∧
    AgreeFrom 0 s given (block? (bracketsOf atomic) (clauseOf stack))
      (block? (bracketsOf atomic') (clauseOf stack')) ∧
    AgreeFrom 0 s given (stack? (bracketsOf atomic) (clauseOf stack))
      (stack? (bracketsOf atomic') (clauseOf stack')) := by
  have hb := agree_brackets (ha.weaken fun _ => Nat.zero_le _)
  have hc := agree_clause (hs.weaken fun _ => Nat.zero_le _)
  exact ⟨agree_atomic? hb, agree_block? hb hc, agree_stack? hb hc⟩

/-! ## Scripts -/

theorem takes_nextRemark? : Takes given nextRemark? := by
  refine .of_agreeFrom fun s => ?_
  refine (((takes_take? _).agreeFrom 0 s).many).bind fun delimiters => ?_
  exact ((takes_take? _).agreeFrom _ s).weaken fun _ => Nat.sub_le _ _

theorem takes_comments? : Takes given comments? := by
  refine .of_agreeFrom fun s => .after (takes_take? _) fun first => ?_
  cases first with
  | none => exact .pure rfl
  | some first =>
    exact (takes_nextRemark?.agreeFrom _ s).many.bind fun later => .pure (by simp [given])

theorem takes_separator? : Takes given separator? := by
  refine .of_agreeFrom fun s => .after (takes_take? _) fun delimiter => ?_
  cases delimiter with
  | some delimiter => exact .pure rfl
  | none =>
    refine .after takes_comments? fun comments => ?_
    cases comments <;> exact .pure rfl

section Script

variable (h : AgreeFrom k s given stack stack')

include h

theorem agree_nextSegments? :
    AgreeFrom k s given (nextSegments? stack) (nextSegments? stack') := by
  unfold nextSegments?
  refine (takes_separator?.agreeFrom k s).many.bind fun separators => ?_
  cases separators with
  | nil => exact .pure rfl
  | cons separator separators =>
    exact (h.mono (Nat.le_add_right k _)).bind fun stack => .pure (by simp [given])

theorem agree_segments :
    AgreeFrom k s (fun _ => 0) (segments stack) (segments stack') := by
  unfold segments
  refine h.bind fun first => ?_
  cases first with
  | none => exact .pure rfl
  | some first =>
    refine ((agree_nextSegments? h).many.mono (Nat.le_add_right k 1)).bind fun later => ?_
    exact .pure (by simp)

theorem agree_code (id : Nat) :
    AgreeFrom k s (fun _ => 0) (code stack id) (code stack' id) := by
  unfold code
  refine .after takes_start fun start => ?_
  refine (((takes_take? _).agreeFrom _ s).many).bind fun delimiters => ?_
  refine .after takes_comments? fun comments => ?_
  refine ((agree_segments h).mono (by omega)).bind fun segments => ?_
  exact .after takes_lastEnd fun stop => .pure (by simp)

theorem agree_script (id : Nat) :
    AgreeFrom k s (fun _ => 0) (scriptOf stack id) (scriptOf stack' id) := by
  have hget : Takes (fun _ => 0) (get : Parser Cursor) := by
    rintro s _ _ ⟨⟩
    exact .refl s
  have hfinish : Takes (fun _ => 0) finish := by
    refine .of_agreeFrom fun s => .after hget fun cursor => ?_
    split
    · exact .pure rfl
    · exact .fail
  exact (agree_code h id).bind fun code => .after hfinish fun _ => .pure rfl

end Script

/-! ## Parsers that nest themselves -/

namespace Unlimited

def atomic? : Parser (Option Atomic) := fix fun atomic => Parser.atomic? (bracketsOf atomic)

def brackets (shape : Shape) : Parser Brackets := bracketsOf atomic? shape

def stack? : Parser (Option Stack) := fix fun stack => Parser.stack? brackets (clauseOf stack)

def clause : Parser Clause := clauseOf stack?

def block? : Parser (Option Block) := Parser.block? brackets clause

def script (sourceId : Nat) : Parser Code := scriptOf stack? sourceId

end Unlimited

theorem guarded_atomic? : Guarded given fun atomic => atomic? (bracketsOf atomic) :=
  fun _ _ _ h => agree_atomic? (agree_brackets (h.weaken fun _ => Nat.zero_le _))

theorem takes_unlimited_atomic? : Takes given Unlimited.atomic? := guarded_atomic?.takes

theorem takes_unlimited_brackets (shape : Shape) : Takes (fun _ => 1) (Unlimited.brackets shape) :=
  .of_agreeFrom fun s => agree_brackets
    ((takes_unlimited_atomic?.agreeFrom 1 s).weaken fun _ => Nat.zero_le _) shape

theorem guarded_stack? :
    Guarded given fun stack => stack? Unlimited.brackets (clauseOf stack) :=
  fun s _ _ h => (agree_nested (takes_unlimited_atomic?.agreeFrom 1 s) h).2.2

theorem takes_unlimited_stack? : Takes given Unlimited.stack? := guarded_stack?.takes

theorem takes_unlimited_clause : Takes (fun _ => 0) Unlimited.clause :=
  .of_agreeFrom fun s => agree_clause
    ((takes_unlimited_stack?.agreeFrom 0 s).weaken fun _ => Nat.zero_le _)

theorem unlimited_atomic?_eq : Unlimited.atomic? = atomic? Unlimited.brackets :=
  guarded_atomic?.fix_eq

theorem unlimited_stack?_eq :
    Unlimited.stack? = stack? Unlimited.brackets Unlimited.clause :=
  guarded_stack?.fix_eq

/-! ## More levels than tokens -/

/-- Brackets with a level for every token. -/
theorem agree_brackets_unlimited : ∀ {n : Nat} {s : Cursor}, s.ahead < n → ∀ shape,
    AgreeFrom 0 s (fun _ => 1) (brackets n shape) (Unlimited.brackets shape)
  | 0, _, h, _ => absurd h (Nat.not_lt_zero _)
  | n + 1, s, h, shape => by
    have hatomic : AgreeFrom 1 s given (atomic? (brackets n)) Unlimited.atomic? := by
      intro s₁ hs
      have hle := hs.ahead_le
      rw [unlimited_atomic?_eq]
      exact agree_atomic? (agree_brackets_unlimited (by omega)) s₁ (.refl s₁)
    rw [brackets]
    exact agree_brackets (hatomic.weaken fun _ => Nat.zero_le _) shape

/-- A clause may be entered with no fewer tokens left than the brackets or stack around it; so it
is given two levels for every token. -/
theorem agree_clause_unlimited : ∀ {n : Nat} {s : Cursor}, 2 * s.ahead + 1 < n →
    AgreeFrom 0 s (fun _ => 0) (clause n) Unlimited.clause
  | 0, _, h => absurd h (Nat.not_lt_zero _)
  | n + 1, s, h => by
    have hstack : AgreeFrom 0 s given (stack? (brackets n) (clause n)) Unlimited.stack? := by
      rw [unlimited_stack?_eq]
      refine agree_stack? (agree_brackets_unlimited (by omega)) fun s₁ hs => ?_
      have hle := hs.ahead_le
      exact agree_clause_unlimited (by omega) s₁ (.refl s₁)
    rw [clause]
    exact agree_clause (hstack.weaken fun _ => Nat.zero_le _)

theorem script_eq_unlimited {n id : Nat} {s : Cursor} (h : 2 * s.ahead + 1 < n) :
    script n id s = Unlimited.script id s := by
  have hstack : AgreeFrom 0 s given (stackWithin? n) Unlimited.stack? := by
    rw [unlimited_stack?_eq]
    exact agree_stack? (agree_brackets_unlimited (by omega))
      ((agree_clause_unlimited h).mono (Nat.zero_le 1))
  exact (agree_script hstack id s (.refl s)).1

end Parser

variable {ts : List Token} {id m : Nat}

/-- With more levels than tokens, the parser with a limit is the parser without one. -/
theorem parseTokensWithin_eq_script (h : ts.length < m) : parseTokensWithin m ts id =
    match Parser.Unlimited.script id (.ofTokens ts) with
    | .ok (code, _) => .ok code
    | .error failure => .error (failure.toError m) := by
  have hlevels : 2 * (Cursor.ofTokens ts).ahead + 1 < m + (2 * ts.length + 2) := by
    change 2 * ts.length + 1 < _
    omega
  have hmany : parseTokensWithin m ts id = parseTokensWithin (m + (2 * ts.length + 2)) ts id :=
    (parseTokensWithin_eq_unlimited h).trans (parseTokensWithin_eq_unlimited (by omega)).symm
  have hnone : ∀ d, parseTokensWithin (m + (2 * ts.length + 2)) ts id ≠ .error (.tooDeep d) :=
    parseTokensWithin_ne_tooDeep (by omega)
  rw [hmany]
  unfold parseTokensWithin at hnone ⊢
  rw [Parser.script_eq_unlimited hlevels] at hnone ⊢
  cases hrun : Parser.Unlimited.script id (.ofTokens ts) with
  | ok x => rfl
  | error f =>
    rw [hrun] at hnone
    cases hcause : f.cause with
    | unexpected => simp only [Failure.toError, hcause]
    | tooDeep rule => exact absurd (congrArg _ (Failure.toError_tooDeep hcause)) (hnone _)

namespace Parser

/-! ## The parser ends -/

/-- The rounds of a loop get ahead, and nothing but the loop does a round and then itself again. -/
structure LoopEnds {α : Type} (p : Parser (Option α)) : Prop where
  advances : ∀ s a s', p s = .ok (some a, s') → s.index < s'.index
  only : ∀ loop, loop = round p loop ↔ loop = many p

theorem Takes.loopEnds {α : Type} {p : Parser (Option α)} (h : Takes given p) : LoopEnds p where
  advances s a s' ha := (h s (some a) s' ha).index_le
  only _ := h.many_iff

/-- How many tokens the parsers without a limit take at least. Parsers of something that may be
absent take none to find that it is. -/
structure Advances : Prop where
  code : ∀ id, Takes (fun _ => 0) (code Unlimited.stack? id)
  comments : Takes given comments?
  stack : Takes given Unlimited.stack?
  block : Takes given Unlimited.block?
  composite : Takes given (composite? Unlimited.brackets Unlimited.clause)
  ifElse : Takes given (ifElse? Unlimited.brackets Unlimited.clause)
  forever : Takes given (forever? Unlimited.clause)
  repeatTimes : Takes given (repeatTimes? Unlimited.brackets Unlimited.clause)
  repeatUntil : Takes given (repeatUntil? Unlimited.brackets Unlimited.clause)
  clause : Takes (fun _ => 0) Unlimited.clause
  atomic : Takes given Unlimited.atomic?
  modifier : Takes given modifier?
  annotations : Takes given annotations?
  argument : Takes (fun _ => 1) (argument Unlimited.brackets)
  value : Takes given (value? Unlimited.brackets)
  condition : Takes (fun _ => 1) (condition Unlimited.brackets)
  brackets : ∀ shape, Takes (fun _ => 1) (Unlimited.brackets shape)

theorem advances : Advances := by
  have hb : ∀ s shape, AgreeFrom 0 s (fun _ => 1) (Unlimited.brackets shape)
      (Unlimited.brackets shape) := fun s shape => (takes_unlimited_brackets shape).agreeFrom 0 s
  have hc : ∀ s, AgreeFrom 1 s (fun _ => 0) Unlimited.clause Unlimited.clause :=
    takes_unlimited_clause.agreeFrom 1
  exact {
    code := fun id => .of_agreeFrom fun s => agree_code (takes_unlimited_stack?.agreeFrom 0 s) id
    comments := takes_comments?
    stack := takes_unlimited_stack?
    block := .of_agreeFrom fun s => agree_block? (hb s) (hc s)
    composite := .of_agreeFrom fun s => agree_composite? (hb s) (hc s)
    ifElse := .of_agreeFrom fun s => agree_ifElse? (hb s) (hc s)
    forever := .of_agreeFrom fun s => agree_forever? (hc s)
    repeatTimes := .of_agreeFrom fun s => agree_repeatTimes? (hb s) (hc s)
    repeatUntil := .of_agreeFrom fun s => agree_repeatUntil? (hb s) (hc s)
    clause := takes_unlimited_clause
    atomic := takes_unlimited_atomic?
    modifier := takes_modifier?
    annotations := takes_annotations?
    argument := .of_agreeFrom fun s => agree_argument (hb s)
    value := .of_agreeFrom fun s => agree_value? (hb s)
    condition := .of_agreeFrom fun s => agree_condition (hb s)
    brackets := takes_unlimited_brackets }

/-- The parser without a limit ends on every token list. Each of its loops gets ahead in every
round, and what is nested in an atomic block, a block or a stack is read only behind a token that
was taken since: whatever is read there in place of atomic blocks and stacks, only what it does
behind such a token matters. So the equations of the loops, of atomic blocks and of stacks have one
solution each, found by recursion on the tokens that are left. No parser goes back, and all but
those of scripts and clauses take a token for what they give. Parsing with more levels than tokens
is the same. -/
theorem unlimited_total :
    (LoopEnds (take? .delimiter) ∧ LoopEnds nextRemark? ∧ LoopEnds separator? ∧
      LoopEnds (nextSegments? Unlimited.stack?) ∧
      LoopEnds (nextBlock? Unlimited.brackets Unlimited.clause) ∧
      LoopEnds (element? Unlimited.brackets)) ∧
    (∀ s atomic atomic' stack stack', AgreeFrom 1 s given atomic atomic' →
      AgreeFrom 1 s given stack stack' →
        atomic? (bracketsOf atomic) s = atomic? (bracketsOf atomic') s ∧
        block? (bracketsOf atomic) (clauseOf stack) s =
          block? (bracketsOf atomic') (clauseOf stack') s ∧
        stack? (bracketsOf atomic) (clauseOf stack) s =
          stack? (bracketsOf atomic') (clauseOf stack') s) ∧
    (∀ atomic, atomic = atomic? (bracketsOf atomic) ↔ atomic = Unlimited.atomic?) ∧
    (∀ stack, stack = stack? Unlimited.brackets (clauseOf stack) ↔
      stack = Unlimited.stack?) ∧
    Advances ∧
    ∀ ts id m, ts.length < m → parseTokensWithin m ts id =
      match Unlimited.script id (.ofTokens ts) with
      | .ok (code, _) => .ok code
      | .error failure => .error (failure.toError m) := by
  have hb : ∀ s shape, AgreeFrom 0 s (fun _ => 1) (Unlimited.brackets shape)
      (Unlimited.brackets shape) := fun s shape => (takes_unlimited_brackets shape).agreeFrom 0 s
  have hsegments : Takes given (nextSegments? Unlimited.stack?) :=
    .of_agreeFrom fun s => agree_nextSegments? (takes_unlimited_stack?.agreeFrom 0 s)
  have hblock : Takes given (nextBlock? Unlimited.brackets Unlimited.clause) :=
    .of_agreeFrom fun s => agree_nextBlock? (hb s) (takes_unlimited_clause.agreeFrom 1 s)
  have helement : Takes given (element? Unlimited.brackets) :=
    .of_agreeFrom fun s => agree_element? (hb s)
  refine ⟨⟨(takes_take? _).loopEnds, takes_nextRemark?.loopEnds, takes_separator?.loopEnds,
    hsegments.loopEnds, hblock.loopEnds, helement.loopEnds⟩, ?_, fun _ => guarded_atomic?.eq_iff,
    fun _ => guarded_stack?.eq_iff, advances, fun ts id m => parseTokensWithin_eq_script⟩
  intro s atomic atomic' stack stack' ha hs
  obtain ⟨hatomic, hblock, hstack⟩ := agree_nested ha hs
  exact ⟨(hatomic s (.refl s)).1, (hblock s (.refl s)).1, (hstack s (.refl s)).1⟩

end Parser

end BlockNotation
