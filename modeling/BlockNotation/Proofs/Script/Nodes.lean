import BlockNotation.Proofs.Script.Tracking

/-!
# The nodes of a script tree and where they were read

`Node.parts` lists the nodes directly inside a node in source order, its tokens included, so that
a script tree is a tree of nodes (`Node.Inside`). A node is what a parser of its own gave:
`Node.Read` says that this parser began in front of some tokens and ended in front of others, which
leaves no choice as to which tokens the node has taken.

The parser of a node reads the parts of the node one after the other (`Node.Read.row`). What it
takes besides are delimiters that the tree does not keep. This is shown of one parser after the
other, as a property closed under the ways parsers are put together (`Rows`).
-/

namespace BlockNotation

/-- The nodes of a script tree. Brackets are an expression or a predicate. -/
inductive Node where
  | token (token : Token)
  | modifier (modifier : Modifier)
  | brackets (shape : Shape) (brackets : Brackets)
  | argument (argument : Argument)
  | condition (condition : Condition)
  | atomic (atomic : Atomic)
  | block (block : Block)
  | clause (clause : Clause)
  | stack (stack : Stack)
  | comments (comments : Comments)
  | code (code : Code)

namespace Node

def ofValue : Value → Node
  | .literal t => .token t
  | .bracketed shape b => .brackets shape b

def ofElement : Element → Node
  | .label t => .token t
  | .argument a => .argument a

def ofSegment : Segment → Node
  | .stack s => .stack s
  | .comments c => .comments c

/-- The span of a node. Only a clause can be without one. -/
def span? : Node → Option Span
  | .token t => some t.span
  | .modifier m => some m.span
  | .brackets _ b => some b.span
  | .argument a => some a.span
  | .condition c => some c.span
  | .atomic a => some a.span
  | .block b => some b.span
  | .clause c => c.span?
  | .stack s => some s.span
  | .comments c => some c.span
  | .code c => some c.span

def annotationParts (a : Option Annotations) : List Node := (Annotations.tokens a).map .token

def elseParts (branch : ElseBranch) : List Node := [.token branch.keyword, .clause branch.clause]

def compositeParts : Composite → List Node
  | .ifElse keyword c thenWord annotations body otherwise _ =>
    [.token keyword, .condition c] ++ thenWord.toList.map .token
      ++ annotationParts annotations ++ [.clause body] ++ otherwise.elim [] elseParts
  | .forever keyword annotations body _ =>
    [.token keyword] ++ annotationParts annotations ++ [.clause body]
  | .repeatTimes keyword count annotations body _ =>
    [.token keyword, .argument count] ++ annotationParts annotations ++ [.clause body]
  | .repeatUntil keyword c annotations body _ =>
    [.token keyword, .condition c] ++ annotationParts annotations ++ [.clause body]

/-- The nodes directly inside a node, in source order. -/
def parts : Node → List Node
  | .token _ => []
  | .modifier m => [.token m.marker, .token m.label]
  | .brackets _ b => [.token b.opening] ++ b.atomic.toList.map .atomic ++ [.token b.closing]
  | .argument (.curly opening value id closing) =>
    [.token opening] ++ value.toList.map ofValue ++ id.toList.map .token ++ [.token closing]
  | .argument (.bare value) => [ofValue value]
  | .condition (.curly opening predicate id closing) =>
    [.token opening] ++ predicate.toList.map (.brackets .angle) ++ id.toList.map .token
      ++ [.token closing]
  | .condition (.bare predicate) => [.brackets .angle predicate]
  | .atomic a =>
    a.elements.map ofElement ++ a.modifier.toList.map .modifier ++ annotationParts a.annotations
  | .block (.atomic a) => [.atomic a]
  | .block (.composite c) => compositeParts c
  | .clause c =>
    c.delimiter.toList.map .token ++ c.body.toList.map .stack ++ c.closing.toList.map .token
  | .stack s => s.blocks.map .block
  | .comments c => c.remarks.map .token
  | .code c => c.comments.toList.map .comments ++ c.segments.map ofSegment

/-- The nodes of the tree below a node, which is one of them. -/
inductive Inside (root : Node) : Node → Prop where
  | root : Inside root root
  | part {n m : Node} (h : Inside root n) (hm : m ∈ n.parts) : Inside root m

end Node

/-- `p` gives `a` in front of the tokens `r` and stops in front of the tokens `left`. -/
def Parser.Ran {α : Type} (p : Parser α) (a : α) (r left : List Token) : Prop :=
  ∃ s s' : Cursor, p s = .ok (a, s') ∧ s.rest = r ∧ s'.rest = left

theorem Parser.ran {α : Type} {p : Parser α} {a : α} {s s' : Cursor} (h : p s = .ok (a, s')) :
    p.Ran a s.rest s'.rest :=
  ⟨s, s', h, rfl, rfl⟩

/-- The node was read from the tokens `r` up to the tokens `left`, by the parser of such nodes. A
script is read from the first token on, and nothing is left. -/
def Node.Read : Node → List Token → List Token → Prop
  | .token t, r, left => r = t :: left
  | .modifier m, r, left => Parser.modifier?.Ran (some m) r left
  | .brackets shape b, r, left => ∃ levels, (Parser.brackets levels shape).Ran b r left
  | .argument a, r, left =>
    ∃ levels, (Parser.argument? (Parser.brackets levels)).Ran (some a) r left
  | .condition c, r, left => ∃ levels, (Parser.condition (Parser.brackets levels)).Ran c r left
  | .atomic a, r, left => ∃ levels, (Parser.atomic? (Parser.brackets levels)).Ran (some a) r left
  | .block b, r, left =>
    ∃ levels, (Parser.block? (Parser.brackets levels) (Parser.clause levels)).Ran (some b) r left
  | .clause c, r, left => ∃ levels, (Parser.clause levels).Ran c r left
  | .stack s, r, left =>
    ∃ levels, (Parser.stackWithin? levels).Ran (some s) r left
  | .comments c, r, left => Parser.comments?.Ran (some c) r left
  | .code c, r, left =>
    ∃ levels id s, Parser.script levels id (.ofTokens r) = .ok (c, s) ∧ s.rest = left

/-- Nodes that were read one after the other from the tokens `r` up to the tokens `left`, with
delimiters before, between and after them. -/
inductive Row : List Node → List Token → List Token → Prop where
  | nil {r : List Token} : Row [] r r
  | node {n : Node} {ns : List Node} {r mid left : List Token} (first : n.Read r mid)
      (later : Row ns mid left) : Row (n :: ns) r left
  | skip {t : Token} {ns : List Node} {r left : List Token} (delimiter : t.kind = .delimiter)
      (later : Row ns r left) : Row ns (t :: r) left

namespace Row

variable {ms ns : List Node} {r mid left : List Token}

theorem append (h : Row ms r mid) (h' : Row ns mid left) : Row (ms ++ ns) r left := by
  induction h with
  | nil => exact h'
  | node first _ ih => exact .node first (ih h')
  | skip delimiter _ ih => exact .skip delimiter (ih h')

theorem single {n : Node} (h : n.Read r left) : Row [n] r left := .node h .nil

theorem tokens : ∀ (ts : List Token) (left : List Token),
    Row (ts.map .token) (ts ++ left) left
  | [], _ => .nil
  | _ :: ts, left => .node rfl (tokens ts left)

end Row

variable {α β : Type}

/-- The tokens that a parser has taken when it succeeds. -/
theorem Tracks.of_run {p : Parser α} {P : List Token → α → Prop} (hp : Tracks [] p P) {a : α}
    {s s' : Cursor} (h : p s = .ok (a, s')) :
    ∃ w, s.rest = w ++ s'.rest ∧ s'.lastEnd = endOf s.lastEnd w ∧ P w a := by
  have hs := hp s s.lastEnd rfl
  rw [h] at hs
  cases hs with
  | ok rest lastEnd value => exact ⟨_, rest, lastEnd, value⟩

/-- Whenever `p` succeeds, the nodes of its value are those read `before` and those it has read,
one after the other. -/
def Rows (before : List Node) (p : Parser α) (nodes : α → List Node) : Prop :=
  ∀ s a s', p s = .ok (a, s') → ∃ ns, nodes a = before ++ ns ∧ Row ns s.rest s'.rest

namespace Rows

variable {before : List Node} {φ : α → List Node} {ψ : β → List Node}

theorem pure {a : α} (h : φ a = before) : Rows before (pure a) φ := by
  intro s b s' hs
  cases hs
  exact ⟨[], by simp [h], .nil⟩

theorem fail {cause : Cause} : Rows before (Parser.fail cause) φ := by
  intro s a s' hs
  cases hs

theorem bind {p : Parser α} {g : α → Parser β} (hp : Rows [] p φ)
    (hg : ∀ a, Rows (before ++ φ a) (g a) ψ) : Rows before (p >>= g) ψ := by
  intro s b s'' hs
  obtain ⟨a, s', ha, hb⟩ := of_bind_run hs
  obtain ⟨ms, hms, hrow⟩ := hp s a s' ha
  obtain ⟨ns, hns, hrow'⟩ := hg a s' b s'' hb
  refine ⟨ms ++ ns, ?_, hrow.append hrow'⟩
  rw [hns, hms, List.nil_append, List.append_assoc]

theorem start {g : Nat → Parser α} (h : ∀ n, Rows before (g n) φ) :
    Rows before (Parser.start >>= g) φ := fun s => h s.start s

theorem lastEnd {g : Nat → Parser α} (h : ∀ n, Rows before (g n) φ) :
    Rows before (Parser.lastEnd >>= g) φ := fun s => h s.lastEnd s

theorem imp {p : Parser α} {φ' : α → List Node} (h : Rows before p φ) (hφ : ∀ a, φ a = φ' a) :
    Rows before p φ' := by
  intro s a s' hs
  obtain ⟨ns, hns, hrow⟩ := h s a s' hs
  exact ⟨ns, (hφ a).symm.trans hns, hrow⟩

/-- A parser that only looks. -/
theorem stay {p : Parser α} (h : ∀ s, ∃ a s', p s = .ok (a, s') ∧ s'.rest = s.rest) :
    Rows [] p fun _ => [] := by
  intro s a s' hs
  obtain ⟨a', s₁, hs₁, hrest⟩ := h s
  rw [hs] at hs₁
  cases hs₁
  exact ⟨[], rfl, hrest ▸ .nil⟩

/-- A parser that reads one node. -/
theorem one {p : Parser α} {node : α → Node}
    (h : ∀ a r left, p.Ran a r left → (node a).Read r left) : Rows [] p fun a => [node a] :=
  fun _ a _ hs => ⟨[node a], rfl, .single (h a _ _ (Parser.ran hs))⟩

/-- A parser that reads one node or takes nothing. -/
theorem optional {p : Parser (Option α)} {node : α → Node} {P : List Token → Option α → Prop}
    (hp : Tracks [] p P) (hnone : ∀ w, P w none → w = [])
    (h : ∀ a r left, p.Ran (some a) r left → (node a).Read r left) :
    Rows [] p fun o => o.toList.map node := by
  intro s o s' hs
  cases o with
  | none =>
    obtain ⟨w, hrest, -, hw⟩ := hp.of_run hs
    cases hnone w hw
    exact ⟨[], rfl, hrest ▸ .nil⟩
  | some a => exact ⟨[node a], rfl, .single (h a _ _ (Parser.ran hs))⟩

/-- What the rounds of a repetition have read stands in a row. -/
theorem many {p : Parser (Option α)} (h : Rows [] p (·.elim [] φ))
    (hp : ∀ s a s', p s = .ok (some a, s') → s'.rest.length < s.rest.length) :
    Rows [] (Parser.many p) (·.flatMap φ) := by
  intro s as s' hs
  have hrounds := rounds_of_many hp hs
  clear hs
  induction hrounds with
  | last hlast => exact h _ none _ hlast
  | @next s s₁ s' a as hnext _ ih =>
    obtain ⟨ms, hms, hrow⟩ := h s (some a) s₁ hnext
    obtain ⟨ns, hns, hrow'⟩ := ih
    have hms : φ a = ms := hms
    have hns : as.flatMap φ = ns := hns
    exact ⟨ms ++ ns, by simp [hms, hns], hrow.append hrow'⟩

end Rows

namespace Parser

theorem rows_takeAny (ks : List Kind) :
    Rows [] (takeAny ks) fun o => o.toList.map .token := by
  intro s o s' h
  refine ⟨o.toList.map .token, rfl, ?_⟩
  rcases takeAny_cases h with ⟨rfl, hrest, -⟩ | ⟨t, rfl, -, hrest⟩
  · exact hrest ▸ .nil
  · exact hrest ▸ Row.tokens [t] s'.rest

theorem rows_take? (k : Kind) : Rows [] (take? k) fun o => o.toList.map .token := rows_takeAny [k]

theorem rows_take (r : Rule) (k : Kind) : Rows [] (take r k) fun t => [.token t] := by
  unfold take
  refine (rows_take? k).bind fun o => ?_
  cases o with
  | none => exact .fail
  | some t => exact .pure rfl

/-- A delimiter that the tree does not keep. -/
theorem skips_delimiter : Rows [] (take? .delimiter) fun _ => [] := by
  intro s o s' h
  refine ⟨[], rfl, ?_⟩
  rcases takeAny_cases h with ⟨rfl, hrest, -⟩ | ⟨t, rfl, ht, hrest⟩
  · exact hrest ▸ .nil
  · exact hrest ▸ .skip (List.mem_singleton.1 ht) .nil

/-! ## Atomic blocks -/

theorem parts_modifier? : Rows [] modifier? (·.elim [] fun m => (Node.modifier m).parts) := by
  unfold modifier?
  refine (rows_take? .doubleColon).bind fun marker => ?_
  cases marker with
  | none => exact .pure rfl
  | some marker =>
    refine (rows_take .modifier .label).bind fun label => ?_
    exact .pure rfl

theorem rows_modifier? : Rows [] modifier? fun o => o.toList.map .modifier :=
  .optional tracks_modifier? (fun _ hw => hw.symm) fun _ _ _ h => h

theorem rows_annotations? : Rows [] annotations? Node.annotationParts := by
  unfold annotations?
  refine (rows_take? .remark).bind fun remark => ?_
  cases remark with
  | some remark =>
    refine (rows_take? .identifier).bind fun id => ?_
    refine .pure ?_
    cases id <;> rfl
  | none =>
    refine (rows_take? .identifier).bind fun id => ?_
    cases id with
    | none => exact .pure rfl
    | some id =>
      refine (rows_take? .remark).bind fun remark => ?_
      refine .pure ?_
      cases remark <;> rfl

section Levels

variable (levels : Nat)

theorem rows_brackets? (shape : Shape) : Rows [] (brackets? (brackets levels) shape)
    fun o => o.toList.map (.brackets shape) := by
  have hsees : Rows [] (sees shape.opening) fun _ => [] := .stay fun s => ⟨_, _, rfl, rfl⟩
  have hbrackets : Rows [] (brackets levels shape) fun b => [.brackets shape b] :=
    .one fun _ _ _ h => ⟨levels, h⟩
  unfold brackets?
  refine hsees.bind fun b => ?_
  cases b with
  | false => exact .pure rfl
  | true =>
    refine hbrackets.bind fun b => ?_
    exact .pure rfl

theorem rows_value? : Rows [] (value? (brackets levels)) fun o => o.toList.map .ofValue := by
  unfold value?
  refine (rows_takeAny _).bind fun token => ?_
  cases token with
  | some token => exact .pure rfl
  | none =>
    refine (rows_brackets? levels .round).bind fun expression => ?_
    cases expression with
    | some expression => exact .pure rfl
    | none =>
      refine (rows_brackets? levels .angle).bind fun predicate => ?_
      refine .pure ?_
      cases predicate <;> rfl

theorem parts_argument? : Rows [] (argument? (brackets levels))
    (·.elim [] fun a => (Node.argument a).parts) := by
  unfold argument?
  refine (rows_take? .openCurly).bind fun opening => ?_
  cases opening with
  | some opening =>
    refine (rows_value? levels).bind fun value => ?_
    refine (rows_take? .identifier).bind fun id => ?_
    refine (rows_take .argument .closeCurly).bind fun closing => ?_
    exact .pure rfl
  | none =>
    refine (rows_value? levels).bind fun value => ?_
    refine .pure ?_
    cases value <;> rfl

theorem rows_argument? :
    Rows [] (argument? (brackets levels)) fun o => o.toList.map .argument :=
  .optional (tracks_argument? (tracks_brackets levels)) (fun _ hw => hw.tokens.symm)
    fun _ _ _ h => ⟨levels, h⟩

theorem rows_argument : Rows [] (argument (brackets levels)) fun a => [.argument a] := by
  unfold argument
  refine (rows_argument? levels).bind fun argument => ?_
  cases argument with
  | none => exact .fail
  | some argument => exact .pure rfl

theorem parts_condition :
    Rows [] (condition (brackets levels)) fun c => (Node.condition c).parts := by
  have hcondition : Rows [] (condition? (brackets levels))
      (·.elim [] fun c => (Node.condition c).parts) := by
    unfold condition?
    refine (rows_take? .openCurly).bind fun opening => ?_
    cases opening with
    | some opening =>
      refine (rows_brackets? levels .angle).bind fun predicate => ?_
      refine (rows_take? .identifier).bind fun id => ?_
      refine (rows_take .condition .closeCurly).bind fun closing => ?_
      exact .pure rfl
    | none =>
      refine (rows_brackets? levels .angle).bind fun predicate => ?_
      refine .pure ?_
      cases predicate <;> rfl
  unfold condition
  refine hcondition.bind fun condition => ?_
  cases condition with
  | none => exact .fail
  | some condition => exact .pure rfl

theorem rows_condition : Rows [] (condition (brackets levels)) fun c => [.condition c] :=
  .one fun _ _ _ h => ⟨levels, h⟩

theorem rows_element? :
    Rows [] (element? (brackets levels)) (·.elim [] fun e => [.ofElement e]) := by
  unfold element?
  refine (rows_take? .label).bind fun token => ?_
  cases token with
  | some token => exact .pure rfl
  | none =>
    refine (rows_argument? levels).bind fun argument => ?_
    refine .pure ?_
    cases argument <;> rfl

theorem parts_atomic? : Rows [] (atomic? (brackets levels))
    (·.elim [] fun a => (Node.atomic a).parts) := by
  unfold atomic?
  refine .start fun start => ?_
  have hlt := (opens_element? (r := .atomic) (readsBrackets levels)).lt
  refine ((rows_element? levels).many hlt).bind fun elements => ?_
  cases elements with
  | nil => exact .pure rfl
  | cons element elements =>
    refine rows_modifier?.bind fun modifier => ?_
    refine rows_annotations?.bind fun annotations => ?_
    refine .lastEnd fun stop => ?_
    refine .pure ?_
    simp [Node.parts, List.map_eq_flatMap]

theorem rows_atomic? : Rows [] (atomic? (brackets levels)) fun o => o.toList.map .atomic :=
  .optional (tracks_atomic? (tracks_brackets levels)) (fun _ hw => hw.tokens.symm)
    fun _ _ _ h => ⟨levels, h⟩

theorem parts_brackets (shape : Shape) : ∀ levels,
    Rows [] (brackets levels shape) fun b => (Node.brackets shape b).parts
  | 0 => .fail
  | levels + 1 => by
    unfold brackets
    refine (rows_take shape.rule shape.opening).bind fun opening => ?_
    refine (rows_atomic? levels).bind fun atomic => ?_
    refine (rows_take shape.rule shape.closing).bind fun closing => ?_
    exact .pure rfl

/-! ## Stacks -/

theorem rows_clause : Rows [] (clause levels) fun c => [.clause c] :=
  .one fun _ _ _ h => ⟨levels, h⟩

theorem parts_elseBranch? :
    Rows [] (elseBranch? (clause levels)) (·.elim [] Node.elseParts) := by
  unfold elseBranch?
  refine (rows_take? .elseWord).bind fun keyword => ?_
  cases keyword with
  | none => exact .pure rfl
  | some keyword =>
    refine (rows_clause levels).bind fun body => ?_
    exact .pure rfl

theorem parts_ifElse? :
    Rows [] (ifElse? (brackets levels) (clause levels)) (·.elim [] Node.compositeParts) := by
  unfold ifElse?
  refine .start fun start => ?_
  refine (rows_take? .ifWord).bind fun keyword => ?_
  cases keyword with
  | none => exact .pure rfl
  | some keyword =>
    refine (rows_condition levels).bind fun condition => ?_
    refine (rows_take? .thenWord).bind fun thenWord => ?_
    refine rows_annotations?.bind fun annotations => ?_
    refine (rows_clause levels).bind fun body => ?_
    refine (parts_elseBranch? levels).bind fun otherwise => ?_
    refine .lastEnd fun stop => ?_
    exact .pure rfl

theorem parts_loop? {α : Type} {word : Kind} {head : Parser α} {φ : α → List Node}
    {make : Token → α → Option Annotations → Clause → Span → Composite} (hhead : Rows [] head φ)
    (hmake : ∀ keyword a annotations body span,
      Node.compositeParts (make keyword a annotations body span) =
        .token keyword :: φ a ++ Node.annotationParts annotations ++ [.clause body]) :
    Rows [] (loop? (clause levels) word head make) (·.elim [] Node.compositeParts) := by
  unfold loop?
  refine .start fun start => ?_
  refine (rows_take? word).bind fun keyword => ?_
  cases keyword with
  | none => exact .pure rfl
  | some keyword =>
    refine hhead.bind fun a => ?_
    refine rows_annotations?.bind fun annotations => ?_
    refine (rows_clause levels).bind fun body => ?_
    refine .lastEnd fun stop => ?_
    exact .pure (hmake keyword a annotations body ⟨start, stop⟩)

theorem parts_forever? :
    Rows [] (forever? (clause levels)) (·.elim [] Node.compositeParts) := by
  have hhead : Rows [] (pure () : Parser Unit) fun _ => [] := .pure rfl
  exact parts_loop? levels hhead fun _ _ _ _ _ => rfl

theorem parts_repeatTimes? : Rows [] (repeatTimes? (brackets levels) (clause levels))
    (·.elim [] Node.compositeParts) :=
  parts_loop? levels (rows_argument levels) fun _ _ _ _ _ => rfl

theorem parts_repeatUntil? : Rows [] (repeatUntil? (brackets levels) (clause levels))
    (·.elim [] Node.compositeParts) :=
  parts_loop? levels (rows_condition levels) fun _ _ _ _ _ => rfl

theorem parts_composite? :
    Rows [] (composite? (brackets levels) (clause levels)) (·.elim [] Node.compositeParts) := by
  unfold composite?
  refine (parts_ifElse? levels).bind fun composite => ?_
  cases composite with
  | some composite => exact .pure rfl
  | none =>
    refine (parts_forever? levels).bind fun composite => ?_
    cases composite with
    | some composite => exact .pure rfl
    | none =>
      refine (parts_repeatTimes? levels).bind fun composite => ?_
      cases composite with
      | some composite => exact .pure rfl
      | none => exact parts_repeatUntil? levels

theorem parts_block? : Rows [] (block? (brackets levels) (clause levels))
    (·.elim [] fun b => (Node.block b).parts) := by
  unfold block?
  refine (rows_atomic? levels).bind fun atomic => ?_
  cases atomic with
  | some atomic => exact .pure rfl
  | none =>
    refine (parts_composite? levels).bind fun composite => ?_
    refine .pure ?_
    cases composite <;> rfl

theorem rows_block? :
    Rows [] (block? (brackets levels) (clause levels)) fun o => o.toList.map .block :=
  .optional (tracks_block? (tracks_clause levels)) (fun _ hw => hw) fun _ _ _ h => ⟨levels, h⟩

theorem rows_nextBlock? :
    Rows [] (nextBlock? (brackets levels) (clause levels)) (·.elim [] fun b => [.block b]) := by
  have hsees : Rows [] seesNextBlock fun _ => [] := .stay fun s => ⟨_, _, rfl, rfl⟩
  unfold nextBlock?
  refine hsees.bind fun b => ?_
  cases b with
  | false => exact .pure rfl
  | true =>
    refine skips_delimiter.bind fun _ => ?_
    exact (rows_block? levels).imp fun o => by cases o <;> rfl

theorem skips_trailingDelimiter : Rows [] trailingDelimiter fun _ => [] := by
  have hnote : Rows [] (note Rule.block.lead) fun _ => [] := .stay fun s => ⟨_, _, rfl, rfl⟩
  unfold trailingDelimiter
  refine skips_delimiter.bind fun delimiter => ?_
  cases delimiter with
  | none => exact .pure rfl
  | some _ => exact hnote

theorem parts_stackWithin? : Rows [] (stackWithin? levels)
    (·.elim [] fun s => (Node.stack s).parts) := by
  unfold stackWithin? stack?
  refine .start fun start => ?_
  refine (rows_block? levels).bind fun first => ?_
  cases first with
  | none => exact .pure rfl
  | some first =>
    have hlt := nextBlock?_lt (follows_clause levels)
    refine ((rows_nextBlock? levels).many hlt).bind fun later => ?_
    refine .lastEnd fun stop => ?_
    refine skips_trailingDelimiter.bind fun _ => ?_
    refine .pure ?_
    simp [Node.parts, List.map_eq_flatMap]

theorem rows_stackWithin? : Rows [] (stackWithin? levels) fun o => o.toList.map .stack :=
  .optional (tracks_stackWithin? levels) (fun _ hw => hw) fun _ _ _ h => ⟨levels, h⟩

theorem parts_clause : ∀ levels, Rows [] (clause levels) fun c => (Node.clause c).parts
  | 0 => .fail
  | levels + 1 => by
    unfold clause
    refine (rows_take? .delimiter).bind fun delimiter => ?_
    refine (rows_stackWithin? levels).bind fun body => ?_
    refine (rows_take? .endWord).bind fun closing => ?_
    exact .pure rfl

end Levels

/-! ## Scripts -/

theorem skips_delimiters : Rows [] (many (take? .delimiter)) fun _ => [] := by
  have h : Rows [] (take? .delimiter) (·.elim [] fun _ => []) :=
    skips_delimiter.imp fun o => by cases o <;> rfl
  exact (h.many (opens_take? (n := 0) (r := .code) .delimiter).lt).imp (by simp)

theorem parts_comments? : Rows [] comments? (·.elim [] fun c => (Node.comments c).parts) := by
  have hnext : Rows [] nextRemark? (·.elim [] fun t => [.token t]) := by
    unfold nextRemark?
    refine skips_delimiters.bind fun _ => ?_
    exact (rows_take? .remark).imp fun o => by cases o <;> rfl
  unfold comments?
  refine (rows_take? .remark).bind fun first => ?_
  cases first with
  | none => exact .pure rfl
  | some first =>
    refine (hnext.many nextRemark?_lt).bind fun later => ?_
    refine .pure ?_
    simp [Node.parts, List.map_eq_flatMap]

theorem rows_comments? : Rows [] comments? fun o => o.toList.map .comments :=
  .optional tracks_comments? (fun _ hw => hw) fun _ _ _ h => h

theorem rows_separator? : Rows [] separator? (·.elim [] (·.map .ofSegment)) := by
  unfold separator?
  refine skips_delimiter.bind fun delimiter => ?_
  cases delimiter with
  | some _ => exact .pure rfl
  | none =>
    refine rows_comments?.bind fun comments => ?_
    refine .pure ?_
    cases comments <;> rfl

theorem rows_nextSegments? (levels : Nat) :
    Rows [] (nextSegments? (stackWithin? levels)) (·.elim [] (·.map .ofSegment)) := by
  unfold nextSegments?
  have hlt := (opens_separator? (n := 0) (r := .code)).lt
  refine (rows_separator?.many hlt).bind fun separators => ?_
  cases separators with
  | nil => exact .pure rfl
  | cons first later =>
    refine (rows_stackWithin? levels).bind fun stack => ?_
    refine .pure ?_
    cases stack <;> simp [List.map_flatten, List.flatMap_def, Node.ofSegment]

theorem rows_segments (levels : Nat) :
    Rows [] (segments (stackWithin? levels)) (·.map .ofSegment) := by
  unfold segments
  refine (rows_stackWithin? levels).bind fun first => ?_
  cases first with
  | none => exact .pure rfl
  | some first =>
    refine ((rows_nextSegments? levels).many opens_nextSegments?.lt).bind fun later => ?_
    refine .pure ?_
    simp [List.map_flatten, List.flatMap_def, Node.ofSegment]

theorem parts_script (levels id : Nat) :
    Rows [] (script levels id) fun c => (Node.code c).parts := by
  have hcode : Rows [] (code (stackWithin? levels) id) fun c => (Node.code c).parts := by
    unfold code
    refine .start fun start => ?_
    refine skips_delimiters.bind fun _ => ?_
    refine rows_comments?.bind fun comments => ?_
    refine (rows_segments levels).bind fun segments => ?_
    refine .lastEnd fun stop => ?_
    exact .pure rfl
  have hfinish : Rows [] finish fun _ => [] := by
    intro s a s' hs
    obtain ⟨w, hrest, -, rfl⟩ := tracks_finish.of_run hs
    exact ⟨[], rfl, hrest ▸ .nil⟩
  unfold script
  refine hcode.bind fun code => ?_
  refine hfinish.bind fun _ => ?_
  exact .pure (by simp)

end Parser

theorem Rows.row {p : Parser α} {φ : α → List Node} (h : Rows [] p φ) {a : α}
    {r left : List Token} (hp : p.Ran a r left) : Row (φ a) r left := by
  obtain ⟨s, s', hs, rfl, rfl⟩ := hp
  obtain ⟨ns, hns, hrow⟩ := h s a s' hs
  exact hns ▸ hrow

/-- The parts of a node were read one after the other while the node was. -/
theorem Node.Read.row : ∀ {n : Node} {r left : List Token}, n.Read r left → n.parts ≠ [] →
    Row n.parts r left
  | .token _, _, _, _, hn => absurd rfl hn
  | .modifier _, _, _, h, _ => Parser.parts_modifier?.row h
  | .brackets shape _, _, _, ⟨levels, h⟩, _ => (Parser.parts_brackets shape levels).row h
  | .argument _, _, _, ⟨levels, h⟩, _ => (Parser.parts_argument? levels).row h
  | .condition _, _, _, ⟨levels, h⟩, _ => (Parser.parts_condition levels).row h
  | .atomic _, _, _, ⟨levels, h⟩, _ => (Parser.parts_atomic? levels).row h
  | .block _, _, _, ⟨levels, h⟩, _ => (Parser.parts_block? levels).row h
  | .clause _, _, _, ⟨levels, h⟩, _ => (Parser.parts_clause levels).row h
  | .stack _, _, _, ⟨levels, h⟩, _ => (Parser.parts_stackWithin? levels).row h
  | .comments _, _, _, h, _ => Parser.parts_comments?.row h
  | .code _, _, _, ⟨levels, id, _, h, hleft⟩, _ =>
    (Parser.parts_script levels id).row ⟨_, _, h, rfl, hleft⟩

end BlockNotation
