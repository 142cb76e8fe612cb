import BlockNotation.Script.Parse
import BlockNotation.Script.Walk

/-!
# Parsers with more levels to open

A parser that may open more levels does what one with fewer does, unless that one gives up for
want of levels. What a parser with `n` levels gives is nested `n` levels deep at most. Both are
shown at once (`Keeps`), of one parser after the other, up to whole scripts (`keeps_script`).
-/

namespace BlockNotation

/-! ## How deeply a tree is nested -/

mutual

/-- The number of expressions and predicates in an atomic block that hold one another. -/
def Atomic.nesting : Atomic → Nat
  | ⟨elements, _, _, _⟩ => Element.nestingOfAll elements

def Element.nestingOfAll : List Element → Nat
  | [] => 0
  | .label _ :: elements => Element.nestingOfAll elements
  | .argument a :: elements => max a.nesting (Element.nestingOfAll elements)

def Argument.nesting : Argument → Nat
  | .curly _ none _ _ => 0
  | .curly _ (some value) _ _ => value.nesting
  | .bare value => value.nesting

def Value.nesting : Value → Nat
  | .literal _ => 0
  | .bracketed _ brackets => brackets.nesting

def Brackets.nesting : Brackets → Nat
  | ⟨_, none, _⟩ => 1
  | ⟨_, some atomic, _⟩ => atomic.nesting + 1

end

def Condition.nesting : Condition → Nat
  | .curly _ predicate _ _ => predicate.elim 0 Brackets.nesting
  | .bare predicate => predicate.nesting

mutual

/-- The number of clauses, expressions and predicates in a stack that hold one another. -/
def Stack.nesting : Stack → Nat
  | ⟨blocks, _⟩ => Block.nestingOfAll blocks

def Block.nestingOfAll : List Block → Nat
  | [] => 0
  | block :: blocks => max block.nesting (Block.nestingOfAll blocks)

def Block.nesting : Block → Nat
  | .atomic a => a.nesting
  | .composite c => c.nesting

def Composite.nesting : Composite → Nat
  | .ifElse _ condition _ _ body none _ => max condition.nesting body.nesting
  | .ifElse _ condition _ _ body (some branch) _ =>
    max condition.nesting (max body.nesting branch.nesting)
  | .forever _ _ body _ => body.nesting
  | .repeatTimes _ count _ body _ => max count.nesting body.nesting
  | .repeatUntil _ condition _ body _ => max condition.nesting body.nesting

def ElseBranch.nesting : ElseBranch → Nat
  | ⟨_, clause⟩ => clause.nesting

def Clause.nesting : Clause → Nat
  | ⟨_, none, _⟩ => 1
  | ⟨_, some stack, _⟩ => stack.nesting + 1

end

def Segment.nesting : Segment → Nat
  | .stack s => s.nesting
  | .comments _ => 0

/-- The greatest number of clauses, expressions and predicates of a script that hold one another. -/
def Code.nesting (c : Code) : Nat := (c.segments.map Segment.nesting).foldr max 0

variable {n m : Nat}

theorem Element.nesting_le : ∀ {es : List Element}, (∀ e ∈ es, Element.nestingOfAll [e] ≤ n) →
    Element.nestingOfAll es ≤ n
  | [], _ => Nat.zero_le n
  | e :: es, h => by
    obtain ⟨he, hes⟩ := List.forall_mem_cons.1 h
    have hes := Element.nesting_le hes
    cases e <;> simp only [Element.nestingOfAll] at he ⊢ <;> omega

theorem Block.nesting_le : ∀ {bs : List Block}, (∀ b ∈ bs, b.nesting ≤ n) →
    Block.nestingOfAll bs ≤ n
  | [], _ => Nat.zero_le n
  | b :: bs, h => by
    obtain ⟨hb, hbs⟩ := List.forall_mem_cons.1 h
    exact Nat.max_le.2 ⟨hb, Block.nesting_le hbs⟩

theorem Code.nesting_le {c : Code} (h : ∀ s ∈ c.segments, s.nesting ≤ n) : c.nesting ≤ n := by
  unfold Code.nesting
  generalize c.segments = ss at h
  induction ss with
  | nil => exact Nat.zero_le n
  | cons s ss ih =>
    obtain ⟨hs, hss⟩ := List.forall_mem_cons.1 h
    exact Nat.max_le.2 ⟨hs, ih hss⟩

/-! ## More levels -/

variable {α β : Type}

/-- One outcome is a want of levels, or it is the other one, with `G` true of the value. -/
inductive Kept (G : α → Prop) :
    Except Failure (α × Cursor) → Except Failure (α × Cursor) → Prop where
  | refused {f : Failure} {res : Except Failure (α × Cursor)} {rule : Rule}
      (cause : f.cause = .tooDeep rule) : Kept G (.error f) res
  | failed {f : Failure} : Kept G (.error f) (.error f)
  | ok {a : α} {s : Cursor} (value : G a) : Kept G (.ok (a, s)) (.ok (a, s))

/-- Unless `p` gives up for want of levels, it does what `p'` does, with `G` true of its value. -/
def Keeps (G : α → Prop) (p p' : Parser α) : Prop := ∀ s, Kept G (p s) (p' s)

namespace Keeps

variable {G : α → Prop} {H : β → Prop}

theorem refl (p : Parser α) : Keeps (fun _ => True) p p := by
  intro s
  cases p s with
  | error f => exact .failed
  | ok x => exact .ok trivial

theorem pure {a : α} (h : G a) : Keeps G (pure a) (pure a) := fun _ => .ok h

theorem fail {cause : Cause} : Keeps G (Parser.fail cause) (Parser.fail cause) := fun _ => .failed

theorem refuse {rule : Rule} {p : Parser α} : Keeps G (Parser.fail (.tooDeep rule)) p :=
  fun _ => .refused rfl

theorem bind {p p' : Parser α} {g g' : α → Parser β} (hp : Keeps G p p')
    (hg : ∀ a, G a → Keeps H (g a) (g' a)) : Keeps H (p >>= g) (p' >>= g') := by
  intro s
  have h := hp s
  change Kept H ((p s).bind fun x => g x.1 x.2) ((p' s).bind fun x => g' x.1 x.2)
  generalize p s = res, p' s = res' at h
  cases h with
  | refused cause => exact .refused cause
  | failed => exact .failed
  | ok value => exact hg _ value _

/-- A part that does not depend on the levels, and what follows it. -/
theorem after (p : Parser α) {g g' : α → Parser β} (hg : ∀ a, Keeps H (g a) (g' a)) :
    Keeps H (p >>= g) (p >>= g') :=
  (refl p).bind fun a _ => hg a

theorem many {p p' : Parser (Option α)} (h : Keeps (fun o => ∀ a ∈ o, G a) p p') :
    Keeps (fun as => ∀ a ∈ as, G a) (Parser.many p) (Parser.many p') := by
  intro s
  induction hn : s.ahead using Nat.strongRecOn generalizing s with
  | ind k ih =>
    subst hn
    have hround := h s
    rw [Parser.many, Parser.many, repetition, repetition]
    generalize p s = res, p' s = res' at hround
    cases hround with
    | refused cause => exact .refused cause
    | failed => exact .failed
    | @ok o s' value =>
      cases o with
      | none => exact .ok (by simp)
      | some a =>
        have ha : G a := value a rfl
        dsimp only
        split
        · rename_i hlt
          have hlater := ih _ hlt s' rfl
          rw [Parser.many, Parser.many] at hlater
          generalize repetition Cursor.ahead p s' = res, repetition Cursor.ahead p' s' = res'
            at hlater
          cases hlater with
          | refused cause => exact .refused cause
          | failed => exact .failed
          | ok later => exact .ok (List.forall_mem_cons.2 ⟨ha, later⟩)
        · exact .ok (by simpa using ha)

end Keeps

namespace Parser

/-! ## Atomic blocks -/

section Atomic

variable {brackets brackets' : Shape → Parser Brackets}
  (hb : ∀ shape, Keeps (·.nesting ≤ n) (brackets shape) (brackets' shape))

include hb

theorem keeps_brackets? (shape : Shape) :
    Keeps (fun o => ∀ b ∈ o, b.nesting ≤ n) (brackets? brackets shape)
      (brackets? brackets' shape) := by
  unfold brackets?
  refine .after _ fun seen => ?_
  cases seen with
  | false => exact .pure (by simp)
  | true =>
    refine (hb shape).bind fun b hb => ?_
    exact .pure (by simpa using hb)

theorem keeps_value? :
    Keeps (fun o => ∀ v ∈ o, v.nesting ≤ n) (value? brackets) (value? brackets') := by
  unfold value?
  refine .after _ fun token => ?_
  cases token with
  | some token => exact .pure (by simp [Value.nesting])
  | none =>
    refine (keeps_brackets? hb .round).bind fun expression he => ?_
    cases expression with
    | some b => exact .pure (by simpa [Value.nesting] using he)
    | none =>
      refine (keeps_brackets? hb .angle).bind fun predicate hp => ?_
      exact .pure (by cases predicate <;> simp_all [Value.nesting])

theorem keeps_argument? :
    Keeps (fun o => ∀ a ∈ o, a.nesting ≤ n) (argument? brackets) (argument? brackets') := by
  unfold argument?
  refine .after _ fun opening => ?_
  cases opening with
  | some opening =>
    refine (keeps_value? hb).bind fun value hv => ?_
    refine .after _ fun id => .after _ fun closing => ?_
    exact .pure (by cases value <;> simp_all [Argument.nesting])
  | none =>
    refine (keeps_value? hb).bind fun value hv => ?_
    exact .pure (by cases value <;> simp_all [Argument.nesting])

theorem keeps_argument : Keeps (·.nesting ≤ n) (argument brackets) (argument brackets') := by
  unfold argument
  refine (keeps_argument? hb).bind fun argument ha => ?_
  cases argument with
  | none => exact .fail
  | some a => exact .pure (ha a rfl)

theorem keeps_condition? :
    Keeps (fun o => ∀ c ∈ o, c.nesting ≤ n) (condition? brackets) (condition? brackets') := by
  unfold condition?
  refine .after _ fun opening => ?_
  cases opening with
  | some opening =>
    refine (keeps_brackets? hb .angle).bind fun predicate hp => ?_
    refine .after _ fun id => .after _ fun closing => ?_
    exact .pure (by cases predicate <;> simp_all [Condition.nesting])
  | none =>
    refine (keeps_brackets? hb .angle).bind fun predicate hp => ?_
    exact .pure (by cases predicate <;> simp_all [Condition.nesting])

theorem keeps_condition : Keeps (·.nesting ≤ n) (condition brackets) (condition brackets') := by
  unfold condition
  refine (keeps_condition? hb).bind fun condition hc => ?_
  cases condition with
  | none => exact .fail
  | some c => exact .pure (hc c rfl)

theorem keeps_element? : Keeps (fun o => ∀ e ∈ o, Element.nestingOfAll [e] ≤ n)
    (element? brackets) (element? brackets') := by
  unfold element?
  refine .after _ fun token => ?_
  cases token with
  | some token => exact .pure (by simp [Element.nestingOfAll])
  | none =>
    refine (keeps_argument? hb).bind fun argument ha => ?_
    exact .pure (by cases argument <;> simp_all [Element.nestingOfAll])

theorem keeps_atomic? :
    Keeps (fun o => ∀ a ∈ o, a.nesting ≤ n) (atomic? brackets) (atomic? brackets') := by
  unfold atomic?
  refine .after _ fun start => ?_
  refine (keeps_element? hb).many.bind fun elements he => ?_
  split
  · exact .pure (by simp)
  · refine .after _ fun modifier => .after _ fun annotations => .after _ fun stop => ?_
    exact .pure (by simpa [Atomic.nesting] using Element.nesting_le he)

end Atomic

theorem keeps_brackets : ∀ {n m : Nat} (_ : n ≤ m) (shape : Shape),
    Keeps (·.nesting ≤ n) (brackets n shape) (brackets m shape)
  | 0, _, _, _ => .refuse
  | n + 1, 0, h, _ => absurd h (Nat.not_succ_le_zero n)
  | n + 1, m + 1, h, shape => by
    refine .after _ fun opening => ?_
    refine (keeps_atomic? (keeps_brackets (Nat.le_of_succ_le_succ h))).bind fun atomic ha => ?_
    refine .after _ fun closing => ?_
    exact .pure (by cases atomic <;> simp_all [Brackets.nesting])

/-! ## Stacks -/

section Stack

variable {clause clause' : Parser Clause} (h : n ≤ m) (hc : Keeps (·.nesting ≤ n) clause clause')

include hc in
theorem keeps_elseBranch? :
    Keeps (fun o => ∀ b ∈ o, b.nesting ≤ n) (elseBranch? clause) (elseBranch? clause') := by
  unfold elseBranch?
  refine .after _ fun keyword => ?_
  cases keyword with
  | none => exact .pure (by simp)
  | some keyword =>
    refine hc.bind fun body hbody => ?_
    exact .pure (by simpa [ElseBranch.nesting] using hbody)

include h hc in
theorem keeps_ifElse? : Keeps (fun o => ∀ c ∈ o, c.nesting ≤ n) (ifElse? (brackets n) clause)
    (ifElse? (brackets m) clause') := by
  unfold ifElse?
  refine .after _ fun start => .after _ fun keyword => ?_
  cases keyword with
  | none => exact .pure (by simp)
  | some keyword =>
    refine (keeps_condition (keeps_brackets h)).bind fun condition hcond => ?_
    refine .after _ fun thenWord => .after _ fun annotations => ?_
    refine hc.bind fun body hbody => ?_
    refine (keeps_elseBranch? hc).bind fun otherwise helse => .after _ fun stop => .pure ?_
    rintro _ ⟨⟩
    cases otherwise with
    | none => exact Nat.max_le.2 ⟨hcond, hbody⟩
    | some branch => exact Nat.max_le.2 ⟨hcond, Nat.max_le.2 ⟨hbody, helse branch rfl⟩⟩

include hc in
theorem keeps_loop? {α : Type} {word : Kind} {head head' : Parser α} {P : α → Prop}
    {make : Token → α → Option Annotations → Clause → Span → Composite} (hhead : Keeps P head head')
    (hmake : ∀ keyword a annotations body span, P a → body.nesting ≤ n →
      (make keyword a annotations body span).nesting ≤ n) :
    Keeps (fun o => ∀ c ∈ o, c.nesting ≤ n) (loop? clause word head make)
      (loop? clause' word head' make) := by
  unfold loop?
  refine .after _ fun start => .after _ fun keyword => ?_
  cases keyword with
  | none => exact .pure (by simp)
  | some keyword =>
    refine hhead.bind fun a ha => ?_
    refine .after _ fun annotations => hc.bind fun body hbody => .after _ fun stop => ?_
    exact .pure (by simpa using hmake keyword a annotations body ⟨start, stop⟩ ha hbody)

include hc in
theorem keeps_forever? :
    Keeps (fun o => ∀ c ∈ o, c.nesting ≤ n) (forever? clause) (forever? clause') := by
  have hhead : Keeps (fun _ : Unit => True) (pure ()) (pure ()) := .pure trivial
  exact keeps_loop? hc hhead fun _ _ _ _ _ _ hbody => hbody

include h hc in
theorem keeps_repeatTimes? : Keeps (fun o => ∀ c ∈ o, c.nesting ≤ n)
    (repeatTimes? (brackets n) clause) (repeatTimes? (brackets m) clause') :=
  keeps_loop? hc (keeps_argument (keeps_brackets h))
    fun _ _ _ _ _ hcount hbody => Nat.max_le.2 ⟨hcount, hbody⟩

include h hc in
theorem keeps_repeatUntil? : Keeps (fun o => ∀ c ∈ o, c.nesting ≤ n)
    (repeatUntil? (brackets n) clause) (repeatUntil? (brackets m) clause') :=
  keeps_loop? hc (keeps_condition (keeps_brackets h))
    fun _ _ _ _ _ hcond hbody => Nat.max_le.2 ⟨hcond, hbody⟩

include h hc

theorem keeps_composite? :
    Keeps (fun o => ∀ c ∈ o, c.nesting ≤ n) (composite? (brackets n) clause)
      (composite? (brackets m) clause') := by
  unfold composite?
  refine (keeps_ifElse? h hc).bind fun o ho => ?_
  cases o with
  | some c => exact .pure ho
  | none =>
    refine (keeps_forever? hc).bind fun o ho => ?_
    cases o with
    | some c => exact .pure ho
    | none =>
      refine (keeps_repeatTimes? h hc).bind fun o ho => ?_
      cases o with
      | some c => exact .pure ho
      | none => exact keeps_repeatUntil? h hc

theorem keeps_block? :
    Keeps (fun o => ∀ b ∈ o, b.nesting ≤ n) (block? (brackets n) clause)
      (block? (brackets m) clause') := by
  unfold block?
  refine (keeps_atomic? (keeps_brackets h)).bind fun atomic ha => ?_
  cases atomic with
  | some a => exact .pure (by simpa [Block.nesting] using ha)
  | none =>
    refine (keeps_composite? h hc).bind fun composite hcomp => ?_
    exact .pure (by cases composite <;> simp_all [Block.nesting])

theorem keeps_stack? :
    Keeps (fun o => ∀ s ∈ o, s.nesting ≤ n) (stack? (brackets n) clause)
      (stack? (brackets m) clause') := by
  have hnext : Keeps (fun o => ∀ b ∈ o, b.nesting ≤ n) (nextBlock? (brackets n) clause)
      (nextBlock? (brackets m) clause') := by
    unfold nextBlock?
    refine .after _ fun seen => ?_
    cases seen with
    | false => exact .pure (by simp)
    | true => exact .after _ fun _ => keeps_block? h hc
  unfold stack?
  refine .after _ fun start => (keeps_block? h hc).bind fun first hfirst => ?_
  cases first with
  | none => exact .pure (by simp)
  | some first =>
    refine hnext.many.bind fun later hlater => .after _ fun stop => .after _ fun _ => .pure ?_
    have hall : ∀ b ∈ first :: later, b.nesting ≤ n :=
      List.forall_mem_cons.2 ⟨hfirst first rfl, hlater⟩
    simpa [Stack.nesting] using Block.nesting_le hall

end Stack

theorem keeps_clause : ∀ {n m : Nat}, n ≤ m → Keeps (·.nesting ≤ n) (clause n) (clause m)
  | 0, _, _ => .refuse
  | n + 1, 0, h => absurd h (Nat.not_succ_le_zero n)
  | n + 1, m + 1, h => by
    have h := Nat.le_of_succ_le_succ h
    refine .after _ fun delimiter => (keeps_stack? h (keeps_clause h)).bind fun body hbody => ?_
    refine .after _ fun closing => ?_
    exact .pure (by cases body <;> simp_all [Clause.nesting])

theorem keeps_stackWithin? (h : n ≤ m) :
    Keeps (fun o => ∀ s ∈ o, s.nesting ≤ n) (stackWithin? n) (stackWithin? m) :=
  keeps_stack? h (keeps_clause h)

/-! ## Scripts -/

theorem keeps_separator? :
    Keeps (fun o => ∀ ss ∈ o, ∀ s ∈ ss, s.nesting ≤ n) separator? separator? := by
  unfold separator?
  refine .after _ fun delimiter => ?_
  cases delimiter with
  | some delimiter => exact .pure (by simp)
  | none =>
    refine .after _ fun comments => ?_
    exact .pure (by cases comments <;> simp [Segment.nesting])

theorem keeps_nextSegments? (h : n ≤ m) :
    Keeps (fun o => ∀ ss ∈ o, ∀ s ∈ ss, s.nesting ≤ n) (nextSegments? (stackWithin? n))
      (nextSegments? (stackWithin? m)) := by
  unfold nextSegments?
  refine (keeps_separator? (n := n)).many.bind fun separators hseps => ?_
  split
  · exact .pure (by simp)
  · refine (keeps_stackWithin? h).bind fun stack hstack => .pure ?_
    rintro ss ⟨⟩ s hs
    rcases List.mem_append.1 hs with hs | hs
    · obtain ⟨ss, hss, hs⟩ := List.mem_flatten.1 hs
      exact hseps ss hss s hs
    · cases stack with
      | none => simp at hs
      | some stack =>
        obtain rfl : s = .stack stack := by simpa using hs
        exact hstack stack rfl

theorem keeps_segments (h : n ≤ m) :
    Keeps (fun ss => ∀ s ∈ ss, s.nesting ≤ n) (segments (stackWithin? n))
      (segments (stackWithin? m)) := by
  unfold segments
  refine (keeps_stackWithin? h).bind fun first hfirst => ?_
  cases first with
  | none => exact .pure (by simp)
  | some first =>
    refine (keeps_nextSegments? h).many.bind fun later hlater => .pure ?_
    refine List.forall_mem_cons.2 ⟨hfirst first rfl, fun s hs => ?_⟩
    obtain ⟨ss, hss, hs⟩ := List.mem_flatten.1 hs
    exact hlater ss hss s hs

theorem keeps_script (h : n ≤ m) (sourceId : Nat) :
    Keeps (·.nesting ≤ n) (script n sourceId) (script m sourceId) := by
  have hcode : Keeps (·.nesting ≤ n) (code (stackWithin? n) sourceId)
      (code (stackWithin? m) sourceId) := by
    refine .after _ fun start => .after _ fun _ => .after _ fun comments => ?_
    refine (keeps_segments h).bind fun segments hs => .after _ fun stop => .pure ?_
    exact Code.nesting_le hs
  refine hcode.bind fun code hcode => .after _ fun _ => .pure hcode

end Parser

end BlockNotation
