import BlockNotation.Script.Parse
import BlockNotation.Script.Walk
import Mathlib.Data.List.Chain

/-!
# The tokens of a script tree

Every place for a token in a script tree demands tokens of certain kinds. `Code.fields` lists the
places of a tree that are filled, in source order, each with what it demands and the token it
holds; `Code.tokens` is the list of the tokens alone. `Code.allClauses` lists the clauses of a tree
at all depths.

`Code.WellFormed` says that every place holds what it demands, that nothing is empty which has to
hold something, and that stacks and runs of remarks alternate as they should. The delimiters in a
well-formed tree are those of its clauses (`Code.WellFormed.delimiters_eq`).
-/

namespace BlockNotation

/-- A place for a token, filled. -/
structure Field where
  demand : Terminal
  token : Token
deriving DecidableEq

namespace Field

/-- A place for tokens of one kind. -/
def of (k : Kind) (t : Token) : Field := ⟨.kind k, t⟩

/-- A place that may be left empty. -/
def ofOption (k : Kind) (t : Option Token) : List Field := t.toList.map (of k)

/-- Does the place hold a token it demands? -/
def Holds (f : Field) : Prop := f.token.kind ∈ f.demand.kinds

/-- The token in a place for delimiters. -/
def delimiter? (f : Field) : Option Token :=
  if f.demand = .kind .delimiter then some f.token else none

@[simp] theorem ofOption_none (k : Kind) : ofOption k none = [] := rfl

@[simp] theorem ofOption_some (k : Kind) (t : Token) : ofOption k (some t) = [of k t] := rfl

@[simp] theorem token_of (k : Kind) (t : Token) : (of k t).token = t := rfl

@[simp] theorem map_token_ofOption (k : Kind) (t : Option Token) :
    (ofOption k t).map token = t.toList := by cases t <;> rfl

@[simp] theorem delimiter?_of (k : Kind) (t : Token) :
    (of k t).delimiter? = if k = .delimiter then some t else none := by
  simp [of, delimiter?]

@[simp] theorem delimiter?_family (f : Family) (t : Token) :
    Field.delimiter? ⟨.family f, t⟩ = none := by
  simp [delimiter?]

theorem Holds.delimiter?_eq {f : Field} (h : f.Holds) :
    f.delimiter? = if f.token.kind = .delimiter then some f.token else none := by
  obtain ⟨_ | fam, t⟩ := f
  · obtain rfl : t.kind = _ := List.mem_singleton.1 h
    exact delimiter?_of _ _
  · have hne : t.kind ≠ .delimiter := by
      intro ht
      rw [Holds, ht] at h
      cases fam <;> simp [Terminal.kinds, Family.kinds] at h
    rw [if_neg hne, delimiter?_family]

@[simp] theorem filterMap_ofOption {k : Kind} (hk : k ≠ .delimiter) (t : Option Token) :
    (ofOption k t).filterMap delimiter? = [] := by
  cases t <;> simp [hk]

end Field

def Modifier.fields (m : Modifier) : List Field := [.of .doubleColon m.marker, .of .label m.label]

def Annotations.fields : Annotations → List Field
  | .remark t id => .of .remark t :: Field.ofOption .identifier id
  | .identified id t => .of .identifier id :: Field.ofOption .remark t

mutual

def Atomic.fields : Atomic → List Field
  | ⟨elements, modifier, annotations, _⟩ =>
    Element.fieldsOfAll elements ++ modifier.elim [] Modifier.fields
      ++ annotations.elim [] Annotations.fields

def Element.fieldsOfAll : List Element → List Field
  | [] => []
  | .label token :: elements => .of .label token :: Element.fieldsOfAll elements
  | .argument argument :: elements => argument.fields ++ Element.fieldsOfAll elements

def Argument.fields : Argument → List Field
  | .curly opening none id closing =>
    .of .openCurly opening :: Field.ofOption .identifier id ++ [.of .closeCurly closing]
  | .curly opening (some value) id closing =>
    .of .openCurly opening :: value.fields ++ Field.ofOption .identifier id
      ++ [.of .closeCurly closing]
  | .bare value => value.fields

def Value.fields : Value → List Field
  | .literal token => [⟨.family .literal, token⟩]
  | .bracketed shape brackets => brackets.fields shape

def Brackets.fields : Brackets → Shape → List Field
  | ⟨opening, none, closing⟩, shape => [.of shape.opening opening, .of shape.closing closing]
  | ⟨opening, some atomic, closing⟩, shape =>
    .of shape.opening opening :: atomic.fields ++ [.of shape.closing closing]

end

def Condition.fields : Condition → List Field
  | .curly opening predicate id closing =>
    .of .openCurly opening :: predicate.elim [] (·.fields .angle) ++ Field.ofOption .identifier id
      ++ [.of .closeCurly closing]
  | .bare predicate => predicate.fields .angle

mutual

def Stack.fields : Stack → List Field
  | ⟨blocks, _⟩ => Block.fieldsOfAll blocks

def Block.fieldsOfAll : List Block → List Field
  | [] => []
  | block :: blocks => block.fields ++ Block.fieldsOfAll blocks

def Block.fields : Block → List Field
  | .atomic a => a.fields
  | .composite c => c.fields

def Composite.fields : Composite → List Field
  | .ifElse keyword condition thenWord annotations body none _ =>
    .of .ifWord keyword :: condition.fields ++ Field.ofOption .thenWord thenWord
      ++ annotations.elim [] Annotations.fields ++ body.fields
  | .ifElse keyword condition thenWord annotations body (some branch) _ =>
    .of .ifWord keyword :: condition.fields ++ Field.ofOption .thenWord thenWord
      ++ annotations.elim [] Annotations.fields ++ body.fields ++ branch.fields
  | .forever keyword annotations body _ =>
    .of .foreverWord keyword :: annotations.elim [] Annotations.fields ++ body.fields
  | .repeatTimes keyword count annotations body _ =>
    .of .repeatWord keyword :: count.fields ++ annotations.elim [] Annotations.fields
      ++ body.fields
  | .repeatUntil keyword condition annotations body _ =>
    .of .repeatUntilWord keyword :: condition.fields ++ annotations.elim [] Annotations.fields
      ++ body.fields

def ElseBranch.fields : ElseBranch → List Field
  | ⟨keyword, clause⟩ => .of .elseWord keyword :: clause.fields

def Clause.fields : Clause → List Field
  | ⟨delimiter, none, closing⟩ =>
    Field.ofOption .delimiter delimiter ++ Field.ofOption .endWord closing
  | ⟨delimiter, some stack, closing⟩ =>
    Field.ofOption .delimiter delimiter ++ stack.fields ++ Field.ofOption .endWord closing

end

def Comments.fields (c : Comments) : List Field := c.remarks.map (.of .remark)

namespace Segment

def fields : Segment → List Field
  | .stack s => s.fields
  | .comments c => c.fields

def stack? : Segment → Option Stack
  | .stack s => some s
  | .comments _ => none

def comments? : Segment → Option Comments
  | .stack _ => none
  | .comments c => some c

/-- One of two segments is a stack. -/
def Alternate (s s' : Segment) : Prop := s.comments? = none ∨ s'.comments? = none

end Segment

mutual

/-- The clauses of a stack, those inside others included. -/
def Stack.allClauses : Stack → List Clause
  | ⟨blocks, _⟩ => Block.allClausesOfAll blocks

def Block.allClausesOfAll : List Block → List Clause
  | [] => []
  | .atomic _ :: blocks => Block.allClausesOfAll blocks
  | .composite c :: blocks => c.allClauses ++ Block.allClausesOfAll blocks

def Composite.allClauses : Composite → List Clause
  | .ifElse _ _ _ _ body none _ => body.allClauses
  | .ifElse _ _ _ _ body (some branch) _ => body.allClauses ++ branch.allClauses
  | .forever _ _ body _ => body.allClauses
  | .repeatTimes _ _ _ body _ => body.allClauses
  | .repeatUntil _ _ _ body _ => body.allClauses

def ElseBranch.allClauses : ElseBranch → List Clause
  | ⟨_, clause⟩ => clause.allClauses

/-- A clause and the clauses inside it. -/
def Clause.allClauses : Clause → List Clause
  | c@⟨_, none, _⟩ => [c]
  | c@⟨_, some stack, _⟩ => c :: stack.allClauses

end

namespace Code

/-- The places for tokens in a script, in source order. -/
def fields (c : Code) : List Field :=
  c.comments.elim [] Comments.fields ++ c.segments.flatMap Segment.fields

/-- The tokens of a script, in source order. -/
def tokens (c : Code) : List Token := c.fields.map Field.token

/-- Every clause of a script, in source order. -/
def allClauses (c : Code) : List Clause := c.stackList.flatMap Stack.allClauses

/-- The delimiters of the clauses of a script. -/
def delimiters (c : Code) : List Token := c.allClauses.filterMap Clause.delimiter

/-- Every stack of a script: those outside and those that clauses hold. -/
def allStacks (c : Code) : List Stack := c.stackList ++ c.allClauses.filterMap Clause.body

/-- Every run of remarks of a script. -/
def commentRuns (c : Code) : List Comments :=
  c.comments.toList ++ c.segments.filterMap Segment.comments?

theorem stackList_eq (c : Code) : c.stackList = c.segments.filterMap Segment.stack? := rfl

end Code

/-- Every place holds what it demands, nothing is empty that has to hold something, and runs of
remarks stand apart, none of them first. -/
structure Code.WellFormed (c : Code) : Prop where
  holds : ∀ f ∈ c.fields, f.Holds
  elements : ∀ a ∈ c.atomicBlocks, a.elements ≠ []
  blocks : ∀ s ∈ c.allStacks, s.blocks ≠ []
  remarks : ∀ r ∈ c.commentRuns, r.remarks ≠ []
  first : ∀ s ∈ c.segments.head?, s.comments? = none
  apart : c.segments.IsChain Segment.Alternate

/-! ## Nothing is empty -/

/-- None of some atomic blocks is empty. -/
def Filled (as : List Atomic) : Prop := ∀ a ∈ as, a.elements ≠ []

@[simp] theorem filled_nil : Filled [] := by simp [Filled]

@[simp] theorem filled_append {as bs : List Atomic} :
    Filled (as ++ bs) ↔ Filled as ∧ Filled bs := List.forall_mem_append

/-- None of the stacks in some clauses is empty. -/
def Stocked (cs : List Clause) : Prop := ∀ c ∈ cs, ∀ s ∈ c.body, s.blocks ≠ []

@[simp] theorem stocked_nil : Stocked [] := by simp [Stocked]

@[simp] theorem stocked_append {cs ds : List Clause} :
    Stocked (cs ++ ds) ↔ Stocked cs ∧ Stocked ds := List.forall_mem_append

def Clause.Whole (c : Clause) : Prop := Filled c.atomics ∧ Stocked c.allClauses

def Composite.Whole (c : Composite) : Prop := Filled c.atomics ∧ Stocked c.allClauses

def Block.Whole (b : Block) : Prop := Filled b.atomics ∧ Stocked (Block.allClausesOfAll [b])

def Stack.Whole (s : Stack) : Prop := Filled s.atomics ∧ s.blocks ≠ [] ∧ Stocked s.allClauses

def Segment.Whole : Segment → Prop
  | .stack s => s.Whole
  | .comments c => c.remarks ≠ []

section Whole

variable {keyword : Token} {condition : Condition} {thenWord : Option Token}
  {annotations : Option Annotations} {count : Argument} {body : Clause} {span : Span}

@[simp] theorem Composite.whole_ifElse_none :
    (Composite.ifElse keyword condition thenWord annotations body none span).Whole ↔
      Filled condition.atomics ∧ body.Whole := by
  simp [Composite.Whole, Clause.Whole, Composite.atomics, Composite.allClauses, and_assoc]

@[simp] theorem Composite.whole_ifElse_some {branch : ElseBranch} :
    (Composite.ifElse keyword condition thenWord annotations body (some branch) span).Whole ↔
      Filled condition.atomics ∧ body.Whole ∧ branch.clause.Whole := by
  obtain ⟨word, clause⟩ := branch
  simp only [Composite.Whole, Clause.Whole, Composite.atomics, Composite.allClauses,
    ElseBranch.atomics, ElseBranch.allClauses, filled_append, stocked_append]
  constructor
  · rintro ⟨⟨⟨h₁, h₂⟩, h₃⟩, h₄, h₅⟩
    exact ⟨h₁, ⟨h₂, h₄⟩, h₃, h₅⟩
  · rintro ⟨h₁, ⟨h₂, h₄⟩, h₃, h₅⟩
    exact ⟨⟨⟨h₁, h₂⟩, h₃⟩, h₄, h₅⟩

@[simp] theorem Composite.whole_forever :
    (Composite.forever keyword annotations body span).Whole ↔ body.Whole := by
  simp [Composite.Whole, Clause.Whole, Composite.atomics, Composite.allClauses]

@[simp] theorem Composite.whole_repeatTimes :
    (Composite.repeatTimes keyword count annotations body span).Whole ↔
      Filled count.atomics ∧ body.Whole := by
  simp [Composite.Whole, Clause.Whole, Composite.atomics, Composite.allClauses, and_assoc]

@[simp] theorem Composite.whole_repeatUntil :
    (Composite.repeatUntil keyword condition annotations body span).Whole ↔
      Filled condition.atomics ∧ body.Whole := by
  simp [Composite.Whole, Clause.Whole, Composite.atomics, Composite.allClauses, and_assoc]

@[simp] theorem Block.whole_atomic {a : Atomic} : (Block.atomic a).Whole ↔ Filled a.atomics := by
  simp [Block.Whole, Block.atomics, Block.allClausesOfAll]

@[simp] theorem Block.whole_composite {c : Composite} : (Block.composite c).Whole ↔ c.Whole := by
  simp [Block.Whole, Composite.Whole, Block.atomics, Block.allClausesOfAll]

@[simp] theorem Clause.whole_none {delimiter closing : Option Token} :
    Clause.Whole ⟨delimiter, none, closing⟩ := by
  simp [Clause.Whole, Clause.atomics, Clause.allClauses, Stocked]

@[simp] theorem Clause.whole_some {delimiter closing : Option Token} {s : Stack} :
    Clause.Whole ⟨delimiter, some s, closing⟩ ↔ s.Whole := by
  simp [Clause.Whole, Clause.atomics, Clause.allClauses, Stocked, Stack.Whole]

end Whole

theorem Element.filled : ∀ es : List Element, (∀ e ∈ es, Filled (Element.atomicsOfAll [e])) →
    Filled (Element.atomicsOfAll es)
  | [], _ => filled_nil
  | e :: es, h => by
    have hes := Element.filled es fun e he => h e (List.mem_cons_of_mem _ he)
    have he := h e List.mem_cons_self
    cases e <;> simp_all [Element.atomicsOfAll]

theorem Block.whole : ∀ bs : List Block, (∀ b ∈ bs, b.Whole) →
    Filled (Block.atomicsOfAll bs) ∧ Stocked (Block.allClausesOfAll bs)
  | [], _ => ⟨filled_nil, stocked_nil⟩
  | b :: bs, h => by
    have hbs := Block.whole bs fun b hb => h b (List.mem_cons_of_mem _ hb)
    have hb := h b List.mem_cons_self
    cases b <;> simp_all [Block.Whole, Block.atomicsOfAll, Block.allClausesOfAll]

theorem Element.fieldsOfAll_eq (es : List Element) :
    Element.fieldsOfAll es = es.flatMap fun e => Element.fieldsOfAll [e] := by
  induction es with
  | nil => rfl
  | cons e es ih => cases e <;> simp [Element.fieldsOfAll, ih]

theorem Block.fieldsOfAll_eq (bs : List Block) :
    Block.fieldsOfAll bs = bs.flatMap Block.fields := by
  induction bs with
  | nil => rfl
  | cons b bs ih => simp [Block.fieldsOfAll, ih]

/-- A script whose segments are whole, in which stacks and runs of remarks alternate, is well
formed. -/
theorem Code.wellFormed {c : Code} (hfields : ∀ f ∈ c.fields, f.Holds)
    (hcomments : ∀ r ∈ c.comments, r.remarks ≠ [])
    (hwhole : ∀ s ∈ c.segments, s.Whole)
    (hfirst : ∀ x ∈ c.segments.head?, x.comments? = none)
    (hchain : c.segments.IsChain Segment.Alternate) : c.WellFormed := by
  have hstacks : ∀ s ∈ c.stackList, s.Whole := by
    intro s hs
    rw [stackList_eq, List.mem_filterMap] at hs
    obtain ⟨x, hx, hxs⟩ := hs
    cases x with
    | stack s' => cases hxs; exact hwhole _ hx
    | comments r => cases hxs
  refine ⟨hfields, ?_, ?_, ?_, hfirst, hchain⟩
  · intro a ha
    obtain ⟨s, hs, ha⟩ := List.mem_flatMap.1 ha
    exact (hstacks s hs).1 a ha
  · intro s hs
    rcases List.mem_append.1 hs with hs | hs
    · exact (hstacks s hs).2.1
    · obtain ⟨clause, hc, hbody⟩ := List.mem_filterMap.1 hs
      obtain ⟨s', hs', hc⟩ := List.mem_flatMap.1 hc
      exact (hstacks s' hs').2.2 clause hc s hbody
  · intro r hr
    rcases List.mem_append.1 hr with hr | hr
    · exact hcomments r (Option.mem_toList.1 hr)
    · obtain ⟨x, hx, hxr⟩ := List.mem_filterMap.1 hr
      cases x with
      | stack s => cases hxr
      | comments r' => cases hxr; exact hwhole _ hx

/-! ## Places for delimiters -/

theorem Modifier.no_delimiter (m : Modifier) : m.fields.filterMap Field.delimiter? = [] := by
  simp [fields]

theorem Annotations.no_delimiter (a : Annotations) : a.fields.filterMap Field.delimiter? = [] := by
  cases a <;> simp [fields]

mutual

theorem Atomic.no_delimiter : ∀ a : Atomic, a.fields.filterMap Field.delimiter? = []
  | ⟨elements, modifier, annotations, _⟩ => by
    have h := Element.no_delimiter elements
    cases modifier <;> cases annotations <;>
      simp [Atomic.fields, h, Modifier.no_delimiter, Annotations.no_delimiter]

theorem Element.no_delimiter :
    ∀ es : List Element, (Element.fieldsOfAll es).filterMap Field.delimiter? = []
  | [] => rfl
  | .label token :: es => by
    have h := Element.no_delimiter es
    simp [Element.fieldsOfAll, h]
  | .argument a :: es => by
    have h := Element.no_delimiter es
    have ha := a.no_delimiter
    simp [Element.fieldsOfAll, h, ha]

theorem Argument.no_delimiter : ∀ a : Argument, a.fields.filterMap Field.delimiter? = []
  | .curly _ none _ _ => by simp [Argument.fields]
  | .curly _ (some v) _ _ => by
    have h := v.no_delimiter
    simp [Argument.fields, h]
  | .bare v => by
    have h := v.no_delimiter
    simp [Argument.fields, h]

theorem Value.no_delimiter : ∀ v : Value, v.fields.filterMap Field.delimiter? = []
  | .literal _ => by simp [Value.fields]
  | .bracketed shape b => by
    have h := b.no_delimiter shape
    simp [Value.fields, h]

theorem Brackets.no_delimiter :
    ∀ (b : Brackets) (shape : Shape), (b.fields shape).filterMap Field.delimiter? = []
  | ⟨_, none, _⟩, shape => by cases shape <;> simp [Brackets.fields, Shape.opening, Shape.closing]
  | ⟨_, some a, _⟩, shape => by
    have h := a.no_delimiter
    cases shape <;> simp [Brackets.fields, Shape.opening, Shape.closing, h]

end

theorem Condition.no_delimiter (c : Condition) : c.fields.filterMap Field.delimiter? = [] := by
  rcases c with ⟨_, _ | b, _, _⟩ | b <;> simp [fields, Brackets.no_delimiter]

mutual

theorem Stack.filterMap_fields : ∀ s : Stack,
    s.fields.filterMap Field.delimiter? = s.allClauses.filterMap Clause.delimiter
  | ⟨blocks, _⟩ => Block.filterMap_fields blocks

theorem Block.filterMap_fields : ∀ bs : List Block,
    (Block.fieldsOfAll bs).filterMap Field.delimiter? =
      (Block.allClausesOfAll bs).filterMap Clause.delimiter
  | [] => rfl
  | .atomic a :: bs => by
    have h := Block.filterMap_fields bs
    simp [Block.fieldsOfAll, Block.fields, Block.allClausesOfAll, a.no_delimiter, h]
  | .composite c :: bs => by
    have h := Block.filterMap_fields bs
    have hc := c.filterMap_fields
    simp [Block.fieldsOfAll, Block.fields, Block.allClausesOfAll, hc, h]

theorem Composite.filterMap_fields : ∀ c : Composite,
    c.fields.filterMap Field.delimiter? = c.allClauses.filterMap Clause.delimiter
  | .ifElse _ c _ a body none _ => by
    have h := body.filterMap_fields
    cases a <;> simp [Composite.fields, Composite.allClauses, c.no_delimiter,
      Annotations.no_delimiter, h]
  | .ifElse _ c _ a body (some ⟨_, clause⟩) _ => by
    have h := body.filterMap_fields
    have h' := clause.filterMap_fields
    cases a <;> simp [Composite.fields, Composite.allClauses, ElseBranch.fields,
      ElseBranch.allClauses, c.no_delimiter, Annotations.no_delimiter, h, h']
  | .forever _ a body _ => by
    have h := body.filterMap_fields
    cases a <;> simp [Composite.fields, Composite.allClauses, Annotations.no_delimiter, h]
  | .repeatTimes _ count a body _ => by
    have h := body.filterMap_fields
    cases a <;> simp [Composite.fields, Composite.allClauses, count.no_delimiter,
      Annotations.no_delimiter, h]
  | .repeatUntil _ c a body _ => by
    have h := body.filterMap_fields
    cases a <;> simp [Composite.fields, Composite.allClauses, c.no_delimiter,
      Annotations.no_delimiter, h]

theorem Clause.filterMap_fields : ∀ c : Clause,
    c.fields.filterMap Field.delimiter? = c.allClauses.filterMap Clause.delimiter
  | ⟨delimiter, none, _⟩ => by cases delimiter <;> simp [Clause.fields, Clause.allClauses]
  | ⟨delimiter, some s, _⟩ => by
    have h := s.filterMap_fields
    cases delimiter <;> simp [Clause.fields, Clause.allClauses, h]

end

theorem Comments.no_delimiter (c : Comments) : c.fields.filterMap Field.delimiter? = [] := by
  simp [fields]

/-- The places for delimiters in a script are those of its clauses. -/
theorem Code.filterMap_fields (c : Code) : c.fields.filterMap Field.delimiter? = c.delimiters := by
  have hsegments : ∀ ss : List Segment, (ss.flatMap Segment.fields).filterMap Field.delimiter? =
      ((ss.filterMap Segment.stack?).flatMap Stack.allClauses).filterMap Clause.delimiter := by
    intro ss
    induction ss with
    | nil => rfl
    | cons s ss ih =>
      cases s with
      | stack s => simp [Segment.fields, Segment.stack?, s.filterMap_fields, ih]
      | comments r =>
        simp [Segment.fields, List.filterMap_cons, Segment.stack?, r.no_delimiter, ih]
  unfold fields delimiters allClauses
  rw [List.filterMap_append, hsegments, stackList_eq]
  cases c.comments <;> simp [Comments.no_delimiter]

/-- The delimiters among the tokens of a well-formed script are those of its clauses. -/
theorem Code.WellFormed.delimiters_eq {c : Code} (h : c.WellFormed) :
    c.tokens.filter (·.kind = .delimiter) = c.delimiters := by
  have hfields : ∀ fs : List Field, (∀ f ∈ fs, f.Holds) →
      (fs.map Field.token).filter (·.kind = .delimiter) = fs.filterMap Field.delimiter? := by
    intro fs hfs
    induction fs with
    | nil => rfl
    | cons f fs ih =>
      rw [List.forall_mem_cons] at hfs
      rw [List.map_cons, List.filter_cons, List.filterMap_cons, ih hfs.2, hfs.1.delimiter?_eq]
      by_cases hf : f.token.kind = .delimiter <;> simp [hf]
  rw [← Code.filterMap_fields]
  exact hfields _ h.holds

end BlockNotation
