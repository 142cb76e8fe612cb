import BlockNotation.Proofs.Script.Recasting

/-!
# Trees of other tokens

`Code.mapTokens f` is the tree of a script with `f t` in place of each token `t`. Spans are left
out: every node has the same one. So two trees with the same image have the same shape, and tokens
that `f` does not tell apart in the same places.

A tree of slots, which are tokens that stand for a kind and an index, is an outline of trees of
other tokens (`Code.Fills`).
-/

namespace BlockNotation

/-- The span of every node whose tokens were replaced. -/
def Span.blank : Span := ⟨0, 0⟩

mutual

def Atomic.mapTokens (f : Token → Token) : Atomic → Atomic
  | ⟨elements, modifier, annotations, _⟩ =>
    ⟨Element.mapTokensOfAll f elements, modifier.map (·.recast f), annotations.map (·.recast f),
      .blank⟩

def Element.mapTokensOfAll (f : Token → Token) : List Element → List Element
  | [] => []
  | e :: es => e.mapTokens f :: Element.mapTokensOfAll f es

def Element.mapTokens (f : Token → Token) : Element → Element
  | .label token => .label (f token)
  | .argument a => .argument (a.mapTokens f)

def Argument.mapTokens (f : Token → Token) : Argument → Argument
  | .curly opening none id closing => .curly (f opening) none (id.map f) (f closing)
  | .curly opening (some value) id closing =>
    .curly (f opening) (some (value.mapTokens f)) (id.map f) (f closing)
  | .bare value => .bare (value.mapTokens f)

def Value.mapTokens (f : Token → Token) : Value → Value
  | .literal token => .literal (f token)
  | .bracketed shape brackets => .bracketed shape (brackets.mapTokens f)

def Brackets.mapTokens (f : Token → Token) : Brackets → Brackets
  | ⟨opening, none, closing⟩ => ⟨f opening, none, f closing⟩
  | ⟨opening, some atomic, closing⟩ => ⟨f opening, some (atomic.mapTokens f), f closing⟩

end

def Condition.mapTokens (f : Token → Token) : Condition → Condition
  | .curly opening predicate id closing =>
    .curly (f opening) (predicate.map (·.mapTokens f)) (id.map f) (f closing)
  | .bare predicate => .bare (predicate.mapTokens f)

mutual

def Stack.mapTokens (f : Token → Token) : Stack → Stack
  | ⟨blocks, _⟩ => ⟨Block.mapTokensOfAll f blocks, .blank⟩

def Block.mapTokensOfAll (f : Token → Token) : List Block → List Block
  | [] => []
  | b :: bs => b.mapTokens f :: Block.mapTokensOfAll f bs

def Block.mapTokens (f : Token → Token) : Block → Block
  | .atomic a => .atomic (a.mapTokens f)
  | .composite c => .composite (c.mapTokens f)

def Composite.mapTokens (f : Token → Token) : Composite → Composite
  | .ifElse keyword condition thenWord annotations body none _ =>
    .ifElse (f keyword) (condition.mapTokens f) (thenWord.map f) (annotations.map (·.recast f))
      (body.mapTokens f) none .blank
  | .ifElse keyword condition thenWord annotations body (some branch) _ =>
    .ifElse (f keyword) (condition.mapTokens f) (thenWord.map f) (annotations.map (·.recast f))
      (body.mapTokens f) (some (branch.mapTokens f)) .blank
  | .forever keyword annotations body _ =>
    .forever (f keyword) (annotations.map (·.recast f)) (body.mapTokens f) .blank
  | .repeatTimes keyword count annotations body _ =>
    .repeatTimes (f keyword) (count.mapTokens f) (annotations.map (·.recast f)) (body.mapTokens f)
      .blank
  | .repeatUntil keyword condition annotations body _ =>
    .repeatUntil (f keyword) (condition.mapTokens f) (annotations.map (·.recast f))
      (body.mapTokens f) .blank

def ElseBranch.mapTokens (f : Token → Token) : ElseBranch → ElseBranch
  | ⟨keyword, clause⟩ => ⟨f keyword, clause.mapTokens f⟩

def Clause.mapTokens (f : Token → Token) : Clause → Clause
  | ⟨delimiter, none, closing⟩ => ⟨delimiter.map f, none, closing.map f⟩
  | ⟨delimiter, some body, closing⟩ => ⟨delimiter.map f, some (body.mapTokens f), closing.map f⟩

end

def Comments.mapTokens (f : Token → Token) (c : Comments) : Comments := ⟨c.remarks.map f, .blank⟩

def Segment.mapTokens (f : Token → Token) : Segment → Segment
  | .stack s => .stack (s.mapTokens f)
  | .comments c => .comments (c.mapTokens f)

def Segment.mapTokensOfAll (f : Token → Token) (segments : List Segment) : List Segment :=
  segments.map (·.mapTokens f)

def Code.mapTokens (f : Token → Token) (c : Code) : Code :=
  ⟨c.comments.map (·.mapTokens f), Segment.mapTokensOfAll f c.segments, .blank, c.sourceId⟩

variable {f : Token → Token}

theorem Element.mapTokensOfAll_eq_map : ∀ es : List Element,
    Element.mapTokensOfAll f es = es.map (·.mapTokens f)
  | [] => rfl
  | e :: es => by rw [Element.mapTokensOfAll, Element.mapTokensOfAll_eq_map es, List.map_cons]

theorem Block.mapTokensOfAll_eq_map : ∀ bs : List Block,
    Block.mapTokensOfAll f bs = bs.map (·.mapTokens f)
  | [] => rfl
  | b :: bs => by rw [Block.mapTokensOfAll, Block.mapTokensOfAll_eq_map bs, List.map_cons]

theorem Argument.mapTokens_curly {opening closing : Token} {value : Option Value}
    {id : Option Token} : (Argument.curly opening value id closing).mapTokens f =
      .curly (f opening) (value.map (·.mapTokens f)) (id.map f) (f closing) := by
  cases value <;> rfl

theorem Brackets.mapTokens_mk {opening closing : Token} {atomic : Option Atomic} :
    (Brackets.mk opening atomic closing).mapTokens f =
      ⟨f opening, atomic.map (·.mapTokens f), f closing⟩ := by
  cases atomic <;> rfl

theorem Composite.mapTokens_ifElse {keyword : Token} {condition : Condition}
    {thenWord : Option Token} {annotations : Option Annotations} {body : Clause}
    {otherwise : Option ElseBranch} {span : Span} :
    (Composite.ifElse keyword condition thenWord annotations body otherwise span).mapTokens f =
      .ifElse (f keyword) (condition.mapTokens f) (thenWord.map f) (annotations.map (·.recast f))
        (body.mapTokens f) (otherwise.map (·.mapTokens f)) .blank := by
  cases otherwise <;> rfl

theorem Clause.mapTokens_mk {delimiter closing : Option Token} {body : Option Stack} :
    (Clause.mk delimiter body closing).mapTokens f =
      ⟨delimiter.map f, body.map (·.mapTokens f), closing.map f⟩ := by
  cases body <;> rfl

theorem Segment.mapTokensOfAll_append (ss ts : List Segment) :
    Segment.mapTokensOfAll f (ss ++ ts) =
      Segment.mapTokensOfAll f ss ++ Segment.mapTokensOfAll f ts :=
  List.map_append

theorem Segment.mapTokensOfAll_flatten (sss : List (List Segment)) :
    Segment.mapTokensOfAll f sss.flatten = (sss.map (Segment.mapTokensOfAll f)).flatten :=
  List.map_flatten

theorem Segment.mapTokensOfAll_stack (o : Option Stack) :
    Segment.mapTokensOfAll f (o.map Segment.stack).toList =
      ((o.map (·.mapTokens f)).map Segment.stack).toList := by
  cases o <;> rfl

/-! ## Outlines -/

/-- The slot of a kind at an index. -/
def Token.slot (i : Nat) (k : Kind) : Token := { (default : Token) with kind := k, span := ⟨i, i⟩ }

/-- The index of a slot. -/
def Token.index (slot : Token) : Nat := slot.span.start

/-- A slot for each kind of a list. -/
def slots (ks : List Kind) : List Token := ks.mapIdx Token.slot

/-- A tree of slots whose indices are below `n`, and increase from each slot to the next. -/
structure Code.IsOutline (outline : Code) (n : Nat) : Prop where
  bounded : ∀ slot ∈ outline.tokens, slot.index < n
  increasing : outline.tokens.Pairwise (·.index < ·.index)

/-- The tree has the shape of the outline, and in the place of each slot the token that the list
has at the slot's index. -/
def Code.Fills (code outline : Code) (ts : List Token) : Prop :=
  code.mapTokens id = outline.mapTokens fun slot => ts.getD slot.index default

end BlockNotation
