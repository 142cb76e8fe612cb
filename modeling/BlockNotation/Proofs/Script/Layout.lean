import BlockNotation.Proofs.Script.Fields

/-!
# How a script tree lies over tokens

`Stack.Covers` says that a stack was read from exactly some tokens, and so for the nodes inside it:
which tokens are the stack's own, which those of each of its blocks, and that every span runs from
the first token of its node to the last. A stack leaves the delimiter after its last block out of
its span. Inside an atomic block no token is left out, so its tokens are those in its fields.

Stacks of a script lie among its tokens one after the other (`Stack.Strewn`). A property of what is
inside atomic blocks, conditions and counts then holds of the script (`Stack.Strewn.spread`). What
matters for reports is that every atomic block reaches over tokens that stand together
(`Seated.spreads`).
-/

namespace BlockNotation

/-- Where the last of some tokens ends; `stop` if there is none. -/
def endOf (stop : Nat) (w : List Token) : Nat := (w.getLast?.map (·.span.stop)).getD stop

@[simp] theorem endOf_nil (stop : Nat) : endOf stop [] = stop := rfl

theorem endOf_append (stop : Nat) (w v : List Token) :
    endOf stop (w ++ v) = endOf (endOf stop w) v := by
  unfold endOf
  rw [List.getLast?_append]
  cases v.getLast? <;> simp

theorem endOf_eq_getLast {w : List Token} (h : w ≠ []) (stop : Nat) :
    endOf stop w = (w.getLast h).span.stop := by
  rw [endOf, List.getLast?_eq_some_getLast h]
  rfl

/-- From the start of the first of some tokens to the end of the last. -/
def Span.hull (w : List Token) : Span := ⟨Cursor.startOf 0 w, endOf 0 w⟩

theorem startOf_append {w : List Token} (h : w ≠ []) (stop stop' : Nat) (v : List Token) :
    Cursor.startOf stop (w ++ v) = Cursor.startOf stop' w := by
  cases w with
  | nil => exact absurd rfl h
  | cons t w => rfl

theorem Span.eq_hull {w : List Token} {start stop : Nat} (h : w ≠ [])
    (hstart : w ≠ [] → start = Cursor.startOf 0 w) (hstop : w ≠ [] → stop = endOf 0 w) :
    ⟨start, stop⟩ = Span.hull w := by
  rw [Span.hull, hstart h, hstop h]

/-! ## Inside atomic blocks -/

/-- The tokens of annotations that may be missing. -/
def Annotations.tokens (a : Option Annotations) : List Token :=
  (a.elim [] Annotations.fields).map Field.token

theorem Atomic.tokens_eq (a : Atomic) : a.fields.map Field.token =
    (Element.fieldsOfAll a.elements).map Field.token ++
      (a.modifier.elim [] Modifier.fields).map Field.token ++ Annotations.tokens a.annotations := by
  obtain ⟨elements, modifier, annotations, span⟩ := a
  simp [Atomic.fields, Annotations.tokens]

/-- An atomic block has tokens and reaches from the first to the last. -/
def Atomic.Spanned (a : Atomic) : Prop :=
  a.fields ≠ [] ∧ a.span = .hull (a.fields.map Field.token)

/-- A node with the places `fs` and the atomic blocks `as` inside it lies over the tokens `w`. -/
structure Laid (w : List Token) (fs : List Field) (as : List Atomic) : Prop where
  tokens : fs.map Field.token = w
  spans : ∀ a ∈ as, a.Spanned

theorem laid_nil : Laid [] [] [] := ⟨rfl, by simp⟩

theorem Laid.append {w v : List Token} {fs gs : List Field} {as bs : List Atomic}
    (h : Laid w fs as) (h' : Laid v gs bs) : Laid (w ++ v) (fs ++ gs) (as ++ bs) :=
  ⟨by rw [List.map_append, h.tokens, h'.tokens],
    List.forall_mem_append.2 ⟨h.spans, h'.spans⟩⟩

theorem Argument.fields_ne_nil (a : Argument) : a.fields ≠ [] := by
  cases a with
  | curly opening value id closing => cases value <;> simp [Argument.fields]
  | bare value =>
    rcases value with token | ⟨shape, opening, atomic, closing⟩
    · simp [Argument.fields, Value.fields]
    · cases atomic <;> simp [Argument.fields, Value.fields, Brackets.fields]

theorem Element.fieldsOfAll_ne_nil (e : Element) (es : List Element) :
    Element.fieldsOfAll (e :: es) ≠ [] := by
  cases e with
  | label token => simp [Element.fieldsOfAll]
  | argument a => simp [Element.fieldsOfAll, a.fields_ne_nil]

mutual

/-- The places of an atomic block stand together in those of the one around it. -/
theorem Atomic.fields_inside {b : Atomic} :
    ∀ {a : Atomic}, b ∈ a.atomics → b.fields <:+: a.fields
  | ⟨elements, modifier, annotations, span⟩, h => by
    rw [Atomic.atomics, List.mem_cons] at h
    rcases h with rfl | h
    · exact List.infix_rfl
    · have := Element.fields_inside h
      rw [Atomic.fields, List.append_assoc]
      exact this.trans (List.prefix_append ..).isInfix

theorem Element.fields_inside {b : Atomic} :
    ∀ {es : List Element}, b ∈ Element.atomicsOfAll es → b.fields <:+: Element.fieldsOfAll es
  | [], h => by simp [Element.atomicsOfAll] at h
  | .label token :: es, h => by
    rw [Element.atomicsOfAll] at h
    exact (Element.fields_inside h).trans (List.suffix_cons ..).isInfix
  | .argument a :: es, h => by
    rw [Element.atomicsOfAll, List.mem_append] at h
    rw [Element.fieldsOfAll]
    rcases h with h | h
    · exact (Argument.fields_inside h).trans (List.prefix_append ..).isInfix
    · exact (Element.fields_inside h).trans (List.suffix_append ..).isInfix

theorem Argument.fields_inside {b : Atomic} :
    ∀ {a : Argument}, b ∈ a.atomics → b.fields <:+: a.fields
  | .curly opening none id closing, h => by simp [Argument.atomics] at h
  | .curly opening (some value) id closing, h => by
    refine (Value.fields_inside (v := value) h).trans ?_
    rw [Argument.fields]
    exact ⟨[.of .openCurly opening], _, by simp; rfl⟩
  | .bare value, h => Value.fields_inside (v := value) h

theorem Value.fields_inside {b : Atomic} :
    ∀ {v : Value}, b ∈ v.atomics → b.fields <:+: v.fields
  | .literal token, h => by simp [Value.atomics] at h
  | .bracketed shape brackets, h => Brackets.fields_inside (x := brackets) shape h

theorem Brackets.fields_inside {b : Atomic} :
    ∀ {x : Brackets} (shape : Shape), b ∈ x.atomics → b.fields <:+: x.fields shape
  | ⟨opening, none, closing⟩, shape, h => by simp [Brackets.atomics] at h
  | ⟨opening, some atomic, closing⟩, shape, h => by
    refine (Atomic.fields_inside (a := atomic) h).trans ?_
    rw [Brackets.fields]
    exact ⟨[.of shape.opening opening], [.of shape.closing closing], rfl⟩

end

theorem Condition.fields_inside {b : Atomic} {c : Condition} (h : b ∈ c.atomics) :
    b.fields <:+: c.fields := by
  rcases c with ⟨opening, _ | predicate, id, closing⟩ | predicate
  · simp [Condition.atomics, Condition.predicate?] at h
  · refine (Brackets.fields_inside (x := predicate) .angle h).trans ?_
    exact ⟨[.of .openCurly opening], _, by simp [Condition.fields]; rfl⟩
  · exact Brackets.fields_inside (x := predicate) .angle h

/-! ## Stacks -/

mutual

/-- A stack lies over its blocks and at most one delimiter after them, which its span leaves
out. -/
def Stack.Covers : Stack → List Token → Prop
  | ⟨[], _⟩, _ => False
  | ⟨first :: later, span⟩, w => ∃ u v, ∃ d : Option Token, w = u ++ v ++ d.toList ∧
      first.Covers u ∧ Block.Follow later v ∧ (∀ t ∈ d, t.kind = .delimiter) ∧
      span = .hull (u ++ v)

/-- Blocks with a delimiter before each of them. -/
def Block.Follow : List Block → List Token → Prop
  | [], w => w = []
  | b :: bs, w => ∃ t u v, w = t :: u ++ v ∧ t.kind = .delimiter ∧ b.Covers u ∧ Block.Follow bs v

def Block.Covers : Block → List Token → Prop
  | .atomic a, w => Laid w a.fields a.atomics
  | .composite c, w => c.Covers w

/-- A control structure reaches over all its tokens, also those that its stacks leave out. -/
def Composite.Covers : Composite → List Token → Prop
  | .ifElse keyword condition thenWord annotations body none span, w => span = .hull w ∧
      ∃ x u, w = keyword :: x ++ thenWord.toList ++ Annotations.tokens annotations ++ u ∧
        Laid x condition.fields condition.atomics ∧ body.Covers u
  | .ifElse keyword condition thenWord annotations body (some branch) span, w =>
      span = .hull w ∧ ∃ x u v,
        w = keyword :: x ++ thenWord.toList ++ Annotations.tokens annotations ++ u ++ v ∧
        Laid x condition.fields condition.atomics ∧ body.Covers u ∧ branch.Covers v
  | .forever keyword annotations body span, w => span = .hull w ∧
      ∃ u, w = keyword :: Annotations.tokens annotations ++ u ∧ body.Covers u
  | .repeatTimes keyword count annotations body span, w => span = .hull w ∧
      ∃ x u, w = keyword :: x ++ Annotations.tokens annotations ++ u ∧
        Laid x count.fields count.atomics ∧ body.Covers u
  | .repeatUntil keyword condition annotations body span, w => span = .hull w ∧
      ∃ x u, w = keyword :: x ++ Annotations.tokens annotations ++ u ∧
        Laid x condition.fields condition.atomics ∧ body.Covers u

def ElseBranch.Covers : ElseBranch → List Token → Prop
  | ⟨keyword, clause⟩, w => ∃ u, w = keyword :: u ∧ clause.Covers u

def Clause.Covers : Clause → List Token → Prop
  | ⟨delimiter, none, closing⟩, w => w = delimiter.toList ++ closing.toList
  | ⟨delimiter, some stack, closing⟩, w =>
      ∃ u, w = delimiter.toList ++ u ++ closing.toList ∧ stack.Covers u

end

theorem Block.Covers.ne_nil {b : Block} {w : List Token} (h : b.Covers w) : w ≠ [] := by
  rcases b with ⟨elements, modifier, annotations, span⟩ | c
  · obtain ⟨rfl, hspans⟩ := h
    have hne := (hspans _ List.mem_cons_self).1
    simpa using hne
  · obtain ⟨keyword, condition, thenWord, annotations, body, _ | branch, span⟩ |
      ⟨keyword, annotations, body, span⟩ | ⟨keyword, count, annotations, body, span⟩ |
      ⟨keyword, condition, annotations, body, span⟩ := c
    · obtain ⟨-, x, u, rfl, -⟩ := h
      simp
    · obtain ⟨-, x, u, v, rfl, -⟩ := h
      simp
    · obtain ⟨-, u, rfl, -⟩ := h
      simp
    · obtain ⟨-, x, u, rfl, -⟩ := h
      simp
    · obtain ⟨-, x, u, rfl, -⟩ := h
      simp

/-- Remarks reach from the first to the last, and the delimiters after it are left out. -/
def Comments.Covers (c : Comments) (w : List Token) : Prop :=
  ∃ m ds, w = m ++ ds ∧ m ≠ [] ∧ (∀ t ∈ ds, t.kind = .delimiter) ∧
    m.getLast? = c.remarks.getLast? ∧ c.span = .hull m

/-- Stacks that lie in `w` one after the other, with any tokens before, between and after them. -/
def Stack.Strewn : List Stack → List Token → Prop
  | [], _ => True
  | s :: ss, w => ∃ x u v, w = x ++ u ++ v ∧ s.Covers u ∧ Stack.Strewn ss v

namespace Stack.Strewn

theorem prepend {ss : List Stack} {v : List Token} (x : List Token) (h : Strewn ss v) :
    Strewn ss (x ++ v) := by
  cases ss with
  | nil => trivial
  | cons s ss =>
    obtain ⟨y, u, v, rfl, hu, hv⟩ := h
    exact ⟨x ++ y, u, v, by simp, hu, hv⟩

theorem append : ∀ {ss ts : List Stack} {w v : List Token}, Strewn ss w → Strewn ts v →
    Strewn (ss ++ ts) (w ++ v)
  | [], _, w, _, _, h => h.prepend w
  | s :: ss, ts, w, v, h, h' => by
    obtain ⟨x, u, y, rfl, hu, hy⟩ := h
    exact ⟨x, u, y ++ v, by simp, hu, hy.append h'⟩

end Stack.Strewn

/-! ## From lines to scripts -/

/-- A property of tokens and the atomic blocks among them that reaches from lines to scripts: it
holds over what an atomic block, a condition or a count was read from, and is kept where such parts
stand one after the other or among further tokens. -/
structure Spreads (P : List Token → List Atomic → Prop) : Prop where
  nil (w : List Token) : P w []
  append {w v : List Token} {as bs : List Atomic} : P w as → P v bs → P (w ++ v) (as ++ bs)
  mono {w v : List Token} {as : List Atomic} : P w as → w <:+: v → P v as
  atomic {w : List Token} {a : Atomic} : Laid w a.fields a.atomics → P w a.atomics
  condition {w : List Token} {c : Condition} : Laid w c.fields c.atomics → P w c.atomics
  argument {w : List Token} {a : Argument} : Laid w a.fields a.atomics → P w a.atomics

/-- What a control structure holds comes after its keyword. -/
theorem Spreads.headed {P : List Token → List Atomic → Prop} (hP : Spreads P)
    {w y u : List Token} {t : Token} {as bs : List Atomic} (h : P w as) (h' : P u bs) :
    P (t :: w ++ y ++ u) (as ++ bs) := by
  have hkeyword := hP.mono h (List.suffix_cons t w).isInfix
  exact hP.append (hP.mono hkeyword (List.prefix_append _ y).isInfix) h'

section Spreads

variable {P : List Token → List Atomic → Prop} (hP : Spreads P)

include hP

mutual

theorem Stack.Covers.spread : ∀ {s : Stack} {w : List Token}, s.Covers w → P w s.atomics
  | ⟨[], _⟩, _, h => h.elim
  | ⟨first :: later, span⟩, w, h => by
    obtain ⟨u, v, d, rfl, hu, hv, -, -⟩ := h
    have hblocks := hP.append (Block.Covers.spread hu) (Block.Follow.spread hv)
    exact hP.mono hblocks (List.prefix_append ..).isInfix

theorem Block.Follow.spread : ∀ {bs : List Block} {w : List Token}, Block.Follow bs w →
    P w (Block.atomicsOfAll bs)
  | [], w, _ => hP.nil w
  | b :: bs, w, h => by
    obtain ⟨t, u, v, rfl, -, hu, hv⟩ := h
    have hblocks := hP.append (Block.Covers.spread hu) (Block.Follow.spread hv)
    exact hP.mono hblocks ⟨[t], [], by simp⟩

theorem Block.Covers.spread : ∀ {b : Block} {w : List Token}, b.Covers w → P w b.atomics
  | .atomic _, _, h => hP.atomic h
  | .composite _, _, h => Composite.Covers.spread h

theorem Composite.Covers.spread :
    ∀ {c : Composite} {w : List Token}, c.Covers w → P w c.atomics
  | .ifElse keyword condition thenWord annotations body none span, w, h => by
    obtain ⟨-, x, u, rfl, hx, hu⟩ := h
    rw [List.append_assoc (keyword :: x)]
    exact hP.headed (hP.condition hx) (Clause.Covers.spread hu)
  | .ifElse keyword condition thenWord annotations body (some branch) span, w, h => by
    obtain ⟨-, x, u, v, rfl, hx, hu, hv⟩ := h
    have hbody := Clause.Covers.spread hu
    rw [List.append_assoc (keyword :: x)]
    exact hP.append (hP.headed (hP.condition hx) hbody) (ElseBranch.Covers.spread hv)
  | .forever keyword annotations body span, w, h => by
    obtain ⟨-, u, rfl, hu⟩ := h
    exact hP.mono (Clause.Covers.spread hu) (List.suffix_append ..).isInfix
  | .repeatTimes keyword count annotations body span, w, h => by
    obtain ⟨-, x, u, rfl, hx, hu⟩ := h
    exact hP.headed (hP.argument hx) (Clause.Covers.spread hu)
  | .repeatUntil keyword condition annotations body span, w, h => by
    obtain ⟨-, x, u, rfl, hx, hu⟩ := h
    exact hP.headed (hP.condition hx) (Clause.Covers.spread hu)

theorem ElseBranch.Covers.spread :
    ∀ {b : ElseBranch} {w : List Token}, b.Covers w → P w b.atomics
  | ⟨keyword, clause⟩, w, h => by
    obtain ⟨u, rfl, hu⟩ := h
    exact hP.mono (Clause.Covers.spread hu) (List.suffix_cons ..).isInfix

theorem Clause.Covers.spread : ∀ {c : Clause} {w : List Token}, c.Covers w → P w c.atomics
  | ⟨delimiter, none, closing⟩, w, _ => hP.nil w
  | ⟨delimiter, some stack, closing⟩, w, h => by
    obtain ⟨u, rfl, hu⟩ := h
    exact hP.mono (Stack.Covers.spread hu) ⟨delimiter.toList, closing.toList, rfl⟩

end

theorem Stack.Strewn.spread : ∀ {ss : List Stack} {w : List Token}, Strewn ss w →
    P w (ss.flatMap Stack.atomics)
  | [], w, _ => hP.nil w
  | s :: ss, w, h => by
    obtain ⟨x, u, v, rfl, hu, hv⟩ := h
    have hstack := hP.mono (Stack.Covers.spread hP hu) (List.suffix_append x u).isInfix
    exact hP.append hstack hv.spread

end Spreads

/-! ## Where atomic blocks lie -/

/-- Each of some atomic blocks reaches over tokens that stand together in `w`. -/
def Within (w : List Token) (as : List Atomic) : Prop :=
  ∀ a ∈ as, ∃ m, m <:+: w ∧ m ≠ [] ∧ a.span = .hull m

/-- The tokens of each of some atomic blocks stand together in `w`, and the block reaches from the
first of them to the last. -/
def Seated (w : List Token) (as : List Atomic) : Prop :=
  ∀ a ∈ as, a.Spanned ∧ a.fields.map Field.token <:+: w

namespace Seated

variable {w v : List Token} {as : List Atomic}

theorem within (h : Seated w as) : Within w as := by
  intro a ha
  obtain ⟨⟨hne, hspan⟩, hw⟩ := h a ha
  exact ⟨_, hw, by simpa using hne, hspan⟩

theorem mono (h : Seated w as) (hw : w <:+: v) : Seated v as :=
  fun a ha => ⟨(h a ha).1, (h a ha).2.trans hw⟩

theorem of_laid {fs : List Field} (h : Laid w fs as) (hfs : ∀ a ∈ as, a.fields <:+: fs) :
    Seated w as :=
  fun a ha => ⟨h.spans a ha, h.tokens ▸ (hfs a ha).map Field.token⟩

theorem spreads : Spreads Seated where
  nil _ := by simp [Seated]
  append h h' := List.forall_mem_append.2
    ⟨h.mono (List.prefix_append ..).isInfix, h'.mono (List.suffix_append ..).isInfix⟩
  mono := mono
  atomic h := .of_laid h fun _ => Atomic.fields_inside
  condition h := .of_laid h fun _ => Condition.fields_inside
  argument h := .of_laid h fun _ => Argument.fields_inside

end Seated

end BlockNotation
