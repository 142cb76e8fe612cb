import BlockNotation.Proofs.Script.Tracking

/-!
# Atomic blocks of other tokens

`Atomic.recast f` puts the token `f t` in place of each token `t` of an atomic block, but lets the
labels keep their texts. It measures the block anew, from its first token to its last. Two blocks
with the same image were read alike up to what `f` forgets.

The blocks inside a block are recast with it (`Atomic.atomics_recast`), and its label text stays
(`Atomic.labelText_recast`). If `f` forgets nothing, no block of a script that was read changes
(`parseTokensWithin_recast_id`), since each one reaches over its tokens.
-/

namespace BlockNotation

/-- The token that `f` gives, with the text of `t`. -/
def Token.recast (f : Token → Token) (t : Token) : Token := { f t with text := t.text }

def Modifier.recast (f : Token → Token) (m : Modifier) : Modifier := ⟨f m.marker, f m.label⟩

def Annotations.recast (f : Token → Token) : Annotations → Annotations
  | .remark token id => .remark (f token) (id.map f)
  | .identified id token => .identified (f id) (token.map f)

/-- The atomic block of some parts, which reaches over their tokens. -/
def Atomic.ofParts (elements : List Element) (modifier : Option Modifier)
    (annotations : Option Annotations) : Atomic where
  elements := elements
  modifier := modifier
  annotations := annotations
  span := .hull ((Element.fieldsOfAll elements ++ modifier.elim [] Modifier.fields
    ++ annotations.elim [] Annotations.fields).map Field.token)

mutual

def Atomic.recast (f : Token → Token) : Atomic → Atomic
  | ⟨elements, modifier, annotations, _⟩ =>
    .ofParts (Element.recastAll f elements) (modifier.map (·.recast f))
      (annotations.map (·.recast f))

def Element.recastAll (f : Token → Token) : List Element → List Element
  | [] => []
  | e :: es => e.recast f :: Element.recastAll f es

def Element.recast (f : Token → Token) : Element → Element
  | .label token => .label (token.recast f)
  | .argument a => .argument (a.recast f)

def Argument.recast (f : Token → Token) : Argument → Argument
  | .curly opening none id closing => .curly (f opening) none (id.map f) (f closing)
  | .curly opening (some value) id closing =>
    .curly (f opening) (some (value.recast f)) (id.map f) (f closing)
  | .bare value => .bare (value.recast f)

def Value.recast (f : Token → Token) : Value → Value
  | .literal token => .literal (f token)
  | .bracketed shape brackets => .bracketed shape (brackets.recast f)

def Brackets.recast (f : Token → Token) : Brackets → Brackets
  | ⟨opening, none, closing⟩ => ⟨f opening, none, f closing⟩
  | ⟨opening, some atomic, closing⟩ => ⟨f opening, some (atomic.recast f), f closing⟩

end

variable {f : Token → Token}

theorem Element.recastAll_eq_map (es : List Element) :
    Element.recastAll f es = es.map (·.recast f) := by
  induction es with
  | nil => rfl
  | cons e es ih => rw [Element.recastAll, ih, List.map_cons]

/-! ## What is inside -/

mutual

theorem Atomic.atomics_recast : ∀ a : Atomic,
    (a.recast f).atomics = a.atomics.map (·.recast f)
  | ⟨elements, modifier, annotations, span⟩ => by
    have h := Element.atomics_recastAll elements
    rw [Atomic.recast, Atomic.ofParts, Atomic.atomics, Atomic.atomics, List.map_cons, h,
      Atomic.recast, Atomic.ofParts]

theorem Element.atomics_recastAll : ∀ es : List Element,
    Element.atomicsOfAll (Element.recastAll f es) = (Element.atomicsOfAll es).map (·.recast f)
  | [] => rfl
  | .label token :: es => Element.atomics_recastAll es
  | .argument a :: es => by
    rw [Element.recastAll, Element.recast, Element.atomicsOfAll, Element.atomicsOfAll,
      List.map_append, Argument.atomics_recast a, Element.atomics_recastAll es]

theorem Argument.atomics_recast : ∀ a : Argument,
    (a.recast f).atomics = a.atomics.map (·.recast f)
  | .curly _ none _ _ => rfl
  | .curly _ (some value) _ _ => Value.atomics_recast value
  | .bare value => Value.atomics_recast value

theorem Value.atomics_recast : ∀ v : Value, (v.recast f).atomics = v.atomics.map (·.recast f)
  | .literal _ => rfl
  | .bracketed _ brackets => Brackets.atomics_recast brackets

theorem Brackets.atomics_recast : ∀ b : Brackets,
    (b.recast f).atomics = b.atomics.map (·.recast f)
  | ⟨_, none, _⟩ => rfl
  | ⟨_, some atomic, _⟩ => Atomic.atomics_recast atomic

end

theorem Atomic.labelText_recast (a : Atomic) : (a.recast f).labelText = a.labelText := by
  obtain ⟨elements, modifier, annotations, span⟩ := a
  rw [Atomic.recast, Atomic.ofParts, Atomic.labelText, Atomic.labelText,
    Element.recastAll_eq_map, List.map_map]
  congr 2
  funext e
  cases e <;> rfl

/-! ## Nothing forgotten -/

theorem Modifier.recast_id (m : Modifier) : m.recast id = m := rfl

theorem Annotations.recast_id (a : Annotations) : a.recast id = a := by
  cases a <;> simp [Annotations.recast]

mutual

theorem Atomic.recast_id : ∀ {a : Atomic}, (∀ b ∈ a.atomics, b.Spanned) → a.recast id = a
  | ⟨elements, modifier, annotations, span⟩, h => by
    rw [Atomic.atomics, List.forall_mem_cons] at h
    have helements := Element.recastAll_id h.2
    have hspan : span = .hull ((Atomic.fields _).map Field.token) := h.1.2
    rw [Atomic.fields] at hspan
    rw [Atomic.recast, helements, funext Modifier.recast_id, funext Annotations.recast_id,
      Option.map_id', Option.map_id', Atomic.ofParts, ← hspan]

theorem Element.recastAll_id : ∀ {es : List Element},
    (∀ b ∈ Element.atomicsOfAll es, b.Spanned) → Element.recastAll id es = es
  | [], _ => rfl
  | .label token :: es, h => by
    have hes : Element.recastAll id es = es := Element.recastAll_id h
    rw [Element.recastAll, hes]
    rfl
  | .argument a :: es, h => by
    rw [Element.atomicsOfAll, List.forall_mem_append] at h
    rw [Element.recastAll, Element.recast, Argument.recast_id h.1, Element.recastAll_id h.2]

theorem Argument.recast_id : ∀ {a : Argument}, (∀ b ∈ a.atomics, b.Spanned) → a.recast id = a
  | .curly opening none identifier closing, _ => by simp [Argument.recast]
  | .curly opening (some value) identifier closing, h => by
    rw [Argument.recast, Value.recast_id (v := value) h, Option.map_id]
    rfl
  | .bare value, h => by rw [Argument.recast, Value.recast_id (v := value) h]

theorem Value.recast_id : ∀ {v : Value}, (∀ b ∈ v.atomics, b.Spanned) → v.recast id = v
  | .literal token, _ => rfl
  | .bracketed shape brackets, h => by rw [Value.recast, Brackets.recast_id (b := brackets) h]

theorem Brackets.recast_id : ∀ {b : Brackets}, (∀ c ∈ b.atomics, c.Spanned) → b.recast id = b
  | ⟨opening, none, closing⟩, _ => rfl
  | ⟨opening, some atomic, closing⟩, h => by
    rw [Brackets.recast, Atomic.recast_id (a := atomic) h]
    rfl

end

/-- The blocks of a list are as they were measured. -/
def Exact (as : List Atomic) : Prop := as.map (·.recast id) = as

theorem Exact.append {as bs : List Atomic} (h : Exact as) (h' : Exact bs) : Exact (as ++ bs) := by
  rw [Exact, List.map_append, h, h']

theorem exact_of_brackets {b : Brackets} (h : ∀ c ∈ b.atomics, c.Spanned) : Exact b.atomics := by
  rw [Exact, ← Brackets.atomics_recast, Brackets.recast_id h]

theorem Exact.spreads : Spreads fun _ => Exact where
  nil _ := rfl
  append := Exact.append
  mono h _ := h
  atomic {_ a} h := by rw [Exact, ← Atomic.atomics_recast, Atomic.recast_id h.spans]
  condition {_ c} h := by
    rcases c with ⟨opening, _ | predicate, identifier, closing⟩ | predicate
    · rfl
    · exact exact_of_brackets (b := predicate) h.spans
    · exact exact_of_brackets (b := predicate) h.spans
  argument {_ a} h := by rw [Exact, ← Argument.atomics_recast, Argument.recast_id h.spans]

/-- Each block of a script that was read reaches over its tokens. -/
theorem parseTokensWithin_recast_id {limit n : Nat} {ts : List Token} {code : Code}
    (h : parseTokensWithin limit ts n = .ok code) :
    code.atomicBlocks.map (·.recast id) = code.atomicBlocks :=
  parseTokensWithin_spread Exact.spreads h

end BlockNotation
