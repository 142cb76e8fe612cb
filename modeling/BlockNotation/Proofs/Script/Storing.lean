import BlockNotation.Proofs.Script.Fields
import BlockNotation.Proofs.Script.Following

/-!
# Parsers store the tokens they take

Whenever a parser of a script succeeds, the places for tokens in its value hold the tokens it has
taken, in order, each where a token of its kind is demanded, and only delimiters are left out
(`Stores`). Nothing in the value is empty that has to hold something. This is shown of one parser
after the other, up to the segments of a script (`stores_segments`).
-/

namespace BlockNotation

/-- The places `fs` hold the tokens `w` in order, except for some delimiters. -/
inductive Spells : List Token → List Field → Prop where
  | nil : Spells [] []
  | keep {f : Field} {w : List Token} {fs : List Field} (holds : f.Holds) (later : Spells w fs) :
      Spells (f.token :: w) (f :: fs)
  | drop {t : Token} {w : List Token} {fs : List Field} (delimiter : t.kind = .delimiter)
      (later : Spells w fs) : Spells (t :: w) fs

namespace Spells

variable {w v : List Token} {fs gs : List Field}

theorem append (h : Spells w fs) (h' : Spells v gs) : Spells (w ++ v) (fs ++ gs) := by
  induction h with
  | nil => exact h'
  | keep holds _ ih => exact .keep holds ih
  | drop delimiter _ ih => exact .drop delimiter ih

theorem holds (h : Spells w fs) : ∀ f ∈ fs, f.Holds := by
  induction h with
  | nil => simp
  | keep holds _ ih => exact List.forall_mem_cons.2 ⟨holds, ih⟩
  | drop _ _ ih => exact ih

theorem sublist (h : Spells w fs) : (fs.map Field.token).Sublist w := by
  induction h with
  | nil => exact .slnil
  | keep _ _ ih => exact ih.cons_cons _
  | drop _ _ ih => exact ih.cons _

/-- Nothing but delimiters is left out. -/
theorem filter_eq (h : Spells w fs) :
    (fs.map Field.token).filter (·.kind ≠ .delimiter) = w.filter (·.kind ≠ .delimiter) := by
  induction h with
  | nil => rfl
  | keep _ _ ih => rw [List.map_cons, List.filter_cons, List.filter_cons, ih]
  | drop delimiter _ ih => rw [ih, List.filter_cons]; simp [delimiter]

end Spells

variable {α β : Type}

/-- Whenever `p` succeeds, the places in its value are those filled `before` and those that the
tokens it took were put in, and `G` is true of the value. -/
def Stores (before : List Field) (p : Parser α) (places : α → List Field) (G : α → Prop) : Prop :=
  ∀ s a s', p s = .ok (a, s') →
    ∃ w fs, s.rest = w ++ s'.rest ∧ Spells w fs ∧ places a = before ++ fs ∧ G a

namespace Stores

variable {before : List Field} {φ : α → List Field} {ψ : β → List Field} {G : α → Prop}
  {H : β → Prop}

theorem pure {a : α} (hφ : φ a = before) (hG : G a) : Stores before (pure a) φ G := by
  intro s b s' h
  cases h
  exact ⟨[], [], rfl, .nil, by simp [hφ], hG⟩

theorem fail {cause : Cause} : Stores before (Parser.fail cause) φ G := by
  intro s a s' h
  cases h

theorem bind {p : Parser α} {g : α → Parser β} (hp : Stores [] p φ G)
    (hg : ∀ a, G a → Stores (before ++ φ a) (g a) ψ H) : Stores before (p >>= g) ψ H := by
  intro s b s'' h
  obtain ⟨a, s', hs, hs'⟩ := of_bind_run h
  obtain ⟨w, fs, hrest, hw, hφ, hG⟩ := hp s a s' hs
  obtain ⟨v, gs, hrest', hv, hψ, hH⟩ := hg a hG s' b s'' hs'
  refine ⟨w ++ v, fs ++ gs, by rw [hrest, hrest', List.append_assoc], hw.append hv, ?_, hH⟩
  rw [hψ, hφ]
  simp

theorem start {g : Nat → Parser α} (h : ∀ n, Stores before (g n) φ G) :
    Stores before (Parser.start >>= g) φ G := fun s => h s.start s

theorem lastEnd {g : Nat → Parser α} (h : ∀ n, Stores before (g n) φ G) :
    Stores before (Parser.lastEnd >>= g) φ G := fun s => h s.lastEnd s

theorem imp {p : Parser α} {φ' : α → List Field} {G' : α → Prop} (h : Stores before p φ G)
    (hφ : ∀ a, φ a = φ' a) (hG : ∀ a, G a → G' a) : Stores before p φ' G' := by
  intro s a s' hs
  obtain ⟨w, fs, hrest, hw, ha, hGa⟩ := h s a s' hs
  exact ⟨w, fs, hrest, hw, (hφ a).symm.trans ha, hG a hGa⟩

theorem and {p : Parser α} {G' : α → Prop} (h : Stores before p φ G)
    (hG : ∀ s a s', p s = .ok (a, s') → G' a) : Stores before p φ fun a => G a ∧ G' a := by
  intro s a s' hs
  obtain ⟨w, fs, hrest, hw, hφ, ha⟩ := h s a s' hs
  exact ⟨w, fs, hrest, hw, hφ, ha, hG s a s' hs⟩

/-- The values of a repetition hold what its rounds have taken, one after the other. -/
theorem many {p : Parser (Option α)} (h : Stores [] p (·.elim [] φ) (fun o => ∀ a ∈ o, G a)) :
    Stores [] (Parser.many p) (·.flatMap φ) fun as => ∀ a ∈ as, G a := by
  intro s as s'' hs
  induction hn : s.ahead using Nat.strongRecOn generalizing s as with
  | ind n ih =>
    subst hn
    rw [Parser.many, repetition] at hs
    split at hs
    · cases hs
    · rename_i s' hp
      cases hs
      obtain ⟨w, fs, hrest, hw, hφ, -⟩ := h s none _ hp
      exact ⟨w, fs, hrest, hw, hφ, by simp⟩
    · rename_i a s' hp
      obtain ⟨w, fs, hrest, hw, hφ, hG⟩ := h s (some a) s' hp
      split at hs
      · rename_i hlt
        split at hs
        · cases hs
        · rename_i later s₁ hlater
          cases hs
          obtain ⟨v, gs, hrest', hv, hφ', hG'⟩ := ih _ hlt s' later hlater rfl
          refine ⟨w ++ v, fs ++ gs, ?_, hw.append hv, ?_, List.forall_mem_cons.2 ⟨hG a rfl, hG'⟩⟩
          · rw [hrest, hrest', List.append_assoc]
          · change φ a ++ later.flatMap φ = _
            have hφ : φ a = [] ++ fs := hφ
            have hφ' : later.flatMap φ = [] ++ gs := hφ'
            rw [hφ, hφ']
            rfl
      · cases hs
        refine ⟨w, fs, hrest, hw, ?_, by simpa using hG a rfl⟩
        simpa using hφ

end Stores

namespace Parser

variable {before : List Field}

theorem stores_takeAny (τ : Terminal) :
    Stores [] (takeAny τ.kinds) (fun o => o.toList.map (⟨τ, ·⟩)) fun _ => True := by
  intro s o s' h
  rcases takeAny_cases h with ⟨rfl, hrest, -⟩ | ⟨t, rfl, ht, hrest⟩
  · exact ⟨[], [], by simp [hrest], .nil, rfl, trivial⟩
  · exact ⟨[t], [⟨τ, t⟩], by simp [hrest], .keep (f := ⟨τ, t⟩) ht .nil, rfl, trivial⟩

theorem stores_take? (k : Kind) : Stores [] (take? k) (Field.ofOption k) fun _ => True :=
  stores_takeAny (.kind k)

theorem stores_take (r : Rule) (k : Kind) :
    Stores [] (take r k) (fun t => [Field.of k t]) fun _ => True := by
  unfold take
  refine (stores_take? k).bind fun o _ => ?_
  cases o with
  | none => exact .fail
  | some t => exact .pure rfl trivial

/-- A delimiter that is left out. -/
theorem drops_delimiter : Stores [] (take? .delimiter) (fun _ => []) fun _ => True := by
  intro s o s' h
  rcases takeAny_cases h with ⟨rfl, hrest, -⟩ | ⟨t, rfl, ht, hrest⟩
  · exact ⟨[], [], by simp [hrest], .nil, rfl, trivial⟩
  · exact ⟨[t], [], by simp [hrest], .drop (List.mem_singleton.1 ht) .nil, rfl, trivial⟩

/-! ## Atomic blocks -/

theorem stores_modifier? :
    Stores [] modifier? (·.elim [] Modifier.fields) fun _ => True := by
  unfold modifier?
  refine (stores_take? .doubleColon).bind fun marker _ => ?_
  cases marker with
  | none => exact .pure rfl trivial
  | some marker =>
    refine (stores_take .modifier .label).bind fun label _ => ?_
    exact .pure rfl trivial

theorem stores_annotations? :
    Stores [] annotations? (·.elim [] Annotations.fields) fun _ => True := by
  unfold annotations?
  refine (stores_take? .remark).bind fun remark _ => ?_
  cases remark with
  | some remark =>
    refine (stores_take? .identifier).bind fun id _ => ?_
    exact .pure (by simp [Annotations.fields]) trivial
  | none =>
    refine (stores_take? .identifier).bind fun id _ => ?_
    cases id with
    | none => exact .pure rfl trivial
    | some id =>
      refine (stores_take? .remark).bind fun remark _ => ?_
      exact .pure (by simp [Annotations.fields]) trivial

section Atomic

variable {brackets : Shape → Parser Brackets}
  (hb : ∀ shape, Stores [] (brackets shape) (·.fields shape) fun b => Filled b.atomics)

include hb

theorem stores_brackets? (shape : Shape) :
    Stores [] (brackets? brackets shape) (·.elim [] (·.fields shape))
      fun o => Filled (o.elim [] Brackets.atomics) := by
  have hsees : Stores [] (sees shape.opening) (fun _ => []) fun _ => True := by
    intro s b s' h
    cases h
    exact ⟨[], [], rfl, .nil, rfl, trivial⟩
  unfold brackets?
  refine hsees.bind fun b _ => ?_
  cases b with
  | false => exact .pure rfl filled_nil
  | true =>
    refine (hb shape).bind fun b hb => ?_
    exact .pure rfl hb

theorem stores_value? : Stores [] (value? brackets) (·.elim [] Value.fields)
    fun o => Filled (o.elim [] Value.atomics) := by
  unfold value?
  refine (stores_takeAny (.family .literal)).bind fun token _ => ?_
  cases token with
  | some token => exact .pure (by simp [Value.fields]) (by simp [Value.atomics])
  | none =>
    refine (stores_brackets? hb .round).bind fun expression he => ?_
    cases expression with
    | some expression => exact .pure (by simp [Value.fields]) (by simpa [Value.atomics] using he)
    | none =>
      refine (stores_brackets? hb .angle).bind fun predicate hp => ?_
      cases predicate with
      | some predicate => exact .pure (by simp [Value.fields]) (by simpa [Value.atomics] using hp)
      | none => exact .pure rfl filled_nil

theorem stores_argument? : Stores [] (argument? brackets) (·.elim [] Argument.fields)
    fun o => Filled (o.elim [] Argument.atomics) := by
  unfold argument?
  refine (stores_take? .openCurly).bind fun opening _ => ?_
  cases opening with
  | some opening =>
    refine (stores_value? hb).bind fun value hv => ?_
    refine (stores_take? .identifier).bind fun id _ => ?_
    refine (stores_take .argument .closeCurly).bind fun closing _ => ?_
    cases value with
    | none => exact .pure (by simp [Argument.fields]) (by simp [Argument.atomics])
    | some value =>
      exact .pure (by simp [Argument.fields]) (by simpa [Argument.atomics] using hv)
  | none =>
    refine (stores_value? hb).bind fun value hv => ?_
    cases value with
    | none => exact .pure rfl filled_nil
    | some value => exact .pure (by simp [Argument.fields]) (by simpa [Argument.atomics] using hv)

theorem stores_argument :
    Stores [] (argument brackets) Argument.fields fun a => Filled a.atomics := by
  unfold argument
  refine (stores_argument? hb).bind fun argument ha => ?_
  cases argument with
  | none => exact .fail
  | some argument => exact .pure rfl ha

theorem stores_condition :
    Stores [] (condition brackets) Condition.fields fun c => Filled c.atomics := by
  have hcondition : Stores [] (condition? brackets) (·.elim [] Condition.fields)
      fun o => Filled (o.elim [] Condition.atomics) := by
    unfold condition?
    refine (stores_take? .openCurly).bind fun opening _ => ?_
    cases opening with
    | some opening =>
      refine (stores_brackets? hb .angle).bind fun predicate hp => ?_
      refine (stores_take? .identifier).bind fun id _ => ?_
      refine (stores_take .condition .closeCurly).bind fun closing _ => ?_
      refine .pure (by simp [Condition.fields]) ?_
      cases predicate <;> exact hp
    | none =>
      refine (stores_brackets? hb .angle).bind fun predicate hp => ?_
      cases predicate with
      | none => exact .pure rfl filled_nil
      | some predicate => exact .pure (by simp [Condition.fields]) hp
  unfold condition
  refine hcondition.bind fun condition hc => ?_
  cases condition with
  | none => exact .fail
  | some condition => exact .pure rfl hc

theorem stores_element? :
    Stores [] (element? brackets) (·.elim [] fun e => Element.fieldsOfAll [e])
      fun o => ∀ e ∈ o, Filled (Element.atomicsOfAll [e]) := by
  unfold element?
  refine (stores_take? .label).bind fun token _ => ?_
  cases token with
  | some token =>
    exact .pure (by simp [Element.fieldsOfAll]) (by simp [Element.atomicsOfAll])
  | none =>
    refine (stores_argument? hb).bind fun argument ha => ?_
    cases argument with
    | none => exact .pure rfl (by simp)
    | some argument =>
      refine .pure (by simp [Element.fieldsOfAll]) ?_
      simpa [Element.atomicsOfAll] using ha

theorem stores_atomic? : Stores [] (atomic? brackets) (·.elim [] Atomic.fields)
    fun o => Filled (o.elim [] Atomic.atomics) := by
  unfold atomic?
  refine .start fun start => ?_
  refine (stores_element? hb).many.bind fun elements he => ?_
  cases elements with
  | nil => exact .pure rfl filled_nil
  | cons element elements =>
    refine stores_modifier?.bind fun modifier _ => ?_
    refine stores_annotations?.bind fun annotations _ => ?_
    refine .lastEnd fun stop => ?_
    refine .pure ?_ ?_
    · simp only [Option.elim_some, Atomic.fields, List.nil_append]
      rw [Element.fieldsOfAll_eq]
    · have hfilled := Element.filled _ he
      intro a ha
      rcases List.mem_cons.1 ha with rfl | ha
      · simp
      · exact hfilled a ha

end Atomic

theorem stores_brackets : ∀ levels shape,
    Stores [] (brackets levels shape) (·.fields shape) fun b => Filled b.atomics
  | 0, _ => .fail
  | levels + 1, shape => by
    unfold brackets
    refine (stores_take shape.rule shape.opening).bind fun opening _ => ?_
    refine (stores_atomic? (stores_brackets levels)).bind fun atomic ha => ?_
    refine (stores_take shape.rule shape.closing).bind fun closing _ => ?_
    cases atomic with
    | none => exact .pure (by simp [Brackets.fields]) (by simp [Brackets.atomics])
    | some atomic => exact .pure (by simp [Brackets.fields]) (by simpa [Brackets.atomics] using ha)

/-! ## Stacks -/

section Stack

variable {levels : Nat} {clause : Parser Clause}
  (hc : Stores [] clause Clause.fields Clause.Whole)

include hc

theorem stores_elseBranch? : Stores [] (elseBranch? clause) (·.elim [] ElseBranch.fields)
    fun o => ∀ b ∈ o, b.clause.Whole := by
  unfold elseBranch?
  refine (stores_take? .elseWord).bind fun keyword _ => ?_
  cases keyword with
  | none => exact .pure rfl (by simp)
  | some keyword =>
    refine hc.bind fun body hbody => ?_
    exact .pure (by simp [ElseBranch.fields]) (by simpa using hbody)

theorem stores_ifElse? : Stores [] (ifElse? (brackets levels) clause) (·.elim [] Composite.fields)
    fun o => ∀ c ∈ o, c.Whole := by
  unfold ifElse?
  refine .start fun start => ?_
  refine (stores_take? .ifWord).bind fun keyword _ => ?_
  cases keyword with
  | none => exact .pure rfl (by simp)
  | some keyword =>
    refine (stores_condition (stores_brackets levels)).bind fun condition hcond => ?_
    refine (stores_take? .thenWord).bind fun thenWord _ => ?_
    refine stores_annotations?.bind fun annotations _ => ?_
    refine hc.bind fun body hbody => ?_
    refine (stores_elseBranch? hc).bind fun otherwise helse => ?_
    refine .lastEnd fun stop => ?_
    cases otherwise with
    | none => exact .pure (by simp [Composite.fields]) (by simp [hcond, hbody])
    | some branch =>
      exact .pure (by simp [Composite.fields]) (by simpa [hcond, hbody] using helse)

theorem stores_loop? {α : Type} {word : Kind} {head : Parser α}
    {make : Token → α → Option Annotations → Clause → Span → Composite} {φ : α → List Field}
    {G : α → Prop} (hhead : Stores [] head φ G)
    (hfields : ∀ keyword a annotations body span, (make keyword a annotations body span).fields =
      .of word keyword :: φ a ++ annotations.elim [] Annotations.fields ++ body.fields)
    (hwhole : ∀ keyword a annotations body span, G a → body.Whole →
      (make keyword a annotations body span).Whole) :
    Stores [] (loop? clause word head make) (·.elim [] Composite.fields)
      fun o => ∀ c ∈ o, c.Whole := by
  unfold loop?
  refine .start fun start => ?_
  refine (stores_take? word).bind fun keyword _ => ?_
  cases keyword with
  | none => exact .pure rfl (by simp)
  | some keyword =>
    refine hhead.bind fun a ha => ?_
    refine stores_annotations?.bind fun annotations _ => ?_
    refine hc.bind fun body hbody => ?_
    refine .lastEnd fun stop => ?_
    refine .pure (by simp [hfields]) ?_
    simpa using hwhole keyword a annotations body ⟨start, stop⟩ ha hbody

theorem stores_forever? : Stores [] (forever? clause) (·.elim [] Composite.fields)
    fun o => ∀ c ∈ o, c.Whole := by
  have hhead : Stores [] (pure () : Parser Unit) (fun _ => []) fun _ => True := .pure rfl trivial
  exact stores_loop? hc hhead (by simp [Composite.fields]) (by simp)

theorem stores_repeatTimes? : Stores [] (repeatTimes? (brackets levels) clause)
    (·.elim [] Composite.fields) fun o => ∀ c ∈ o, c.Whole :=
  stores_loop? hc (stores_argument (stores_brackets levels)) (by simp [Composite.fields])
    fun _ _ _ _ _ hcount hbody => Composite.whole_repeatTimes.2 ⟨hcount, hbody⟩

theorem stores_repeatUntil? : Stores [] (repeatUntil? (brackets levels) clause)
    (·.elim [] Composite.fields) fun o => ∀ c ∈ o, c.Whole :=
  stores_loop? hc (stores_condition (stores_brackets levels)) (by simp [Composite.fields])
    fun _ _ _ _ _ hcond hbody => Composite.whole_repeatUntil.2 ⟨hcond, hbody⟩

theorem stores_composite? :
    Stores [] (composite? (brackets levels) clause) (·.elim [] Composite.fields)
      fun o => ∀ c ∈ o, c.Whole := by
  unfold composite?
  refine (stores_ifElse? hc).bind fun composite h => ?_
  cases composite with
  | some composite => exact .pure rfl h
  | none =>
    refine (stores_forever? hc).bind fun composite h => ?_
    cases composite with
    | some composite => exact .pure rfl h
    | none =>
      refine (stores_repeatTimes? hc).bind fun composite h => ?_
      cases composite with
      | some composite => exact .pure rfl h
      | none => exact stores_repeatUntil? hc

theorem stores_block? : Stores [] (block? (brackets levels) clause) (·.elim [] Block.fields)
    fun o => ∀ b ∈ o, b.Whole := by
  unfold block?
  refine (stores_atomic? (stores_brackets levels)).bind fun atomic ha => ?_
  cases atomic with
  | some atomic =>
    exact .pure (by simp [Block.fields]) (by simpa using ha)
  | none =>
    refine (stores_composite? hc).bind fun composite h => ?_
    cases composite with
    | none => exact .pure rfl (by simp)
    | some composite =>
      exact .pure (by simp [Block.fields]) (by simpa using h)

theorem stores_nextBlock? : Stores [] (nextBlock? (brackets levels) clause) (·.elim [] Block.fields)
    fun o => ∀ b ∈ o, b.Whole := by
  have hsees : Stores [] seesNextBlock (fun _ => []) fun _ => True := by
    intro s b s' h
    cases h
    exact ⟨[], [], rfl, .nil, rfl, trivial⟩
  unfold nextBlock?
  refine hsees.bind fun b _ => ?_
  cases b with
  | false => exact .pure rfl (by simp)
  | true =>
    refine drops_delimiter.bind fun _ _ => ?_
    exact stores_block? hc

omit hc in
theorem drops_trailingDelimiter : Stores [] trailingDelimiter (fun _ => []) fun _ => True := by
  have hnote : Stores [] (note Rule.block.lead) (fun _ => []) fun _ => True := by
    intro s b s' h
    cases h
    exact ⟨[], [], rfl, .nil, rfl, trivial⟩
  unfold trailingDelimiter
  refine drops_delimiter.bind fun delimiter _ => ?_
  cases delimiter with
  | none => exact .pure rfl trivial
  | some _ => exact hnote

theorem stores_stack? : Stores [] (stack? (brackets levels) clause) (·.elim [] Stack.fields)
    fun o => ∀ s ∈ o, s.Whole := by
  unfold stack?
  refine .start fun start => ?_
  refine (stores_block? hc).bind fun first hfirst => ?_
  cases first with
  | none => exact .pure rfl (by simp)
  | some first =>
    refine (stores_nextBlock? hc).many.bind fun later hlater => ?_
    refine .lastEnd fun stop => ?_
    refine drops_trailingDelimiter.bind fun _ _ => ?_
    refine .pure ?_ ?_
    · simp [Stack.fields, Block.fieldsOfAll_eq]
    · have hblocks := Block.whole (first :: later)
        (List.forall_mem_cons.2 ⟨hfirst first rfl, hlater⟩)
      simpa [Stack.Whole, Stack.atomics, Stack.allClauses] using hblocks

end Stack

theorem stores_clause : ∀ levels,
    Stores [] (clause levels) Clause.fields Clause.Whole
  | 0 => .fail
  | levels + 1 => by
    unfold clause
    refine (stores_take? .delimiter).bind fun delimiter _ => ?_
    refine (stores_stack? (stores_clause levels)).bind fun body hbody => ?_
    refine (stores_take? .endWord).bind fun closing _ => ?_
    cases body with
    | none => exact .pure (by simp [Clause.fields]) (by simp)
    | some body => exact .pure (by simp [Clause.fields]) (by simpa using hbody)

theorem stores_stackWithin? (levels : Nat) :
    Stores [] (stackWithin? levels) (·.elim [] Stack.fields) fun o => ∀ s ∈ o, s.Whole :=
  stores_stack? (stores_clause levels)

/-! ## Scripts -/

theorem drops_delimiters :
    Stores [] (many (take? .delimiter)) (fun _ => []) fun _ => True := by
  have h : Stores [] (take? .delimiter) (·.elim [] fun _ => []) fun o => ∀ t ∈ o, t = t :=
    drops_delimiter.imp (fun o => by cases o <;> rfl) (by simp)
  exact h.many.imp (by simp) (by simp)

theorem stores_comments? : Stores [] comments? (·.elim [] Comments.fields)
    fun o => ∀ c ∈ o, c.remarks ≠ [] := by
  have hnext : Stores [] nextRemark? (·.elim [] fun t => [Field.of .remark t])
      fun o => ∀ t ∈ o, t = t := by
    unfold nextRemark?
    refine drops_delimiters.bind fun _ _ => ?_
    exact (stores_take? .remark).imp (fun o => by cases o <;> rfl) (by simp)
  unfold comments?
  refine (stores_take? .remark).bind fun first _ => ?_
  cases first with
  | none => exact .pure rfl (by simp)
  | some first =>
    refine hnext.many.bind fun later _ => ?_
    refine .pure ?_ (by simp)
    simp [Comments.fields, List.map_eq_flatMap]

theorem stores_separator? : Stores [] separator? (·.elim [] (·.flatMap Segment.fields))
    fun o => ∀ ss ∈ o, ∀ s ∈ ss, s.Whole := by
  unfold separator?
  refine drops_delimiter.bind fun delimiter _ => ?_
  cases delimiter with
  | some _ => exact .pure rfl (by simp)
  | none =>
    refine stores_comments?.bind fun comments hcomments => ?_
    cases comments with
    | none => exact .pure rfl (by simp)
    | some comments =>
      exact .pure (by simp [Segment.fields]) (by simpa [Segment.Whole] using hcomments)

theorem fields_flatten (sss : List (List Segment)) :
    sss.flatten.flatMap Segment.fields = sss.flatMap (·.flatMap Segment.fields) := by
  rw [← List.flatMap_id, List.flatMap_assoc]
  rfl

theorem stores_nextSegments? (levels : Nat) :
    Stores [] (nextSegments? (stackWithin? levels)) (·.elim [] (·.flatMap Segment.fields))
      fun o => ∀ ss ∈ o, ∀ s ∈ ss, s.Whole := by
  unfold nextSegments?
  refine stores_separator?.many.bind fun separators hsep => ?_
  cases separators with
  | nil => exact .pure rfl (by simp)
  | cons first later =>
    refine (stores_stackWithin? levels).bind fun stack hstack => ?_
    have hlater : ∀ s ∈ (first :: later).flatten, s.Whole := by
      intro s hs
      obtain ⟨ss, hss, hs⟩ := List.mem_flatten.1 hs
      exact hsep ss hss s hs
    refine .pure ?_ ?_
    · cases stack <;> simp [Segment.fields, fields_flatten]
    · rintro ss ⟨⟩
      refine List.forall_mem_append.2 ⟨hlater, ?_⟩
      cases stack with
      | none => simp
      | some stack => simpa [Segment.Whole] using hstack

theorem stores_segments (levels : Nat) : Stores [] (segments (stackWithin? levels))
    (·.flatMap Segment.fields) fun ss => ∀ s ∈ ss, s.Whole := by
  unfold segments
  refine (stores_stackWithin? levels).bind fun first hfirst => ?_
  cases first with
  | none => exact .pure rfl (by simp)
  | some first =>
    refine (stores_nextSegments? levels).many.bind fun later hlater => ?_
    refine .pure ?_ ?_
    · simp [Segment.fields, fields_flatten]
    · refine List.forall_mem_cons.2 ⟨hfirst first rfl, fun s hs => ?_⟩
      obtain ⟨ss, hss, hs⟩ := List.mem_flatten.1 hs
      exact hlater ss hss s hs

end Parser

end BlockNotation
