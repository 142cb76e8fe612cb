import BlockNotation.Proofs.Script.Faithful
import BlockNotation.Proofs.Script.Ranges
import BlockNotation.Proofs.Token.Operators

/-!
# Open angle brackets are open predicates

While a source is cut into tokens, nothing but the number of open angle brackets is known of the
script to come. If the script can be read, this number is that of the predicates of its tree that
are open at each point (`angleDepth_counts_predicates`).

`Marks` ties the places for angle brackets in a part of a tree to the predicates in it. The angle
brackets among the tokens are those in the tree, so the brackets among the first tokens are those
of the predicates that begin, and end, with one of these.
-/

namespace BlockNotation

/-- Brackets as a predicate, if they are one. -/
def Shape.predicates (b : Brackets) : Shape → List Brackets
  | .round => []
  | .angle => [b]

mutual

/-- The predicates in an atomic block, those inside others included. -/
def Atomic.predicates : Atomic → List Brackets
  | ⟨elements, _, _, _⟩ => Element.predicatesOfAll elements

def Element.predicatesOfAll : List Element → List Brackets
  | [] => []
  | .label _ :: elements => Element.predicatesOfAll elements
  | .argument a :: elements => a.predicates ++ Element.predicatesOfAll elements

def Argument.predicates : Argument → List Brackets
  | .curly _ none _ _ => []
  | .curly _ (some value) _ _ => value.predicates
  | .bare value => value.predicates

def Value.predicates : Value → List Brackets
  | .literal _ => []
  | .bracketed shape brackets => brackets.predicates shape

def Brackets.predicates : Brackets → Shape → List Brackets
  | b@⟨_, none, _⟩, shape => shape.predicates b
  | b@⟨_, some atomic, _⟩, shape => shape.predicates b ++ atomic.predicates

end

def Condition.predicates : Condition → List Brackets
  | .curly _ predicate _ _ => predicate.elim [] (·.predicates .angle)
  | .bare predicate => predicate.predicates .angle

mutual

/-- The predicates in a stack, those inside others included. -/
def Stack.predicates : Stack → List Brackets
  | ⟨blocks, _⟩ => Block.predicatesOfAll blocks

def Block.predicatesOfAll : List Block → List Brackets
  | [] => []
  | .atomic a :: blocks => a.predicates ++ Block.predicatesOfAll blocks
  | .composite c :: blocks => c.predicates ++ Block.predicatesOfAll blocks

def Composite.predicates : Composite → List Brackets
  | .ifElse _ condition _ _ body none _ => condition.predicates ++ body.predicates
  | .ifElse _ condition _ _ body (some branch) _ =>
    condition.predicates ++ body.predicates ++ branch.predicates
  | .forever _ _ body _ => body.predicates
  | .repeatTimes _ count _ body _ => count.predicates ++ body.predicates
  | .repeatUntil _ condition _ body _ => condition.predicates ++ body.predicates

def ElseBranch.predicates : ElseBranch → List Brackets
  | ⟨_, clause⟩ => clause.predicates

def Clause.predicates : Clause → List Brackets
  | ⟨_, none, _⟩ => []
  | ⟨_, some stack, _⟩ => stack.predicates

end

/-- Every predicate of a script, each with its angle brackets. -/
def Code.predicates (c : Code) : List Brackets := c.stackList.flatMap Stack.predicates

/-- Those of some brackets that open but do not close among the tokens `before`. -/
def stillOpen (before : List Token) (ps : List Brackets) : List Brackets :=
  ps.filter fun b => b.opening ∈ before ∧ b.closing ∉ before

/-! ## Places for angle brackets -/

/-- The token in a place for tokens of a kind. -/
def Field.ofKind? (k : Kind) (f : Field) : Option Token :=
  if f.demand = .kind k then some f.token else none

@[simp] theorem Field.ofKind?_of (k k' : Kind) (t : Token) :
    (of k' t).ofKind? k = if k' = k then some t else none := by
  simp [of, ofKind?]

@[simp] theorem Field.ofKind?_family (k : Kind) (f : Family) (t : Token) :
    Field.ofKind? k ⟨.family f, t⟩ = none := by
  simp [ofKind?]

@[simp] theorem Field.filterMap_ofKind? {k k' : Kind} (h : k' ≠ k) (t : Option Token) :
    (ofOption k' t).filterMap (ofKind? k) = [] := by
  cases t <;> simp [h]

theorem Field.Holds.ofKind?_eq {f : Field} {k : Kind} (h : f.Holds) (hk : k.families = []) :
    f.ofKind? k = if f.token.kind = k then some f.token else none := by
  obtain ⟨_ | fam, t⟩ := f
  · obtain rfl : t.kind = _ := List.mem_singleton.1 h
    exact Field.ofKind?_of _ _ _
  · have hne : t.kind ≠ k := by
      rintro rfl
      have hfam : t.kind.belongsTo fam := Family.mem_kinds.1 h
      simp [Kind.belongsTo, hk] at hfam
    rw [if_neg hne, Field.ofKind?_family]

/-- The tokens of a kind are those in the places for tokens of this kind. -/
theorem Spells.filter_kind {ts : List Token} {fs : List Field} {k : Kind} (h : Spells ts fs)
    (hk : k.families = []) (hd : k ≠ .delimiter) :
    ts.filter (·.kind = k) = fs.filterMap (Field.ofKind? k) := by
  induction h with
  | nil => rfl
  | @keep f w fs holds _ ih =>
    rw [List.filter_cons, List.filterMap_cons, holds.ofKind?_eq hk, ih]
    by_cases hf : f.token.kind = k <;> simp [hf]
  | @drop t w fs delimiter _ ih =>
    have ht : t.kind ≠ k := fun he => hd (he.symm.trans delimiter)
    rw [List.filter_cons, ih]
    simp [ht]

/-- The angle brackets in the places `fs` are those of the predicates `ps`, and each predicate
opens before it closes. -/
structure Marks (fs : List Field) (ps : List Brackets) : Prop where
  openings : (fs.filterMap (Field.ofKind? .openAngle)).Perm (ps.map Brackets.opening)
  closings : (fs.filterMap (Field.ofKind? .closeAngle)).Perm (ps.map Brackets.closing)
  ordered : ∀ b ∈ ps, [b.opening, b.closing].Sublist (fs.map Field.token)

namespace Marks

variable {fs gs : List Field} {ps qs : List Brackets}

theorem plain (hopen : fs.filterMap (Field.ofKind? .openAngle) = [])
    (hclose : fs.filterMap (Field.ofKind? .closeAngle) = []) : Marks fs [] :=
  ⟨hopen ▸ .refl _, hclose ▸ .refl _, by simp⟩

theorem append (h : Marks fs ps) (h' : Marks gs qs) : Marks (fs ++ gs) (ps ++ qs) where
  openings := by simpa using h.openings.append h'.openings
  closings := by simpa using h.closings.append h'.closings
  ordered b hb := by
    rw [List.map_append]
    rcases List.mem_append.1 hb with hb | hb
    · exact (h.ordered b hb).trans (List.sublist_append_left _ _)
    · exact (h'.ordered b hb).trans (List.sublist_append_right _ _)

/-- What holds no angle bracket may stand behind. -/
theorem append_plain (h : Marks fs ps) (h' : Marks gs []) : Marks (fs ++ gs) ps := by
  simpa using h.append h'

/-- A place for anything but an angle bracket may stand in front. -/
theorem cons {k : Kind} {t : Token} (h : Marks fs ps)
    (hk : k ∉ [.openAngle, .closeAngle] := by decide) : Marks (.of k t :: fs) ps := by
  simp only [List.mem_cons, List.not_mem_nil, or_false, not_or] at hk
  have hplain : Marks [.of k t] [] := plain (by simp [hk]) (by simp [hk])
  exact hplain.append h

theorem ofOption {k : Kind} (t : Option Token)
    (hk : k ∉ [.openAngle, .closeAngle] := by decide) : Marks (Field.ofOption k t) [] := by
  simp only [List.mem_cons, List.not_mem_nil, or_false, not_or] at hk
  exact plain (Field.filterMap_ofKind? hk.1 t) (Field.filterMap_ofKind? hk.2 t)

theorem elim {α : Type} {fields : α → List Field} (h : ∀ a, Marks (fields a) [])
    (o : Option α) : Marks (o.elim [] fields) [] := by
  cases o with
  | none => exact .plain rfl rfl
  | some a => exact h a

/-- Brackets are a predicate if they are angle brackets, and add nothing otherwise. -/
theorem enclose (h : Marks fs ps) (shape : Shape) (b : Brackets) :
    Marks (.of shape.opening b.opening :: fs ++ [.of shape.closing b.closing])
      (shape.predicates b ++ ps) := by
  cases shape with
  | round => exact h.cons.append_plain (.ofOption (k := .closeRound) (some b.closing))
  | angle =>
    refine ⟨?_, ?_, fun x hx => ?_⟩
    · simpa [Shape.opening, Shape.closing, Shape.predicates] using h.openings
    · have hperm := (List.perm_append_singleton b.closing _).trans (h.closings.cons b.closing)
      simpa [Shape.opening, Shape.closing, Shape.predicates] using hperm
    · rcases List.mem_cons.1 hx with rfl | hx
      · simp
      · refine (h.ordered x hx).trans ?_
        simp only [List.map_append, List.map_cons, List.cons_append]
        exact (List.sublist_append_left _ _).cons _

end Marks

theorem Modifier.marks (m : Modifier) : Marks m.fields [] :=
  .plain (by simp [fields]) (by simp [fields])

theorem Annotations.marks (a : Annotations) : Marks a.fields [] := by
  cases a <;> exact (Marks.ofOption _).cons

mutual

theorem Atomic.marks : ∀ a : Atomic, Marks a.fields a.predicates
  | ⟨elements, modifier, annotations, _⟩ =>
    ((Element.marks elements).append_plain (.elim Modifier.marks modifier)).append_plain
      (.elim Annotations.marks annotations)

theorem Element.marks : ∀ es : List Element,
    Marks (Element.fieldsOfAll es) (Element.predicatesOfAll es)
  | [] => .plain rfl rfl
  | .label _ :: es => (Element.marks es).cons
  | .argument a :: es => a.marks.append (Element.marks es)

theorem Argument.marks : ∀ a : Argument, Marks a.fields a.predicates
  | .curly _ none id closing =>
    (Marks.ofOption id).cons.append_plain (.ofOption (k := .closeCurly) (some closing))
  | .curly _ (some v) id closing =>
    (v.marks.cons.append_plain (.ofOption id)).append_plain
      (.ofOption (k := .closeCurly) (some closing))
  | .bare v => v.marks

theorem Value.marks : ∀ v : Value, Marks v.fields v.predicates
  | .literal _ => .plain (by simp [Value.fields]) (by simp [Value.fields])
  | .bracketed shape b => b.marks shape

theorem Brackets.marks :
    ∀ (b : Brackets) (shape : Shape), Marks (b.fields shape) (b.predicates shape)
  | ⟨opening, none, closing⟩, shape => by
    have hnil : Marks [] [] := .plain rfl rfl
    simpa [Brackets.fields, Brackets.predicates] using
      hnil.enclose shape ⟨opening, none, closing⟩
  | ⟨opening, some atomic, closing⟩, shape =>
    atomic.marks.enclose shape ⟨opening, some atomic, closing⟩

end

theorem Condition.marks (c : Condition) : Marks c.fields c.predicates := by
  rcases c with ⟨_, _ | b, id, closing⟩ | b
  · exact (Marks.ofOption id).cons.append_plain (.ofOption (k := .closeCurly) (some closing))
  · exact ((b.marks .angle).cons.append_plain (.ofOption id)).append_plain
      (.ofOption (k := .closeCurly) (some closing))
  · exact b.marks .angle

mutual

theorem Stack.marks : ∀ s : Stack, Marks s.fields s.predicates
  | ⟨blocks, _⟩ => Block.marks blocks

theorem Block.marks : ∀ bs : List Block, Marks (Block.fieldsOfAll bs) (Block.predicatesOfAll bs)
  | [] => .plain rfl rfl
  | .atomic a :: bs => a.marks.append (Block.marks bs)
  | .composite c :: bs => c.marks.append (Block.marks bs)

theorem Composite.marks : ∀ c : Composite, Marks c.fields c.predicates
  | .ifElse _ c thenWord a body none _ =>
    ((c.marks.cons.append_plain (.ofOption thenWord)).append_plain
      (.elim Annotations.marks a)).append body.marks
  | .ifElse _ c thenWord a body (some branch) _ =>
    (((c.marks.cons.append_plain (.ofOption thenWord)).append_plain
      (.elim Annotations.marks a)).append body.marks).append branch.marks
  | .forever _ a body _ => (Marks.elim Annotations.marks a).cons.append body.marks
  | .repeatTimes _ count a body _ =>
    (count.marks.cons.append_plain (.elim Annotations.marks a)).append body.marks
  | .repeatUntil _ c a body _ =>
    (c.marks.cons.append_plain (.elim Annotations.marks a)).append body.marks

theorem ElseBranch.marks : ∀ b : ElseBranch, Marks b.fields b.predicates
  | ⟨_, clause⟩ => clause.marks.cons

theorem Clause.marks : ∀ c : Clause, Marks c.fields c.predicates
  | ⟨delimiter, none, closing⟩ => (Marks.ofOption delimiter).append_plain (.ofOption closing)
  | ⟨delimiter, some s, closing⟩ =>
    ((Marks.ofOption delimiter).append s.marks).append_plain (.ofOption closing)

end

theorem Comments.marks (c : Comments) : Marks c.fields [] := by
  refine .plain ?_ ?_ <;> simp [fields]

/-- The angle brackets of a script are those of its predicates. -/
theorem Code.marks (c : Code) : Marks c.fields c.predicates := by
  have hsegments : ∀ ss : List Segment, Marks (ss.flatMap Segment.fields)
      ((ss.filterMap Segment.stack?).flatMap Stack.predicates) := by
    intro ss
    induction ss with
    | nil => exact .plain rfl rfl
    | cons s ss ih =>
      cases s with
      | stack s => exact s.marks.append ih
      | comments r => exact r.marks.append ih
  exact (Marks.elim Comments.marks c.comments).append (hsegments c.segments)

/-! ## Brackets among the first tokens -/

/-- Of the tokens that pass a test, those among the first. -/
theorem countP_mem_filter {u v : List Token} (hnodup : (u ++ v).Nodup) (p : Token → Bool) :
    ((u ++ v).filter p).countP (· ∈ u) = u.countP p := by
  have hv : (v.filter p).countP (· ∈ u) = 0 := by
    rw [List.countP_eq_zero]
    intro t ht hu
    have hne := (List.nodup_append.1 hnodup).2.2 t (of_decide_eq_true hu) t
    exact hne (List.mem_of_mem_filter ht) rfl
  have hu : (u.filter p).countP (· ∈ u) = (u.filter p).length := by
    rw [List.countP_eq_length]
    intro t ht
    simpa using List.mem_of_mem_filter ht
  rw [List.filter_append, List.countP_append, hv, hu, Nat.add_zero, List.countP_eq_length_filter]

namespace Marks

variable {fs : List Field} {ps : List Brackets} {u v : List Token}

/-- A predicate begins before it ends. -/
theorem opening_mem (h : Marks fs ps) (hs : Spells (u ++ v) fs) {b : Brackets} (hb : b ∈ ps)
    (hclosing : b.closing ∉ v) : b.opening ∈ u := by
  have hsub := (h.ordered b hb).trans hs.sublist
  obtain ⟨l, r, heq, hl, hr⟩ := List.sublist_append_iff.1 hsub
  rcases l with _ | ⟨t, l⟩
  · rw [List.nil_append] at heq
    subst heq
    exact absurd (hr.subset (by simp)) hclosing
  · obtain ⟨rfl, -⟩ := List.cons.inj heq
    exact hl.subset List.mem_cons_self

theorem mem_closings (h : Marks fs ps) (hs : Spells u fs) {t : Token} :
    (∃ b ∈ ps, b.closing = t) ↔ t ∈ u ∧ t.kind = .closeAngle := by
  have hmem := h.closings.mem_iff (a := t)
  rw [← hs.filter_kind rfl (by decide), List.mem_filter, List.mem_map] at hmem
  simpa using hmem.symm

/-- The angle brackets among the first tokens. -/
theorem countP_openAngle (h : Marks fs ps) (hs : Spells (u ++ v) fs) (hnodup : (u ++ v).Nodup) :
    u.countP (·.kind = .openAngle) = ps.countP (·.opening ∈ u) := by
  rw [← countP_mem_filter hnodup, hs.filter_kind rfl (by decide), h.openings.countP_eq,
    List.countP_map]
  rfl

theorem countP_closeAngle (h : Marks fs ps) (hs : Spells (u ++ v) fs) (hnodup : (u ++ v).Nodup) :
    u.countP (·.kind = .closeAngle) = ps.countP (·.closing ∈ u) := by
  rw [← countP_mem_filter hnodup, hs.filter_kind rfl (by decide), h.closings.countP_eq,
    List.countP_map]
  rfl

theorem length_stillOpen (h : Marks fs ps) (hs : Spells (u ++ v) fs) (hnodup : (u ++ v).Nodup) :
    (stillOpen u ps).length + u.countP (·.kind = .closeAngle) = u.countP (·.kind = .openAngle) := by
  have hclosed : ∀ b ∈ ps, b.closing ∈ u → b.opening ∈ u := by
    intro b hb hu
    refine h.opening_mem hs hb fun hv => ?_
    exact (List.nodup_append.1 hnodup).2.2 _ hu _ hv rfl
  rw [h.countP_openAngle hs hnodup, h.countP_closeAngle hs hnodup,
    List.countP_eq_countP_filter_add ps (·.opening ∈ u) (·.closing ∈ u), Nat.add_comm]
  congr 1
  · rw [List.countP_filter]
    refine List.countP_congr fun b hb => ?_
    simpa using hclosed b hb
  · rw [List.countP_filter, stillOpen, List.countP_eq_length_filter]
    simp

/-- A bracket that closes belongs to a predicate that is open. -/
theorem stillOpen_pos (h : Marks fs ps) {t : Token} (hs : Spells (u ++ t :: v) fs)
    (hnodup : (u ++ t :: v).Nodup) (ht : t.kind = .closeAngle) : 0 < (stillOpen u ps).length := by
  obtain ⟨b, hb, rfl⟩ := (h.mem_closings hs).2 ⟨List.mem_append_right u List.mem_cons_self, ht⟩
  obtain ⟨-, hv, hu⟩ := List.nodup_append.1 hnodup
  have hclosing : b.closing ∉ u := fun hmem => hu _ hmem _ List.mem_cons_self rfl
  have hopening : b.opening ∈ u ++ [b.closing] := by
    refine h.opening_mem (v := v) (by simpa using hs) hb ?_
    exact (List.nodup_cons.1 hv).1
  have hne : b.opening ≠ b.closing := by
    intro heq
    have hpair := ((h.ordered b hb).trans hs.sublist).nodup hnodup
    simp [heq] at hpair
  refine List.length_pos_of_mem (a := b) (List.mem_filter.2 ⟨hb, ?_⟩)
  simpa [hclosing, hne] using hopening

/-- The number of open angle brackets is that of the predicates that are open. -/
theorem foldl_angleDepth (h : Marks fs ps) (hs : Spells (u ++ v) fs) (hnodup : (u ++ v).Nodup) :
    (u.map Token.kind).foldl angleDepth 0 = (stillOpen u ps).length := by
  -- by induction on the tokens taken, the last of them apart: where it closes a bracket, one is
  -- open, so that its bracket is taken off the number
  induction u using List.reverseRecOn generalizing v with
  | nil => simp [stillOpen]
  | append_singleton u t ih =>
    have hs' : Spells (u ++ t :: v) fs := by simpa using hs
    have hnodup' : (u ++ t :: v).Nodup := by simpa using hnodup
    have hcount := h.length_stillOpen hs hnodup
    have hcount' := h.length_stillOpen hs' hnodup'
    have hpos := h.stillOpen_pos hs' hnodup'
    rw [List.map_append, List.foldl_append, ih hs' hnodup']
    simp only [List.countP_append, List.countP_singleton] at hcount
    change angleDepth _ t.kind = _
    generalize t.kind = k at hcount hpos
    cases k <;> simp_all [angleDepth] <;> omega

end Marks

theorem Placed.nodup {source : String} {ts : List Token} (h : Placed source ts) : ts.Nodup := by
  refine h.apart.imp_of_mem fun {t u} ht _ hle heq => ?_
  have hlt := (h.fits t ht).1
  rw [heq] at hlt hle
  omega

/-- A script that can be read was cut into tokens by its structure. Before each token, the number
of angle brackets counted as open is that of the predicates of the tree that begin before the token
and do not end before it. A bracket that closes finds one open, and none is open at the end. A
label that holds a `<` or `>` which is not escaped stands inside of a predicate, and blanks stand
on both sides of the character. -/
theorem angleDepth_counts_predicates {source : String} {id : Nat} {code : Code}
    (h : parse source id = .ok code) :
    ∃ ts, tokenize source = .ok ts ∧
      (∀ before t after, ts = before ++ t :: after →
        (∃ s, Stand.Reaches (.ofSource source) before s ∧ s.Takes t) ∧
        (∀ s, Stand.Reaches (.ofSource source) before s →
          s.depth = (stillOpen before code.predicates).length ∧
          (t.kind = .closeAngle → 0 < s.depth)) ∧
        ∀ l c r, t.kind = .label → t.text.toList = l ++ c :: r → escapesNext l = false →
          c = '<' ∨ c = '>' →
          (∃ b ∈ code.predicates, b.opening ∈ before ∧ b.closing ∈ after) ∧
          l.getLast?.any isBlank = true ∧ r.head?.any isBlank = true) ∧
      (∃ s, Stand.Reaches (.ofSource source) ts s ∧ s.rest = []) ∧
      ∀ s, Stand.Reaches (.ofSource source) ts s → s.depth = 0 := by
  unfold parse at h
  cases hts : tokenize source with
  | error e => rw [hts] at h; cases h
  | ok ts =>
    rw [hts] at h
    have hspells := (spells_of_parseTokensWithin h).1
    have hmarks := code.marks
    have hnodup := (tokenize_placed hts).nodup
    have hdepth : ∀ u v s, ts = u ++ v → Stand.Reaches (.ofSource source) u s →
        s.depth = (stillOpen u code.predicates).length := by
      rintro u v s rfl hs
      rw [hs.depth_eq]
      exact hmarks.foldl_angleDepth hspells hnodup
    refine ⟨ts, rfl, ?_, Stand.exists_end hts, fun s hs => ?_⟩
    · rintro before t after rfl
      obtain ⟨s₀, hs₀, htakes⟩ := Stand.exists_takes hts
      refine ⟨⟨s₀, hs₀, htakes⟩, fun s hs => ?_, fun l c r hlabel htext hl hc => ?_⟩
      · have hcount := hdepth _ _ s rfl hs
        exact ⟨hcount, fun ht => hcount ▸ hmarks.stillOpen_pos hspells hnodup ht⟩
      · have hspaced := htakes.spaced hlabel
        rw [htext] at hspaced
        obtain ⟨hopen, hbefore, hafter⟩ := hspaced.at hl hc
        rw [Option.or_none] at hbefore
        refine ⟨?_, hbefore, hafter⟩
        have hne : stillOpen before code.predicates ≠ [] := by
          intro hnil
          have hzero := hdepth _ _ s₀ rfl hs₀
          rw [hnil] at hzero
          simp [hzero] at hopen
        obtain ⟨b, hb⟩ := List.exists_mem_of_ne_nil _ hne
        obtain ⟨hmem, hb⟩ := List.mem_filter.1 hb
        obtain ⟨hopening, hclosing⟩ := of_decide_eq_true hb
        refine ⟨b, hmem, hopening, ?_⟩
        obtain ⟨hmem, hkind⟩ := (hmarks.mem_closings hspells).1 ⟨b, hmem, rfl⟩
        rcases List.mem_append.1 hmem with hmem | hmem
        · exact absurd hmem hclosing
        · rcases List.mem_cons.1 hmem with heq | hmem
          · rw [heq, hlabel] at hkind
            cases hkind
          · exact hmem
    · rw [hdepth ts [] s (by simp) hs, List.length_eq_zero_iff, stillOpen, List.filter_eq_nil_iff]
      intro b hb hopen
      exact (of_decide_eq_true hopen).2 ((hmarks.mem_closings hspells).1 ⟨b, hb, rfl⟩).1

/-- The second of two `>` closes the predicate, and the first is part of the label inside. -/
theorem angleDepth_counts_predicates_spaced :
    ∃ code before t after, parse "say <x > 5>" 0 = .ok code ∧
      tokenize "say <x > 5>" = .ok (before ++ t :: after) ∧ t.text = "x > 5" ∧
      ∃ b ∈ code.predicates, b.opening ∈ before ∧ b.closing ∈ after := by
  have hparse : (parse "say <x > 5>" 0).toOption.isSome = true := by decide +kernel
  have htokens : (tokenize "say <x > 5>").toOption.map (·.map fun t => (t.kind, t.text)) =
      some [(.label, "say"), (.openAngle, "<"), (.label, "x > 5"), (.closeAngle, ">")] := by
    decide +kernel
  cases hcode : parse "say <x > 5>" 0 with
  | error e => rw [hcode] at hparse; cases hparse
  | ok code =>
    obtain ⟨ts, hts, hall, -⟩ := angleDepth_counts_predicates hcode
    rw [hts] at htokens
    obtain ⟨t₁, ts, rfl, -, htokens⟩ := List.map_eq_cons_iff.1 (Option.some.inj htokens)
    obtain ⟨t₂, ts, rfl, -, htokens⟩ := List.map_eq_cons_iff.1 htokens
    obtain ⟨t₃, ts, rfl, ht₃, htokens⟩ := List.map_eq_cons_iff.1 htokens
    obtain ⟨t₄, ts, rfl, -, htokens⟩ := List.map_eq_cons_iff.1 htokens
    obtain rfl := List.map_eq_nil_iff.1 htokens
    obtain ⟨hkind, htext⟩ := Prod.mk.inj ht₃
    obtain ⟨-, -, hlabel⟩ := hall [t₁, t₂] t₃ [t₄] rfl
    have hinside := hlabel ['x', ' '] '>' [' ', '5'] hkind (by rw [htext]; rfl) rfl (.inr rfl)
    exact ⟨code, [t₁, t₂], t₃, [t₄], rfl, hts, htext, hinside.1⟩

end BlockNotation
