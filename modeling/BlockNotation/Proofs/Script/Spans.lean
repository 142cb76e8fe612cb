import BlockNotation.Proofs.Script.Places
import BlockNotation.Proofs.Script.Ranges

/-!
# The spans of a script tree form a tree

The span of a node reaches from the first token the node was read from to the last, except that
stacks, runs of remarks and clauses without `end` leave out delimiters that come last
(`Node.Measured`). As the tokens of a source stand apart, no span is empty, those of the nodes
inside a node lie inside its own, and they come one after the other (`Node.Nests`). Both are shown
of the runs of one parser, and carried from the script to every node in it (`spans_form_tree`).
-/

namespace BlockNotation

/-! ## Spans over tokens -/

/-- The span reaches over tokens that stand together in `w`. -/
def Span.Over (s : Span) (w : List Token) : Prop := ∃ m, m ≠ [] ∧ m <:+: w ∧ s = .hull m

/-- The span reaches from the first of the tokens `w` to the last but for the delimiters `ds`. -/
def Span.LeavesOut (s : Span) (w ds : List Token) : Prop :=
  (∀ t ∈ ds, t.kind = .delimiter) ∧ ∃ m, m ≠ [] ∧ w = m ++ ds ∧ s = .hull m

theorem endOf_append_of_ne_nil {w : List Token} (h : w ≠ []) (stop stop' : Nat) (v : List Token) :
    endOf stop (v ++ w) = endOf stop' w := by
  rw [endOf_append, endOf_eq_getLast h, endOf_eq_getLast h]

theorem Span.hull_enclosed (t u : Token) (w : List Token) :
    Span.hull (t :: w ++ [u]) = ⟨t.span.start, u.span.stop⟩ := by
  rw [Span.hull, endOf_append]
  rfl

namespace Span.Over

variable {source : String} {s s' : Span} {w v : List Token}

theorem refl (h : w ≠ []) : Over (.hull w) w := ⟨w, h, List.infix_rfl, rfl⟩

theorem mono (h : s.Over w) (hw : w <:+: v) : s.Over v := by
  obtain ⟨m, hne, hm, hs⟩ := h
  exact ⟨m, hne, hm.trans hw, hs⟩

theorem ne_nil (h : s.Over w) : w ≠ [] := by
  rintro rfl
  obtain ⟨m, hne, hm, -⟩ := h
  exact hne (List.infix_nil.1 hm)

/-- A span over tokens begins where one of them does and ends where one of them does. -/
theorem exists_mem (h : s.Over w) :
    (∃ t ∈ w, t.span.start = s.start) ∧ ∃ t ∈ w, t.span.stop = s.stop := by
  obtain ⟨m, hne, hm, rfl⟩ := h
  constructor
  · obtain ⟨t, us, rfl⟩ := List.exists_cons_of_ne_nil hne
    exact ⟨t, hm.subset List.mem_cons_self, rfl⟩
  · exact ⟨m.getLast hne, hm.subset (List.getLast_mem hne), (endOf_eq_getLast hne 0).symm⟩

theorem start_lt_stop (h : s.Over w) (hw : Placed source w) : s.start < s.stop := by
  obtain ⟨m, hne, hm, rfl⟩ := h
  exact ((hw.part hm).hull hne).1

/-- What reaches over earlier tokens ends before what reaches over later ones begins. -/
theorem apart (h : s.Over w) (h' : s'.Over v) (hw : Placed source (w ++ v)) :
    s.stop ≤ s'.start := by
  obtain ⟨t, ht, hstop⟩ := h.exists_mem.2
  obtain ⟨u, hu, hstart⟩ := h'.exists_mem.1
  rw [← hstop, ← hstart]
  exact (List.pairwise_append.1 hw.apart).2.2 t ht u hu

end Span.Over

namespace Span.LeavesOut

variable {s : Span} {w ds : List Token}

theorem toOver (h : s.LeavesOut w ds) : s.Over w := by
  obtain ⟨-, m, hne, rfl, hs⟩ := h
  exact ⟨m, hne, (List.prefix_append m ds).isInfix, hs⟩

theorem start_eq (h : s.LeavesOut w ds) : s.start = (Span.hull w).start := by
  obtain ⟨-, m, hne, rfl, rfl⟩ := h
  exact (startOf_append hne 0 0 ds).symm

end Span.LeavesOut

/-- Every token among some lies between the first and the last. -/
theorem Placed.mem_hull {source : String} {w : List Token} (h : Placed source w) {t : Token}
    (ht : t ∈ w) : (Span.hull w).start ≤ t.span.start ∧ t.span.stop ≤ (Span.hull w).stop := by
  have hne := List.ne_nil_of_mem ht
  constructor
  · obtain ⟨x, us, rfl⟩ := List.exists_cons_of_ne_nil hne
    change x.span.start ≤ t.span.start
    rcases List.mem_cons.1 ht with rfl | hus
    · exact Nat.le_refl _
    · have hx := (h.fits x List.mem_cons_self).1
      have hxt := List.rel_of_pairwise_cons h.apart hus
      omega
  · have hlast := (h.fits _ (List.getLast_mem hne)).1
    change t.span.stop ≤ endOf 0 w
    rw [endOf_eq_getLast hne]
    rw [← List.dropLast_append_getLast hne] at ht
    rcases List.mem_append.1 ht with hus | hlt
    · have hsplit := h.apart
      rw [← List.dropLast_append_getLast hne] at hsplit
      have hle := (List.pairwise_append.1 hsplit).2.2 t hus _ (List.mem_singleton_self _)
      omega
    · rw [List.mem_singleton.1 hlt]

theorem Span.Over.inside {source : String} {s : Span} {w : List Token} (h : s.Over w)
    (hw : Placed source w) : (Span.hull w).start ≤ s.start ∧ s.stop ≤ (Span.hull w).stop := by
  obtain ⟨⟨t, ht, hstart⟩, u, hu, hstop⟩ := h.exists_mem
  rw [← hstart, ← hstop]
  exact ⟨(hw.mem_hull ht).1, (hw.mem_hull hu).2⟩

/-! ## Nodes that keep all their tokens -/

theorem Brackets.span_eq (b : Brackets) (shape : Shape) :
    b.span = .hull ((b.fields shape).map Field.token) := by
  obtain ⟨opening, _ | atomic, closing⟩ := b
  · exact (Span.hull_enclosed opening closing []).symm
  · refine (Span.hull_enclosed opening closing (atomic.fields.map Field.token)).symm.trans ?_
    simp [Brackets.fields]

theorem Argument.span_eq : ∀ a : Argument, a.span = .hull (a.fields.map Field.token)
  | .curly opening none id closing => by
    refine (Span.hull_enclosed opening closing id.toList).symm.trans ?_
    simp [Argument.fields]
  | .curly opening (some value) id closing => by
    refine (Span.hull_enclosed opening closing
      (value.fields.map Field.token ++ id.toList)).symm.trans ?_
    simp [Argument.fields]
  | .bare (.literal _) => rfl
  | .bare (.bracketed shape b) => b.span_eq shape

theorem Condition.span_eq : ∀ c : Condition, c.span = .hull (c.fields.map Field.token)
  | .curly opening predicate id closing => by
    refine (Span.hull_enclosed opening closing
      ((predicate.elim [] (·.fields .angle)).map Field.token ++ id.toList)).symm.trans ?_
    simp [Condition.fields]
  | .bare b => b.span_eq .angle

theorem Brackets.fields_ne_nil (b : Brackets) (shape : Shape) : b.fields shape ≠ [] := by
  obtain ⟨opening, _ | atomic, closing⟩ := b <;> simp [Brackets.fields]

theorem Condition.fields_ne_nil : ∀ c : Condition, c.fields ≠ []
  | .curly _ _ _ _ => by simp [Condition.fields]
  | .bare b => b.fields_ne_nil .angle

theorem Atomic.mem_atomics (a : Atomic) : a ∈ a.atomics := by
  obtain ⟨elements, modifier, annotations, span⟩ := a
  exact List.mem_cons_self

theorem Laid.span_eq {w : List Token} {a : Atomic} (h : Laid w a.fields a.atomics) :
    w ≠ [] ∧ a.span = .hull w := by
  obtain ⟨rfl, hspans⟩ := h
  obtain ⟨hne, hspan⟩ := hspans a a.mem_atomics
  exact ⟨by simpa using hne, hspan⟩

theorem Block.Covers.span_eq : ∀ {b : Block} {w : List Token}, b.Covers w → b.span = .hull w
  | .atomic _, _, h => (Laid.span_eq h).2
  | .composite (.ifElse _ _ _ _ _ none _), _, h => h.1
  | .composite (.ifElse _ _ _ _ _ (some _) _), _, h => h.1
  | .composite (.forever _ _ _ _), _, h => h.1
  | .composite (.repeatTimes _ _ _ _ _), _, h => h.1
  | .composite (.repeatUntil _ _ _ _ _), _, h => h.1

/-! ## Nodes that leave out delimiters -/

/-- The last of some blocks ends where their last token does. -/
theorem Block.Follow.stop_eq : ∀ {bs : List Block} {first : Block} {u v : List Token},
    first.Covers u → Block.Follow bs v →
      (first :: bs).getLast?.map (·.span.stop) = some (endOf 0 (u ++ v))
  | [], first, u, v, hfirst, h => by
    subst h
    rw [List.append_nil]
    exact congrArg (fun s => some s.stop) hfirst.span_eq
  | b :: bs, first, u, _, _, ⟨t, u', v', rfl, _, hb, hbs⟩ => by
    have hlater := Block.Follow.stop_eq hb hbs
    have hne : u' ++ v' ≠ [] := by simp [hb.ne_nil]
    rw [List.getLast?_cons_cons, hlater]
    have hsplit : u ++ (t :: u' ++ v') = u ++ [t] ++ (u' ++ v') := by simp
    rw [hsplit, endOf_append_of_ne_nil hne 0 0]

theorem Stack.Covers.leavesOut : ∀ {s : Stack} {w : List Token}, s.Covers w →
    (∃ ds, ds.length ≤ 1 ∧ s.span.LeavesOut w ds) ∧
      s.blocks.head?.map (·.span.start) = some s.span.start ∧
      s.blocks.getLast?.map (·.span.stop) = some s.span.stop
  | ⟨[], _⟩, _, h => h.elim
  | ⟨first :: later, span⟩, _, ⟨u, v, d, rfl, hfirst, hlater, hd, hspan⟩ => by
    have hne : u ++ v ≠ [] := by simp [hfirst.ne_nil]
    refine ⟨⟨d.toList, by cases d <;> simp, by simpa using hd, u ++ v, hne, rfl, hspan⟩, ?_, ?_⟩
    · rw [hspan]
      change some first.span.start = some (Cursor.startOf 0 (u ++ v))
      rw [hfirst.span_eq, startOf_append hfirst.ne_nil 0 0]
      rfl
    · rw [hspan]
      exact Block.Follow.stop_eq hfirst hlater

/-- The span that a node has to have which was read from the tokens `w`. -/
def Node.Measured (w : List Token) : Node → Prop
  | .code c => c.span = .hull w
  | .comments c => (∃ ds, c.span.LeavesOut w ds) ∧
      c.remarks.getLast?.map (·.span.stop) = some c.span.stop
  | .stack s => (∃ ds, ds.length ≤ 1 ∧ s.span.LeavesOut w ds) ∧
      s.blocks.head?.map (·.span.start) = some s.span.start ∧
      s.blocks.getLast?.map (·.span.stop) = some s.span.stop
  | .clause c => (c.span? = none ↔ w = []) ∧ ∀ s ∈ c.span?,
      match c.body, c.closing with
      | some body, none => (∃ ds, ds.length ≤ 1 ∧ s.LeavesOut w ds) ∧ s.stop = body.span.stop
      | _, _ => s = .hull w
  | n => w ≠ [] ∧ n.span? = some (.hull w)

theorem Comments.Covers.measured {c : Comments} {w : List Token} (h : c.Covers w) :
    (Node.comments c).Measured w := by
  obtain ⟨m, ds, rfl, hne, hds, hlast, hspan⟩ := h
  refine ⟨⟨ds, hds, m, hne, rfl, hspan⟩, ?_⟩
  rw [← hlast, List.getLast?_eq_some_getLast hne, hspan, Span.hull, endOf_eq_getLast hne]
  rfl

/-- A clause with a body begins with its delimiter or with the body, and ends with `end` or the
body. -/
theorem Clause.span?_some (delimiter closing : Option Token) {body : Stack} {m : List Token}
    (hbody : body.span = .hull m) :
    Clause.span? ⟨delimiter, some body, closing⟩ = some ⟨Cursor.startOf 0 (delimiter.toList ++ m),
      closing.elim body.span.stop (·.span.stop)⟩ := by
  have hstart : body.span.start = Cursor.startOf 0 m := by rw [hbody]; rfl
  cases delimiter <;> cases closing <;> simp [Clause.span?, hstart, Cursor.startOf]

theorem Clause.Covers.measured : ∀ {c : Clause} {w : List Token}, c.Covers w →
    (Node.clause c).Measured w
  | ⟨delimiter, none, closing⟩, _, h => by
    subst h
    cases delimiter <;> cases closing <;>
      simp [Node.Measured, Clause.span?, Span.hull, endOf, Cursor.startOf]
  | ⟨delimiter, some body, closing⟩, _, ⟨_, rfl, hbody⟩ => by
    obtain ⟨⟨ds, hlen, hds, m, hne, rfl, hspan⟩, -⟩ := hbody.leavesOut
    have hm : delimiter.toList ++ m ≠ [] := by simp [hne]
    rw [Node.Measured, Clause.span?_some delimiter closing hspan]
    refine ⟨by simp [hne], ?_⟩
    rintro s ⟨⟩
    cases closing with
    | none =>
      refine ⟨⟨ds, hlen, hds, delimiter.toList ++ m, hm, by simp, ?_⟩, rfl⟩
      rw [Span.hull, endOf_append_of_ne_nil hne 0 0, hspan]
      rfl
    | some closing =>
      change _ = Span.hull _
      rw [Span.hull, endOf_append, List.append_assoc, List.append_assoc, ← List.append_assoc,
        startOf_append hm 0 0]
      rfl

/-! ## Scripts -/

/-- A script reaches from where it begins to the end of the last token, but not further back. -/
theorem Parser.code_span {levels id : Nat} {s s' : Cursor} {c : Code}
    (h : code (stackWithin? levels) id s = .ok (c, s')) : ∃ w, s.rest = w ++ s'.rest ∧
      c.span = ⟨s.start, max (endOf s.lastEnd w) s.start⟩ := by
  obtain ⟨_, _, hstart, h⟩ := of_bind_run h
  cases hstart
  obtain ⟨_, s₁, h₁, h⟩ := of_bind_run h
  obtain ⟨u, hu, hend₁, -⟩ := tracks_delimiters.of_run h₁
  obtain ⟨_, s₂, h₂, h⟩ := of_bind_run h
  obtain ⟨v, hv, hend₂, -⟩ := tracks_comments?.of_run h₂
  obtain ⟨_, s₃, h₃, h⟩ := of_bind_run h
  obtain ⟨w, hw, hend₃, -⟩ := (tracks_segments levels).of_run h₃
  cases h
  refine ⟨u ++ v ++ w, by rw [hu, hv, hw]; simp, ?_⟩
  rw [endOf_append, endOf_append, ← hend₁, ← hend₂, ← hend₃]

theorem Node.measured_code {source : String} {levels id : Nat} {c : Code} {s : Cursor}
    {r : List Token} (hr : Placed source r)
    (h : Parser.script levels id (.ofTokens r) = .ok (c, s)) :
    s.rest = [] ∧ (Node.code c).Measured r := by
  obtain ⟨hcode, hrest⟩ := Parser.script_run h
  obtain ⟨w, hw, hspan⟩ := Parser.code_span hcode
  have hw : r = w ++ s.rest := hw
  rw [hrest, List.append_nil] at hw
  subst hw
  refine ⟨hrest, hspan.trans ?_⟩
  -- Without tokens both ends are those the cursor starts with, and they are zero.
  cases r with
  | nil => rfl
  | cons t r =>
    have hne := List.cons_ne_nil t r
    have hle : t.span.start ≤ endOf 0 (t :: r) := (hr.hull hne).1.le
    have hend : endOf t.span.start (t :: r) = endOf 0 (t :: r) :=
      endOf_append_of_ne_nil hne t.span.start 0 []
    change Span.mk t.span.start (max (endOf t.span.start (t :: r)) t.span.start) = _
    rw [hend, max_eq_left hle]
    rfl

/-- A node has the span it has to have. -/
theorem Node.Read.measured {source : String} : ∀ {n : Node} {r left : List Token},
    n.Read r left → Placed source r → ∃ w, r = w ++ left ∧ n.Measured w
  | .token t, _, _, h, _ => ⟨[t], h, by simp, rfl⟩
  | .modifier m, _, _, ⟨_, _, h, rfl, rfl⟩, _ => by
    obtain ⟨w, hw, -, rfl⟩ := Parser.tracks_modifier?.of_run h
    exact ⟨_, hw, by simp [Modifier.fields], rfl⟩
  | .brackets shape b, _, _, ⟨levels, _, _, h, rfl, rfl⟩, _ => by
    obtain ⟨w, hw, -, rfl, -⟩ := (Parser.tracks_brackets levels shape).of_run h
    exact ⟨_, hw, by simpa using b.fields_ne_nil shape, congrArg some (b.span_eq shape)⟩
  | .argument a, _, _, ⟨levels, _, _, h, rfl, rfl⟩, _ => by
    obtain ⟨w, hw, -, rfl, -⟩ :=
      (Parser.tracks_argument? (Parser.tracks_brackets levels)).of_run h
    exact ⟨_, hw, by simpa using a.fields_ne_nil, congrArg some a.span_eq⟩
  | .condition c, _, _, ⟨levels, _, _, h, rfl, rfl⟩, _ => by
    obtain ⟨w, hw, -, rfl, -⟩ :=
      (Parser.tracks_condition (Parser.tracks_brackets levels)).of_run h
    exact ⟨_, hw, by simpa using c.fields_ne_nil, congrArg some c.span_eq⟩
  | .atomic a, _, _, ⟨levels, _, _, h, rfl, rfl⟩, _ => by
    obtain ⟨w, hw, -, hlaid⟩ := (Parser.tracks_atomic? (Parser.tracks_brackets levels)).of_run h
    obtain ⟨hne, hspan⟩ := Laid.span_eq hlaid
    exact ⟨w, hw, hne, congrArg some hspan⟩
  | .block b, _, _, ⟨levels, _, _, h, rfl, rfl⟩, _ => by
    obtain ⟨w, hw, -, hcovers⟩ := (Parser.tracks_block? (Parser.tracks_clause levels)).of_run h
    exact ⟨w, hw, Block.Covers.ne_nil hcovers, congrArg some (Block.Covers.span_eq hcovers)⟩
  | .clause c, _, _, ⟨levels, _, _, h, rfl, rfl⟩, _ => by
    obtain ⟨w, hw, -, hcovers⟩ := (Parser.tracks_clause levels).of_run h
    exact ⟨w, hw, hcovers.measured⟩
  | .stack s, _, _, ⟨levels, _, _, h, rfl, rfl⟩, _ => by
    obtain ⟨w, hw, -, hcovers⟩ :=
      (Parser.tracks_stack? (Parser.tracks_clause levels) (Parser.follows_clause levels)).of_run h
    exact ⟨w, hw, Stack.Covers.leavesOut hcovers⟩
  | .comments c, _, _, ⟨_, _, h, rfl, rfl⟩, _ => by
    obtain ⟨w, hw, -, hcovers⟩ := Parser.tracks_comments?.of_run h
    exact ⟨w, hw, Comments.Covers.measured hcovers⟩
  | .code c, r, _, ⟨levels, id, s, h, rfl⟩, hr => by
    obtain ⟨hrest, hmeasured⟩ := Node.measured_code hr h
    exact ⟨r, by simp [hrest], hmeasured⟩

/-! ## The tree -/

namespace Node

/-- The spans of the parts of a node lie one after the other inside its own. -/
structure Nests (n : Node) : Prop where
  apart : (n.parts.filterMap span?).Pairwise fun s s' => s.stop ≤ s'.start
  inside : ∀ s ∈ n.parts.filterMap span?, ∃ p, n.span? = some p ∧ p.start ≤ s.start ∧
    s.stop ≤ p.stop

variable {source : String} {n m : Node} {w r left : List Token}

@[simp] theorem ofValue_ne_code (v : Value) (c : Code) : ofValue v ≠ .code c := by
  cases v <;> simp [ofValue]

@[simp] theorem ofElement_ne_code (e : Element) (c : Code) : ofElement e ≠ .code c := by
  cases e <;> simp [ofElement]

@[simp] theorem ofSegment_ne_code (s : Segment) (c : Code) : ofSegment s ≠ .code c := by
  cases s <;> simp [ofSegment]

theorem compositeParts_ne_code (c : Code) (x : Composite) : .code c ∉ compositeParts x := by
  cases x with
  | ifElse _ _ _ _ _ otherwise _ =>
    cases otherwise <;> simp [compositeParts, annotationParts, elseParts]
  | forever | repeatTimes | repeatUntil => simp [compositeParts, annotationParts]

theorem code_not_mem_parts (c : Code) : ∀ n : Node, .code c ∉ n.parts
  | .argument (.bare v) => by simp [parts, (ofValue_ne_code v c).symm]
  | .block (.composite x) => compositeParts_ne_code c x
  | .token _ | .modifier _ | .brackets _ _ | .argument (.curly _ _ _ _)
  | .condition (.curly _ _ _ _) | .condition (.bare _) | .atomic _ | .block (.atomic _)
  | .clause _ | .stack _ | .comments _ | .code _ => by simp [parts, annotationParts]

theorem filterMap_span?_map {α : Type} {f : α → Node} {g : α → Span}
    (h : ∀ a, (f a).span? = some (g a)) {as : List α} :
    (as.map f).filterMap span? = as.map g := by
  simp [List.filterMap_map, h]

/-- A node has a span over the tokens `w`, which begins with the first of them and ends with the
last, or with the last part of the node. -/
def Reaches (n : Node) (w : List Token) : Prop :=
  ∃ s, n.span? = some s ∧ s.start = (Span.hull w).start ∧ s.Over w ∧
    (s.stop = (Span.hull w).stop ∨ ∃ p ∈ (n.parts.filterMap span?).getLast?, p.stop = s.stop)

theorem Measured.reaches (h : n.Measured w) (hw : w ≠ []) : n.Reaches w := by
  have hwhole : n.span? = some (.hull w) → n.Reaches w :=
    fun hn => ⟨_, hn, rfl, .refl hw, .inl rfl⟩
  cases n with
  | token | modifier | brackets | argument | condition | atomic | block => exact hwhole h.2
  | code c => exact hwhole (congrArg some h)
  | comments c =>
    obtain ⟨⟨ds, hout⟩, hlast⟩ := h
    obtain ⟨t, ht, hstop⟩ := Option.map_eq_some_iff.1 hlast
    have hparts : (c.remarks.map token).filterMap span? = c.remarks.map (·.span) :=
      filterMap_span?_map fun _ => rfl
    refine ⟨c.span, rfl, hout.start_eq, hout.toOver, .inr ⟨t.span, ?_, hstop⟩⟩
    rw [parts, hparts, List.getLast?_map, ht]
    rfl
  | stack s =>
    obtain ⟨⟨ds, -, hout⟩, -, hlast⟩ := h
    obtain ⟨b, hb, hstop⟩ := Option.map_eq_some_iff.1 hlast
    have hparts : (s.blocks.map block).filterMap span? = s.blocks.map (·.span) :=
      filterMap_span?_map fun _ => rfl
    refine ⟨s.span, rfl, hout.start_eq, hout.toOver, .inr ⟨b.span, ?_, hstop⟩⟩
    rw [parts, hparts, List.getLast?_map, hb]
    rfl
  | clause c =>
    obtain ⟨s, hs⟩ := Option.ne_none_iff_exists'.1 (mt h.1.1 hw)
    have hspan := h.2 s hs
    obtain ⟨delimiter, _ | body, _ | closing⟩ := c
    · exact hwhole (hspan ▸ hs)
    · exact hwhole (hspan ▸ hs)
    · obtain ⟨⟨ds, -, hout⟩, hstop⟩ := hspan
      refine ⟨s, hs, hout.start_eq, hout.toOver, .inr ⟨body.span, ?_, hstop.symm⟩⟩
      simp [parts, span?]
    · exact hwhole (hspan ▸ hs)

/-- A part of a script that was read from no token is a clause without a span. -/
theorem Measured.span?_eq_none (h : n.Measured []) (hn : ∀ c, n ≠ .code c) : n.span? = none := by
  cases n with
  | token | modifier | brackets | argument | condition | atomic | block => exact absurd rfl h.1
  | code c => exact absurd rfl (hn c)
  | comments c =>
    obtain ⟨⟨ds, -, m, hne, hm, -⟩, -⟩ := h
    exact absurd (List.append_eq_nil_iff.1 hm.symm).1 hne
  | stack s =>
    obtain ⟨⟨ds, -, -, m, hne, hm, -⟩, -⟩ := h
    exact absurd (List.append_eq_nil_iff.1 hm.symm).1 hne
  | clause c => exact h.1.2 rfl

theorem Measured.start_lt_stop (h : n.Measured w) (hn : ∀ c, n ≠ .code c)
    (hw : Placed source w) : ∀ s ∈ n.span?, s.start < s.stop := by
  intro s hs
  by_cases hne : w = []
  · subst hne
    rw [h.span?_eq_none hn] at hs
    cases hs
  · obtain ⟨s', hs', -, hover, -⟩ := h.reaches hne
    rw [hs'] at hs
    cases hs
    exact hover.start_lt_stop hw

end Node

namespace Row

variable {source : String} {ns : List Node} {r left : List Token}

/-- The spans of nodes that were read one after the other lie one after the other. -/
theorem spans (h : Row ns r left) (hns : ∀ c, .code c ∉ ns) (hr : Placed source r) :
    ∃ w, r = w ++ left ∧ (∀ s ∈ ns.filterMap Node.span?, s.Over w) ∧
      (ns.filterMap Node.span?).Pairwise fun s s' => s.stop ≤ s'.start := by
  induction h with
  | nil => exact ⟨[], rfl, by simp, .nil⟩
  | @skip t ns r left _ _ ih =>
    obtain ⟨w, rfl, hover, hapart⟩ := ih hns (hr.part (List.suffix_cons t r).isInfix)
    exact ⟨t :: w, rfl, fun s hs => (hover s hs).mono (List.suffix_cons t w).isInfix, hapart⟩
  | @node n ns r mid left first _ ih =>
    obtain ⟨u, rfl, hn⟩ := first.measured hr
    obtain ⟨v, rfl, hover, hapart⟩ := ih (fun c hc => hns c (List.mem_cons_of_mem n hc))
      (hr.part (List.suffix_append u mid).isInfix)
    refine ⟨u ++ v, by simp, ?_⟩
    have hlater : ∀ s ∈ ns.filterMap Node.span?, s.Over (u ++ v) :=
      fun s hs => (hover s hs).mono (List.suffix_append u v).isInfix
    by_cases hu : u = []
    · -- A clause may have taken nothing; then it has no span to be placed.
      subst hu
      have hnone := hn.span?_eq_none fun c hc => hns c (hc ▸ List.mem_cons_self)
      rw [List.filterMap_cons_none hnone]
      exact ⟨hlater, hapart⟩
    · obtain ⟨s, hs, -, hsover, -⟩ := hn.reaches hu
      rw [List.filterMap_cons_some hs]
      refine ⟨List.forall_mem_cons.2 ⟨hsover.mono (List.prefix_append u v).isInfix, hlater⟩,
        List.pairwise_cons.2 ⟨fun s' hs' => ?_, hapart⟩⟩
      refine hsover.apart (hover s' hs') (hr.part ?_)
      rw [← List.append_assoc]
      exact (List.prefix_append (u ++ v) left).isInfix

end Row

/-- Of spans that lie one after the other, the last ends last. -/
theorem stop_le_last {ss : List Span} {p : Span}
    (hapart : ss.Pairwise fun s s' => s.stop ≤ s'.start) (hne : ∀ s ∈ ss, s.start < s.stop)
    (hp : p ∈ ss.getLast?) : ∀ s ∈ ss, s.stop ≤ p.stop := by
  obtain ⟨init, rfl⟩ := List.getLast?_eq_some_iff.1 hp
  intro s hs
  rcases List.mem_append.1 hs with hs | hs
  · have hle := (List.pairwise_append.1 hapart).2.2 s hs p (List.mem_singleton_self p)
    have hlt := hne p (by simp)
    omega
  · rw [List.mem_singleton.1 hs]

theorem Node.Read.nests {source : String} {n : Node} {r left : List Token} (h : n.Read r left)
    (hr : Placed source r) : n.Nests := by
  by_cases hparts : n.parts = []
  · exact ⟨by simp [hparts], by simp [hparts]⟩
  obtain ⟨w, rfl, hmeasured⟩ := h.measured hr
  obtain ⟨v, hv, hover, hapart⟩ := (h.row hparts).spans (fun c => n.code_not_mem_parts c) hr
  obtain rfl := List.append_cancel_right hv
  have hw := hr.part (List.prefix_append w left).isInfix
  refine ⟨hapart, fun s hs => ?_⟩
  obtain ⟨p, hp, hstart, -, hstop⟩ := hmeasured.reaches (hover s hs).ne_nil
  obtain ⟨hlow, hhigh⟩ := (hover s hs).inside hw
  refine ⟨p, hp, hstart ▸ hlow, ?_⟩
  -- A node that leaves delimiters out ends with its last part, and so no part ends later.
  rcases hstop with hstop | ⟨q, hq, hstop⟩
  · exact hstop ▸ hhigh
  · exact hstop ▸ stop_le_last hapart (fun s hs => (hover s hs).start_lt_stop hw) hq s hs

/-- Every node in a tree was read somewhere while the root was. -/
theorem Node.Inside.read {n root : Node} {r left : List Token} (h : root.Inside n)
    (hroot : root.Read r left) : ∃ r' left', r' <:+ r ∧ n.Read r' left' := by
  induction h with
  | root => exact ⟨r, left, List.suffix_rfl, hroot⟩
  | part _ hm ih =>
    obtain ⟨r', left', hsuffix, hn⟩ := ih
    obtain ⟨r₁, left₁, hsuffix₁, hm⟩ := (hn.row (List.ne_nil_of_mem hm)).read_of_mem hm
    exact ⟨r₁, left₁, hsuffix₁.trans hsuffix, hm⟩

theorem Node.Inside.eq_root {root : Node} {c : Code} (h : root.Inside (.code c)) :
    root = .code c := by
  cases h with
  | root => rfl
  | part _ hm => exact absurd hm (Node.code_not_mem_parts c _)

/-- A script is read from all tokens of its source. -/
theorem read_of_parse {source : String} {id : Nat} {code : Code} (h : parse source id = .ok code) :
    ∃ ts, tokenize source = .ok ts ∧ (Node.code code).Read ts [] := by
  obtain ⟨ts, hts, hcode⟩ := tokenize_of_parse h
  exact ⟨ts, hts, read_of_parseTokens hcode⟩

/-- Every node of a script is what its parser has read from some tokens `w` of the source, part by
part. Its span is measured by these tokens, and the spans of the nodes directly inside it lie in
its own, one after the other. No span is empty but that of a script without tokens. -/
theorem spans_form_tree {source : String} {id : Nat} {code : Code}
    (h : parse source id = .ok code) :
    ∃ ts, tokenize source = .ok ts ∧ code.span = .hull ts ∧
      ∀ n, (Node.code code).Inside n → ∃ w left, w ++ left <:+ ts ∧
        n.Read (w ++ left) left ∧ (n.parts ≠ [] → Row n.parts (w ++ left) left) ∧
        n.Measured w ∧ n.Nests ∧
        ((∀ s ∈ n.span?, s.start < s.stop) ∨ n = .code code ∧ ts = []) := by
  obtain ⟨ts, hts, hread⟩ := read_of_parse h
  have hplaced := tokenize_placed hts
  obtain ⟨w, hw, hspan⟩ := hread.measured hplaced
  rw [List.append_nil] at hw
  subst hw
  refine ⟨ts, hts, hspan, fun n hinside => ?_⟩
  obtain ⟨r, left, hsuffix, hn⟩ := hinside.read hread
  have hr := hplaced.part hsuffix.isInfix
  obtain ⟨w, rfl, hmeasured⟩ := hn.measured hr
  refine ⟨w, left, hsuffix, hn, hn.row, hmeasured, hn.nests hr, ?_⟩
  by_cases hroot : ∃ c, n = .code c
  · obtain ⟨c, rfl⟩ := hroot
    obtain rfl : code = c := by simpa using hinside.eq_root
    by_cases hne : ts = []
    · exact .inr ⟨rfl, hne⟩
    · refine .inl fun s hs => ?_
      obtain rfl : code.span = s := by simpa [Node.span?] using hs
      exact hspan ▸ (hplaced.hull hne).1
  · have hw := hr.part (List.prefix_append w left).isInfix
    exact .inl (hmeasured.start_lt_stop (fun c hc => hroot ⟨c, hc⟩) hw)

/-- The delimiter after the body of a loop lies in the loop, but not in its clause. -/
theorem spans_form_tree_loop : ∃ code loop clause, parse "forever\nmove\n" 0 = .ok code ∧
    (Node.code code).Inside loop ∧ loop.span? = some ⟨0, 13⟩ ∧ loop.Nests ∧
    clause ∈ loop.parts ∧ clause.span? = some ⟨7, 12⟩ ∧
    ∃ w left, clause.Read (w ++ left) left ∧ clause.Measured w := by
  have h : (parse "forever\nmove\n" 0).toOption.map (fun c =>
      ((Node.code c).parts.flatMap Node.parts).map fun n =>
        (n.span?, n.parts.map Node.span?)) =
      some [(some ⟨0, 13⟩, [some ⟨0, 7⟩, some ⟨7, 12⟩])] := by decide +kernel
  cases hcode : parse "forever\nmove\n" 0 with
  | error e => rw [hcode] at h; cases h
  | ok code =>
    rw [hcode] at h
    obtain ⟨loop, _, hloop, hspans, -⟩ := List.map_eq_cons_iff.1 (Option.some.inj h)
    obtain ⟨hspan, hparts⟩ := Prod.mk.inj hspans
    obtain ⟨stack, hstack, hloop⟩ := List.mem_flatMap.1 (hloop ▸ List.mem_cons_self)
    obtain ⟨clause, hclause, hrange⟩ := List.mem_map.1
      (show some ⟨7, 12⟩ ∈ loop.parts.map Node.span? from hparts ▸ by simp)
    have hinside := (Node.Inside.root.part hstack).part hloop
    obtain ⟨ts, -, -, hall⟩ := spans_form_tree hcode
    obtain ⟨_, _, -, -, -, -, hnests, -⟩ := hall loop hinside
    obtain ⟨w, left, -, hread, -, hmeasured, -⟩ := hall clause (hinside.part hclause)
    exact ⟨code, loop, clause, rfl, hinside, hspan, hnests, hclause, hrange, w, left, hread,
      hmeasured⟩

end BlockNotation
