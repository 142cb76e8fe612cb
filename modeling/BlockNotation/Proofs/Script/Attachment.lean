import BlockNotation.Proofs.Grammar.Expansion
import BlockNotation.Proofs.Script.Places

/-!
# Optional parts belong to the innermost construct

The grammar leaves open which of two constructs an `else`, an `end`, a delimiter, a modifier or a
remark belongs to when both could take it. The parser gives it to the innermost one: where a node
ends without an optional part, the next token is none that this part, or what could come before it,
begins with (`Node.Attached`). This holds of everything that the parser of a node gives
(`Node.Read.attached`), and so at every place of a script tree, in front of the tokens which were
left when the node at that place was read (`Node.ReadAt`).
-/

namespace BlockNotation

/-- The next token, if there is one, is of none of some kinds. -/
def NotNext (ks : List Kind) (left : List Token) : Prop := ∀ t ∈ left.head?, t.kind ∉ ks

/-! ## The place of a node and its tokens -/

/-- Blocks that were read one after the other, with one delimiter between each two. -/
inductive Block.Lined : List Block → List Token → List Token → Prop where
  | last {b : Block} {r left : List Token} (only : (Node.block b).Read r left) : Lined [b] r left
  | next {b : Block} {bs : List Block} {t : Token} {r mid left : List Token}
      (first : (Node.block b).Read r (t :: mid)) (delimiter : t.kind = .delimiter)
      (later : Lined bs mid left) : Lined (b :: bs) r left

/-- A stack takes the delimiter after its last block if there is one. Behind that delimiter no block
can begin. -/
structure Stack.Attached (s : Stack) (r left : List Token) : Prop where
  ends : Block.Lined s.blocks r left ∨ ∃ d, d.kind = .delimiter ∧ Block.Lined s.blocks r (d :: left)
  without : Block.Lined s.blocks r left → NotNext [.delimiter] left
  taken : ∀ d, d.kind = .delimiter → Block.Lined s.blocks r (d :: left) →
    ∀ t ∈ left.head?, ∀ ks, ¬ Derives scriptRules (.rule .block) (t.kind :: ks)

/-- A node that was read from the tokens `r` up to the tokens `left` has all the optional parts
that it could have had. -/
def Node.Attached : Node → List Token → List Token → Prop
  | .clause c, _, left => c.closing = none → NotNext [.endWord] left
  | .block (.composite (.ifElse _ _ _ _ _ otherwise _)), _, left =>
    otherwise = none → NotNext [.elseWord] left
  | .stack s, r, left => s.Attached r left
  | .atomic a, _, left => a.annotations = none → NotNext [.remark, .identifier] left ∧
      (a.modifier = none → NotNext (.label :: Family.literal.kinds ++
        [.openCurly, .openRound, .openAngle, .doubleColon]) left)
  | _, _, _ => True

namespace NotNext

variable {ks ls : List Kind} {left : List Token}

theorem of_kinds (h : ∀ k ∈ (kindsOf left).head?, k ∉ ks) : NotNext ks left := by
  cases left with
  | nil => exact fun t ht => by cases ht
  | cons t left => simpa [NotNext] using h

theorem append (h : NotNext ks left) (h' : NotNext ls left) : NotNext (ks ++ ls) left :=
  fun t ht hk => (List.mem_append.1 hk).elim (h t ht) (h' t ht)

theorem mono (h : NotNext ks left) (hl : ls ⊆ ks) : NotNext ls left := fun t ht hk => h t ht (hl hk)

end NotNext

/-- A token that could have been taken is not there if it was not taken. -/
theorem Parser.notNext_of_takeAny {ks : List Kind} {s s' : Cursor}
    (h : takeAny ks s = .ok (none, s')) : s'.rest = s.rest ∧ NotNext ks s.rest := by
  rcases takeAny_cases h with ⟨-, hrest, hk⟩ | ⟨t, ht, -⟩
  · exact ⟨hrest, .of_kinds hk⟩
  · cases ht

/-- A parser that gives nothing stands in front of nothing it could begin with. -/
theorem Opens.notNext {n : Nat} {r : Rule} {q : Production} {α : Type} {p : Parser (Option α)}
    {s s' : Cursor} (h : Opens n r p q) (hs : p s = .ok (none, s')) :
    NotNext (scriptTable.firstOf q) s.rest := by
  refine .of_kinds (Table.opens_eq_false.1 (Bool.eq_false_iff.2 fun ho => ?_))
  have ha := h.taken s ho
  rw [hs] at ha
  cases ha with
  | done value => cases value

/-- What a parser gives was read from the tokens it has taken. -/
theorem Opens.reads {n : Nat} {r : Rule} {q : Production} {α : Type} {p : Parser (Option α)}
    {a : α} {s s' : Cursor} (h : Opens n r p q) (hs : p s = .ok (some a, s')) :
    Reads scriptTable n r q (kindsOf s.rest) (.done (kindsOf s'.rest)) ∧ s'.rest <:+ s.rest := by
  by_cases ho : scriptTable.opens q (kindsOf s.rest) = true
  · have ha := h.taken s ho
    rw [hs] at ha
    cases ha with
    | @done _ _ w _ _ _ run read =>
      rw [run.rest, kindsOf_append]
      exact ⟨read.reads, List.suffix_append w s'.rest⟩
  · rw [Bool.not_eq_true] at ho
    obtain ⟨ks, -, hp⟩ := h.skipped s ho
    rw [hs] at hp
    cases hp

namespace Block

variable {r left left' : List Token}

/-- Reading a block from given tokens leaves the same tokens, whatever the number of levels. -/
theorem read_unique {b : Block} (h : (Node.block b).Read r left)
    (h' : (Node.block b).Read r left') : left = left' := by
  obtain ⟨levels, s, s₁, hs, rfl, rfl⟩ := h
  obtain ⟨levels', s', s₂, hs', hrest, rfl⟩ := h'
  obtain ⟨hreads, hsuffix⟩ :=
    (Parser.opens_block? (r := .stack) (Parser.follows_clause levels)).reads hs
  obtain ⟨hreads', hsuffix'⟩ :=
    (Parser.opens_block? (r := .stack) (Parser.follows_clause levels')).reads hs'
  rw [hrest] at hreads' hsuffix'
  have hlength : s₁.rest.length = s₂.rest.length := by
    simpa using congrArg List.length (Ending.done.inj (hreads.unique hreads'))
  exact (List.suffix_of_suffix_length_le hsuffix hsuffix' hlength.le).eq_of_length hlength

theorem Lined.unique {bs : List Block} (h : Lined bs r left) (h' : Lined bs r left') :
    left = left' := by
  induction h generalizing left' with
  | last only =>
    cases h' with
    | last only' => exact read_unique only only'
    | next _ _ later => cases later
  | next first _ later ih =>
    cases h' with
    | last => cases later
    | next first' _ later' =>
      cases read_unique first first'
      exact ih later'

end Block

namespace Parser

/-! ## Parser by parser -/

theorem attached_clause {levels : Nat} {c : Clause} {s s' : Cursor}
    (h : clause levels s = .ok (c, s')) (hc : c.closing = none) :
    NotNext [.endWord] s'.rest := by
  cases levels with
  | zero => cases h
  | succ levels =>
    obtain ⟨delimiter, s₁, -, h⟩ := of_bind_run h
    obtain ⟨body, s₂, -, h⟩ := of_bind_run h
    obtain ⟨closing, s₃, hclosing, h⟩ := of_bind_run h
    cases h
    cases hc
    obtain ⟨hrest, hnext⟩ := notNext_of_takeAny hclosing
    rwa [hrest]

theorem attached_elseBranch? {clause : Parser Clause} {s s' : Cursor}
    (h : elseBranch? clause s = .ok (none, s')) : NotNext [.elseWord] s'.rest := by
  obtain ⟨keyword, s₁, hkeyword, h⟩ := of_bind_run h
  cases keyword with
  | none =>
    cases h
    obtain ⟨hrest, hnext⟩ := notNext_of_takeAny hkeyword
    rwa [hrest]
  | some keyword =>
    obtain ⟨body, s₂, -, h⟩ := of_bind_run h
    cases h

theorem attached_annotations? {s s' : Cursor} (h : annotations? s = .ok (none, s')) :
    s'.rest = s.rest ∧ NotNext [.remark, .identifier] s.rest := by
  obtain ⟨remark, s₁, hremark, h⟩ := of_bind_run h
  cases remark with
  | some remark =>
    obtain ⟨id, s₂, -, h⟩ := of_bind_run h
    cases h
  | none =>
    obtain ⟨id, s₂, hid, h⟩ := of_bind_run h
    cases id with
    | some id =>
      obtain ⟨remark, s₃, -, h⟩ := of_bind_run h
      cases h
    | none =>
      cases h
      obtain ⟨hrest₁, hnext₁⟩ := notNext_of_takeAny hremark
      obtain ⟨hrest₂, hnext₂⟩ := notNext_of_takeAny hid
      rw [hrest₁] at hrest₂ hnext₂
      exact ⟨hrest₂, hnext₁.append hnext₂⟩

theorem attached_modifier? {s s' : Cursor} (h : modifier? s = .ok (none, s')) :
    s'.rest = s.rest ∧ NotNext [.doubleColon] s.rest := by
  obtain ⟨marker, s₁, hmarker, h⟩ := of_bind_run h
  cases marker with
  | some marker =>
    obtain ⟨label, s₂, -, h⟩ := of_bind_run h
    cases h
  | none =>
    cases h
    exact notNext_of_takeAny hmarker

/-- The elements of a block go on as long as they can. -/
theorem attached_elements {levels : Nat} {s s' : Cursor} {es : List Element}
    (h : many (element? (brackets levels)) s = .ok (es, s')) :
    NotNext (.label :: Family.literal.kinds ++ [.openCurly, .openRound, .openAngle]) s'.rest := by
  have hopens := opens_element? (r := .atomic) (readsBrackets levels)
  obtain ⟨s₀, hlast⟩ := (rounds_of_many hopens.lt h).exists_last
  rw [hopens.rest_eq hlast]
  refine (hopens.notNext hlast).mono fun k hk => ?_
  rw [Table.mem_firstOf_choice_cons, Table.mem_firstOf_choice_cons, firstOf_rule]
  simpa [Family.kinds, Rule.lead] using hk

theorem attached_atomic? {levels : Nat} {a : Atomic} {s s' : Cursor}
    (h : atomic? (brackets levels) s = .ok (some a, s')) (r : List Token) :
    (Node.atomic a).Attached r s'.rest := by
  obtain ⟨start, s₁, -, h⟩ := of_bind_run h
  obtain ⟨elements, s₂, helements, h⟩ := of_bind_run h
  split at h
  · cases h
  obtain ⟨modifier, s₃, hmodifier, h⟩ := of_bind_run h
  obtain ⟨annotations, s₄, hannotations, h⟩ := of_bind_run h
  obtain ⟨stop, s₅, hstop, h⟩ := of_bind_run h
  cases hstop
  cases h
  rintro (rfl : annotations = none)
  obtain ⟨hrest₄, hnext₄⟩ := attached_annotations? hannotations
  refine ⟨hrest₄ ▸ hnext₄, ?_⟩
  rintro (rfl : modifier = none)
  obtain ⟨hrest₃, hnext₃⟩ := attached_modifier? hmodifier
  rw [hrest₄, hrest₃]
  exact (attached_elements helements).append hnext₃

theorem attached_ifElse? {levels : Nat} {clause : Parser Clause} {c : Composite} {s s' : Cursor}
    (h : ifElse? (brackets levels) clause s = .ok (some c, s')) (r : List Token) :
    (Node.block (.composite c)).Attached r s'.rest := by
  obtain ⟨start, s₁, -, h⟩ := of_bind_run h
  obtain ⟨keyword, s₂, -, h⟩ := of_bind_run h
  cases keyword with
  | none => cases h
  | some keyword =>
    obtain ⟨condition, s₃, -, h⟩ := of_bind_run h
    obtain ⟨thenWord, s₄, -, h⟩ := of_bind_run h
    obtain ⟨annotations, s₅, -, h⟩ := of_bind_run h
    obtain ⟨body, s₆, -, h⟩ := of_bind_run h
    obtain ⟨otherwise, s₇, hotherwise, h⟩ := of_bind_run h
    obtain ⟨stop, s₈, hstop, h⟩ := of_bind_run h
    cases hstop
    cases h
    rintro (rfl : otherwise = none)
    exact attached_elseBranch? hotherwise

/-- A loop ends with its clause. -/
theorem attached_loop? {clause : Parser Clause} {α : Type} {word : Kind} {head : Parser α}
    {make : Token → α → Option Annotations → Clause → Span → Composite} {c : Composite}
    {s s' : Cursor} (h : loop? clause word head make s = .ok (some c, s')) {r left : List Token}
    (hmake : ∀ keyword a annotations body span,
      (Node.block (.composite (make keyword a annotations body span))).Attached r left) :
    (Node.block (.composite c)).Attached r left := by
  obtain ⟨start, s₁, -, h⟩ := of_bind_run h
  obtain ⟨_ | keyword, s₂, -, h⟩ := of_bind_run h
  · cases h
  · obtain ⟨a, s₃, -, h⟩ := of_bind_run h
    obtain ⟨annotations, s₄, -, h⟩ := of_bind_run h
    obtain ⟨body, s₅, -, h⟩ := of_bind_run h
    obtain ⟨stop, s₆, -, h⟩ := of_bind_run h
    cases h
    exact hmake keyword a annotations body ⟨start, stop⟩

theorem attached_composite? {levels : Nat} {clause : Parser Clause} {c : Composite}
    {s s' : Cursor} (h : composite? (brackets levels) clause s = .ok (some c, s'))
    (r : List Token) : (Node.block (.composite c)).Attached r s'.rest := by
  obtain ⟨_ | composite, s₁, hcomposite, h⟩ := of_bind_run h
  · obtain ⟨_ | composite, s₂, hcomposite, h⟩ := of_bind_run h
    · obtain ⟨_ | composite, s₃, hcomposite, h⟩ := of_bind_run h
      · exact attached_loop? h fun _ _ _ _ _ => trivial
      · cases h
        exact attached_loop? hcomposite fun _ _ _ _ _ => trivial
    · cases h
      exact attached_loop? hcomposite fun _ _ _ _ _ => trivial
  · cases h
    exact attached_ifElse? hcomposite r

theorem attached_block? {levels : Nat} {clause : Parser Clause} {b : Block} {s s' : Cursor}
    (h : block? (brackets levels) clause s = .ok (some b, s')) (r : List Token) :
    (Node.block b).Attached r s'.rest := by
  obtain ⟨_ | atomic, s₁, -, h⟩ := of_bind_run h
  · obtain ⟨_ | composite, s₂, hcomposite, h⟩ := of_bind_run h
    · cases h
    · cases h
      exact attached_composite? hcomposite r
  · cases h
    trivial

/-- Further blocks of a stack are read as long as a delimiter and a block follow. -/
theorem lined_nextBlocks {levels : Nat} {later : List Block} {s s' : Cursor}
    (h : Rounds (nextBlock? (brackets levels) (clause levels)) s later s') {first : Block}
    {r : List Token} (hfirst : (Node.block first).Read r s.rest) :
    Block.Lined (first :: later) r s'.rest ∧
      scriptTable.goesOn .stack (.seq [.token .delimiter, .rule .block]) (kindsOf s'.rest)
        = false := by
  induction h generalizing first r with
  | @last s s' hlast =>
    by_cases hgo : scriptTable.goesOn .stack (.seq [.token .delimiter, .rule .block])
        (kindsOf s.rest) = true
    · -- With a block in sight behind the delimiter, the round does not come back empty.
      obtain ⟨t, s₁, -, -, -, ho, hrun⟩ := nextBlock?_goesOn levels (clause levels) hgo
      have hblock := (opens_block? (r := .stack) (follows_clause levels)).taken s₁ ho
      rw [← hrun, hlast] at hblock
      cases hblock with
      | done value => cases value
    · rw [nextBlock?_run, if_neg hgo] at hlast
      cases hlast
      exact ⟨.last hfirst, Bool.eq_false_iff.2 hgo⟩
  | @next s s₁ s' b bs hnext _ ih =>
    by_cases hgo : scriptTable.goesOn .stack (.seq [.token .delimiter, .rule .block])
        (kindsOf s.rest) = true
    · obtain ⟨t, s₂, ht, hreach, -, -, hrun⟩ := nextBlock?_goesOn levels (clause levels) hgo
      rw [hrun] at hnext
      obtain ⟨hlined, hend⟩ := ih ⟨levels, Parser.ran hnext⟩
      have hrest : s.rest = t :: s₂.rest := hreach.rest
      exact ⟨.next (hrest ▸ hfirst) ht hlined, hend⟩
    · rw [nextBlock?_run, if_neg hgo] at hnext
      cases hnext

theorem attached_stackWithin? {levels : Nat} {stack : Stack} {s s' : Cursor}
    (h : stackWithin? levels s = .ok (some stack, s')) :
    stack.Attached s.rest s'.rest := by
  obtain ⟨start, s₁, hstart, h⟩ := of_bind_run h
  cases hstart
  obtain ⟨_ | first, s₂, hfirst, h⟩ := of_bind_run h
  · cases h
  obtain ⟨later, s₃, hlater, h⟩ := of_bind_run h
  obtain ⟨stop, s₄, hstop, h⟩ := of_bind_run h
  cases hstop
  obtain ⟨_, s₅, htrailing, h⟩ := of_bind_run h
  cases h
  have hrounds := rounds_of_many (nextBlock?_lt (follows_clause levels)) hlater
  obtain ⟨hlined, hend⟩ := lined_nextBlocks hrounds ⟨levels, Parser.ran hfirst⟩
  rcases trailingDelimiter_run s₃ with ⟨d, s₆, hd, hreach, hrun⟩ | ⟨hne, hrun⟩
  · cases htrailing.symm.trans hrun
    have hrest : s₃.rest = d :: s₆.rest := hreach.rest
    rw [hrest] at hlined hend
    have hblock : NotNext (scriptTable.firstOf (.rule .block)) s₆.rest := by
      refine .of_kinds (Table.opens_eq_false.1 ?_)
      simpa [Table.goesOn_stack_cons, hd] using hend
    refine ⟨.inr ⟨d, hd, hlined⟩, fun h => ?_, fun _ _ _ t ht ks hderives => ?_⟩
    · exact absurd (h.unique hlined) (List.cons_ne_self d _).symm
    · exact hblock t ht (mem_firstOf_iff.2 hderives.begins)
  · cases htrailing.symm.trans hrun
    refine ⟨.inl hlined, fun _ => .of_kinds fun k hk => ?_, fun d _ h => ?_⟩
    · exact mt List.mem_singleton.1 (hne k hk)
    · exact absurd (hlined.unique h) (List.cons_ne_self d _).symm

end Parser

/-- A node has all the optional parts that it could have had. -/
theorem Node.Read.attached : ∀ {n : Node} {r left : List Token}, n.Read r left → n.Attached r left
  | .atomic _, r, _, ⟨_, _, _, h, _, rfl⟩ => Parser.attached_atomic? h r
  | .block _, r, _, ⟨_, _, _, h, _, rfl⟩ => Parser.attached_block? h r
  | .clause _, _, _, ⟨_, _, _, h, _, rfl⟩ => Parser.attached_clause h
  | .stack _, _, _, ⟨_, _, _, h, rfl, rfl⟩ => Parser.attached_stackWithin? h
  | .token _, _, _, _ | .modifier _, _, _, _ | .brackets _ _, _, _, _ | .argument _, _, _, _
  | .condition _, _, _, _ | .comments _, _, _, _ | .code _, _, _, _ => trivial

def Node.stack? : Node → Option Stack
  | .stack s => some s
  | _ => none

theorem Node.stack?_eq_some {n : Node} {s : Stack} : n.stack? = some s ↔ n = .stack s := by
  cases n <;> simp [stack?]

/-- Every node of a script was read from some of its tokens, and what it leaves to the tokens after
it is nothing it could have had: no `end` after a clause without one, no `else` after an `if`
without one, nothing that goes on with an atomic block, and no delimiter after a stack but the one
in front of something other than a block. -/
theorem optional_parts_innermost {ts : List Token} {id : Nat} {code : Code}
    (h : parseTokens ts id = .ok code) (p : List Nat) (n : Node)
    (hn : (Node.code code).at? p = some n) :
    (∃ w left, (Node.code code).ReadAt ts [] p n (w ++ left) left ∧ w ++ left <:+ ts) ∧
    ∀ r left, (Node.code code).ReadAt ts [] p n r left → n.Attached r left := by
  refine ⟨?_, fun r left hread => hread.read.attached⟩
  obtain ⟨r, left, hread⟩ := (read_of_parseTokens h).exists_readAt hn
  obtain ⟨w, rfl⟩ := hread.read.suffix
  exact ⟨w, left, hread, hread.suffix⟩

/-- An `if` in an `if`, and one `else` with a delimiter in front of it: the outer `if` has three
parts, the inner one has five, and the body of the inner one stops in front of the `else`. -/
theorem optional_parts_innermost_else :
    let ts : List Token := [.ifWord, .openAngle, .closeAngle, .ifWord, .openAngle, .closeAngle,
      .label, .delimiter, .elseWord, .label].map fun k => .ofText k .origin ['x']
    ∃ code s, parseTokens ts 0 = .ok code ∧
      ((Node.code code).at? [0, 0]).map (·.parts.length) = some 3 ∧
      ((Node.code code).at? [0, 0, 2, 0, 0]).map (·.parts.length) = some 5 ∧
      (Node.code code).at? [0, 0, 2, 0, 0, 2, 0] = some (.stack s) ∧
      ∃ w left, (Node.code code).ReadAt ts [] [0, 0, 2, 0, 0, 2, 0] (.stack s) (w ++ left) left ∧
        s.Attached (w ++ left) left := by
  intro ts
  have h : (parseTokens ts 0).toOption.map (fun c =>
      (((Node.code c).at? [0, 0]).map (·.parts.length),
        ((Node.code c).at? [0, 0, 2, 0, 0]).map (·.parts.length),
        (((Node.code c).at? [0, 0, 2, 0, 0, 2, 0]).bind Node.stack?).isSome)) =
      some (some 3, some 5, true) := by decide +kernel
  cases hcode : parseTokens ts 0 with
  | error e => rw [hcode] at h; cases h
  | ok code =>
    rw [hcode] at h
    obtain ⟨houter, hpair⟩ := Prod.mk.inj (Option.some.inj h)
    obtain ⟨hinner, hstack⟩ := Prod.mk.inj hpair
    obtain ⟨s, hs⟩ := Option.isSome_iff_exists.1 hstack
    obtain ⟨n, hn, hns⟩ := Option.bind_eq_some_iff.1 hs
    obtain rfl := Node.stack?_eq_some.1 hns
    obtain ⟨⟨w, left, hread, -⟩, hall⟩ := optional_parts_innermost hcode _ _ hn
    exact ⟨code, s, rfl, houter, hinner, hn, w, left, hread, hall _ _ hread⟩

end BlockNotation
