import BlockNotation.Proofs.Script.Faithful
import BlockNotation.Proofs.Script.Outline
import BlockNotation.Proofs.Script.Parallel

/-!
# Parsing looks at kinds only

Two token lists with the same kinds are read alike, parser by parser: what the one stores, stores
the other at the same place, and where the one fails, fails the other for the same cause. Texts,
spans and positions end up in the tree and in messages, and decide nothing.

So the trees of two such lists are the same outline filled with the tokens of either
(`parseTokens_kinds`): that of the list of slots with these kinds.
-/

namespace BlockNotation

/-- Cursors whose tokens have the same kinds, and the same images. -/
def kindred (φ ψ : Token → Token) : Likeness where
  cursor s s' := List.Forall₂ (fun t u => t.kind = u.kind ∧ φ t = ψ u) s.rest s'.rest ∧
    s.index = s'.index ∧ s.tried = s'.tried
  failure f f' := f.cause = f'.cause ∧ f.index = f'.index
  ahead_eq h := by rw [Cursor.ahead_eq, Cursor.ahead_eq, h.1.length_eq]
  fails _ h := ⟨rfl, h.2.1⟩

variable {α β β' : Type} {φ ψ : Token → Token} {n : Nat} {s s' : Cursor}

theorem kindsOf_eq_of_kindred (h : (kindred φ ψ).cursor s s') :
    kindsOf s.rest = kindsOf s'.rest :=
  map_eq_of_forall₂ (h.1.imp fun _ _ ht => ht.1)

theorem kindred_note (h : (kindred φ ψ).cursor s s') (ks : List Kind) :
    (kindred φ ψ).cursor (s.note ks) (s'.note ks) :=
  ⟨h.1, h.2.1, congrArg (· ++ ks) h.2.2⟩

/-- From lists with the same kinds a parser comes to values with the same image, or fails for the
same cause at the same index. -/
def ReadsKinds (φ ψ : Token → Token) (g : (Token → Token) → α → β) (p : Parser α) : Prop :=
  Parallel (kindred φ ψ) (fun a b => g φ a = g ψ b) p p

/-- The same of a parser of something that may be absent. -/
def OpensKinds (φ ψ : Token → Token) (g : (Token → Token) → α → β) (p : Parser (Option α)) : Prop :=
  Parallel (kindred φ ψ) (Option.Rel fun a b => g φ a = g ψ b) p p

namespace Parser

/-- Where a construct starts is not compared. -/
theorem parallel_start {R : β → β' → Prop} {g : Nat → Parser β} {k : Nat → Parser β'}
    (h : ∀ a b, Parallel (kindred φ ψ) R (g a) (k b)) :
    Parallel (kindred φ ψ) R (start >>= g) (start >>= k) :=
  fun s s' hs => h s.start s'.start s s' hs

theorem parallel_lastEnd {R : β → β' → Prop} {g : Nat → Parser β} {k : Nat → Parser β'}
    (h : ∀ a b, Parallel (kindred φ ψ) R (g a) (k b)) :
    Parallel (kindred φ ψ) R (lastEnd >>= g) (lastEnd >>= k) :=
  fun s s' hs => h s.lastEnd s'.lastEnd s s' hs

/-! ## Single tokens -/

theorem parallel_takeAny (ks : List Kind) :
    Parallel (kindred φ ψ) (Option.Rel fun t u => φ t = ψ u) (takeAny ks) (takeAny ks) := by
  intro s s' hs
  by_cases hk : ∀ k ∈ (kindsOf s.rest).head?, k ∉ ks
  · rw [takeAny_of_not_mem hk, takeAny_of_not_mem (kindsOf_eq_of_kindred hs ▸ hk)]
    exact .ok .none (kindred_note hs ks)
  · obtain ⟨hrest, hindex, -⟩ := hs
    generalize hts : s.rest = ts, hus : s'.rest = us at hrest
    cases hrest with
    | nil => simp [hts] at hk
    | @cons t u ts us htu hlater =>
      have ht : t.kind ∈ ks := by simpa [hts] using hk
      obtain ⟨s₁, hrun, hreach, -⟩ := takeAny_of_mem hts ht
      obtain ⟨s₁', hrun', hreach', -⟩ := takeAny_of_mem hus (htu.1 ▸ ht)
      obtain rfl : ts = s₁.rest := (List.cons.inj (hts.symm.trans hreach.rest)).2
      obtain rfl : us = s₁'.rest := (List.cons.inj (hus.symm.trans hreach'.rest)).2
      rw [hrun, hrun']
      refine .ok (.some htu.2) ⟨hlater, ?_, ?_⟩
      · rw [hreach.index, hreach'.index, hindex, List.length_singleton, List.length_singleton]
      · rw [hreach.tried, hreach'.tried, lookedFor_cons, lookedFor_cons]

theorem parallel_take? (k : Kind) :
    Parallel (kindred φ ψ) (Option.Rel fun t u => φ t = ψ u) (take? k) (take? k) :=
  parallel_takeAny [k]

theorem parallel_take (rule : Rule) (k : Kind) :
    Parallel (kindred φ ψ) (fun t u => φ t = ψ u) (take rule k) (take rule k) :=
  (parallel_take? k).cases (fun _ _ h => .pure h) .fail

theorem parallel_sees (k : Kind) : Parallel (kindred φ ψ) Eq (sees k) (sees k) := by
  intro s s' hs
  refine .ok ?_ (kindred_note hs [k])
  rw [decide_eq_decide, ← List.head?_map, ← List.head?_map]
  exact iff_of_eq (congrArg (·.head? = some k) (kindsOf_eq_of_kindred hs))

/-! ## Atomic blocks -/

theorem opensKinds_modifier? : OpensKinds φ ψ Modifier.recast modifier? := by
  unfold modifier?
  refine (parallel_take? .doubleColon).cases (fun marker marker' hmarker => ?_) (.pure .none)
  refine (parallel_take _ _).bind fun label label' hlabel => .pure (.some ?_)
  exact congrArg₂ Modifier.mk hmarker hlabel

theorem opensKinds_annotations? : OpensKinds φ ψ Annotations.recast annotations? := by
  unfold annotations?
  refine (parallel_take? .remark).cases (fun remark remark' hremark => ?_) ?_
  · refine (parallel_take? .identifier).bind fun id id' hid => .pure (.some ?_)
    exact congrArg₂ Annotations.remark hremark (map_eq_of_rel hid)
  · refine (parallel_take? .identifier).cases (fun id id' hid => ?_) (.pure .none)
    refine (parallel_take? .remark).bind fun remark remark' hremark => .pure (.some ?_)
    exact congrArg₂ Annotations.identified hid (map_eq_of_rel hremark)

section Atomic

variable {brackets : Shape → Parser Brackets}
  (hb : ∀ shape, ReadsKinds φ ψ Brackets.mapTokens (brackets shape))

include hb

theorem opensKinds_brackets? (shape : Shape) :
    OpensKinds φ ψ Brackets.mapTokens (brackets? brackets shape) := by
  unfold brackets?
  refine (parallel_sees shape.opening).bind fun seen seen' h => ?_
  subst h
  cases seen with
  | false => exact .pure .none
  | true => exact (hb shape).bind fun b b' hbb => .pure (.some hbb)

theorem opensKinds_value? : OpensKinds φ ψ Value.mapTokens (value? brackets) := by
  unfold value?
  refine (parallel_takeAny _).cases (fun token token' ht => .pure (.some ?_)) ?_
  · exact congrArg Value.literal ht
  · refine (opensKinds_brackets? hb .round).cases (fun b b' hbb => .pure (.some ?_)) ?_
    · exact congrArg (Value.bracketed .round) hbb
    · exact (opensKinds_brackets? hb .angle).map fun b b' hbb =>
        congrArg (Value.bracketed .angle) hbb

theorem opensKinds_argument? : OpensKinds φ ψ Argument.mapTokens (argument? brackets) := by
  unfold argument?
  refine (parallel_take? .openCurly).cases (fun opening opening' hopening => ?_) ?_
  · refine (opensKinds_value? hb).bind fun value value' hvalue => ?_
    refine (parallel_take? .identifier).bind fun id id' hid => ?_
    refine (parallel_take _ _).bind fun closing closing' hclosing => .pure (.some ?_)
    rw [Argument.mapTokens_curly, Argument.mapTokens_curly, map_eq_of_rel hvalue]
    congr 1
    · exact map_eq_of_rel hid
  · exact (opensKinds_value? hb).map fun value value' hvalue => congrArg Argument.bare hvalue

theorem readsKinds_argument : ReadsKinds φ ψ Argument.mapTokens (argument brackets) :=
  (opensKinds_argument? hb).cases (fun _ _ ha => .pure ha) .fail

theorem readsKinds_condition : ReadsKinds φ ψ Condition.mapTokens (condition brackets) := by
  have hopens : OpensKinds φ ψ Condition.mapTokens (condition? brackets) := by
    unfold condition?
    refine (parallel_take? .openCurly).cases (fun opening opening' hopening => ?_) ?_
    · refine (opensKinds_brackets? hb .angle).bind fun predicate predicate' hpredicate => ?_
      refine (parallel_take? .identifier).bind fun id id' hid => ?_
      refine (parallel_take _ _).bind fun closing closing' hclosing => .pure (.some ?_)
      rw [Condition.mapTokens, Condition.mapTokens, map_eq_of_rel hpredicate, map_eq_of_rel hid]
      exact congrArg₂ (Condition.curly · _ _ ·) hopening hclosing
    · exact (opensKinds_brackets? hb .angle).map fun b b' hbb => congrArg Condition.bare hbb
  exact hopens.cases (fun _ _ hc => .pure hc) .fail

theorem opensKinds_element? : OpensKinds φ ψ Element.mapTokens (element? brackets) := by
  unfold element?
  refine (parallel_take? .label).cases (fun token token' ht => .pure (.some ?_)) ?_
  · exact congrArg Element.label ht
  · exact (opensKinds_argument? hb).map fun a a' ha => congrArg Element.argument ha

theorem opensKinds_atomic? : OpensKinds φ ψ Atomic.mapTokens (atomic? brackets) := by
  unfold atomic?
  refine parallel_start fun start start' => ?_
  refine (opensKinds_element? hb).many.bind fun elements elements' he => ?_
  have helements := map_eq_of_forall₂ he
  cases he with
  | nil => exact .pure .none
  | cons _ _ =>
    refine opensKinds_modifier?.bind fun modifier modifier' hmodifier => ?_
    refine opensKinds_annotations?.bind fun annotations annotations' hannotations => ?_
    refine parallel_lastEnd fun stop stop' => .pure (.some ?_)
    rw [Atomic.mapTokens, Atomic.mapTokens, Element.mapTokensOfAll_eq_map,
      Element.mapTokensOfAll_eq_map, helements, map_eq_of_rel hmodifier,
      map_eq_of_rel hannotations]

end Atomic

theorem readsKinds_brackets : ∀ (n : Nat) (shape : Shape),
    ReadsKinds φ ψ Brackets.mapTokens (brackets n shape)
  | 0, _ => .fail
  | n + 1, shape => by
    refine (parallel_take _ _).bind fun opening opening' hopening => ?_
    refine (opensKinds_atomic? (readsKinds_brackets n)).bind fun atomic atomic' hatomic => ?_
    refine (parallel_take _ _).bind fun closing closing' hclosing => .pure ?_
    rw [Brackets.mapTokens_mk, Brackets.mapTokens_mk, map_eq_of_rel hatomic]
    exact congrArg₂ (Brackets.mk · _ ·) hopening hclosing

/-! ## Stacks -/

section Stack

variable {clause : Parser Clause} (hc : ReadsKinds φ ψ Clause.mapTokens clause)

include hc

theorem opensKinds_elseBranch? : OpensKinds φ ψ ElseBranch.mapTokens (elseBranch? clause) := by
  unfold elseBranch?
  refine (parallel_take? .elseWord).cases (fun keyword keyword' hkeyword => ?_) (.pure .none)
  refine hc.bind fun clause clause' hclause => .pure (.some ?_)
  exact congrArg₂ ElseBranch.mk hkeyword hclause

theorem opensKinds_ifElse? : OpensKinds φ ψ Composite.mapTokens (ifElse? (brackets n) clause) := by
  unfold ifElse?
  refine parallel_start fun start start' => ?_
  refine (parallel_take? .ifWord).cases (fun keyword keyword' hkeyword => ?_) (.pure .none)
  refine (readsKinds_condition (readsKinds_brackets n)).bind fun cond cond' hcond => ?_
  refine (parallel_take? .thenWord).bind fun thenWord thenWord' hthen => ?_
  refine opensKinds_annotations?.bind fun annotations annotations' hannotations => ?_
  refine hc.bind fun body body' hbody => ?_
  refine (opensKinds_elseBranch? hc).bind fun otherwise otherwise' hotherwise => ?_
  refine parallel_lastEnd fun stop stop' => .pure (.some ?_)
  rw [Composite.mapTokens_ifElse, Composite.mapTokens_ifElse, hcond, map_eq_of_rel hannotations,
    hbody, map_eq_of_rel hotherwise]
  exact congrArg₂ (Composite.ifElse · _ · _ _ _ _) hkeyword (map_eq_of_rel hthen)

theorem opensKinds_loop? {α β : Type} {word : Kind} {head : Parser α}
    {make : Token → α → Option Annotations → Clause → Span → Composite}
    {g : (Token → Token) → α → β} (made : Token → β → Option Annotations → Clause → Composite)
    (hhead : ReadsKinds φ ψ g head)
    (hmake : ∀ f keyword a annotations body span,
      (make keyword a annotations body span).mapTokens f =
        made (f keyword) (g f a) (annotations.map (·.recast f)) (body.mapTokens f)) :
    OpensKinds φ ψ Composite.mapTokens (loop? clause word head make) := by
  unfold loop?
  refine parallel_start fun start start' => ?_
  refine (parallel_take? word).cases (fun keyword keyword' hkeyword => ?_) (.pure .none)
  refine hhead.bind fun a a' ha => ?_
  refine opensKinds_annotations?.bind fun annotations annotations' hannotations => ?_
  refine hc.bind fun body body' hbody => ?_
  refine parallel_lastEnd fun stop stop' => .pure (.some ?_)
  rw [hmake, hmake, hkeyword, ha, map_eq_of_rel hannotations, hbody]

theorem opensKinds_forever? : OpensKinds φ ψ Composite.mapTokens (forever? clause) := by
  have hhead : ReadsKinds φ ψ (fun _ a => a) (pure () : Parser Unit) := .pure rfl
  exact opensKinds_loop? hc (fun keyword _ annotations body =>
    .forever keyword annotations body .blank) hhead fun _ _ _ _ _ _ => rfl

theorem opensKinds_repeatTimes? :
    OpensKinds φ ψ Composite.mapTokens (repeatTimes? (brackets n) clause) :=
  opensKinds_loop? hc (.repeatTimes · · · · .blank)
    (readsKinds_argument (readsKinds_brackets n)) fun _ _ _ _ _ _ => rfl

theorem opensKinds_repeatUntil? :
    OpensKinds φ ψ Composite.mapTokens (repeatUntil? (brackets n) clause) :=
  opensKinds_loop? hc (.repeatUntil · · · · .blank)
    (readsKinds_condition (readsKinds_brackets n)) fun _ _ _ _ _ _ => rfl

theorem opensKinds_composite? :
    OpensKinds φ ψ Composite.mapTokens (composite? (brackets n) clause) := by
  unfold composite?
  refine (opensKinds_ifElse? hc).cases (fun _ _ h => .pure (.some h)) ?_
  refine (opensKinds_forever? hc).cases (fun _ _ h => .pure (.some h)) ?_
  refine (opensKinds_repeatTimes? hc).cases (fun _ _ h => .pure (.some h)) ?_
  exact opensKinds_repeatUntil? hc

theorem opensKinds_block? : OpensKinds φ ψ Block.mapTokens (block? (brackets n) clause) := by
  unfold block?
  refine (opensKinds_atomic? (readsKinds_brackets n)).cases (fun a a' ha => .pure (.some ?_)) ?_
  · exact congrArg Block.atomic ha
  · exact (opensKinds_composite? hc).map fun c c' hcc => congrArg Block.composite hcc

theorem opensKinds_nextBlock? :
    OpensKinds φ ψ Block.mapTokens (nextBlock? (brackets n) clause) := by
  have hsees : Parallel (kindred φ ψ) Eq seesNextBlock seesNextBlock := by
    intro s s' hs
    rw [seesNextBlock_run, seesNextBlock_run, kindsOf_eq_of_kindred hs]
    exact .ok rfl (kindred_note hs _)
  unfold nextBlock?
  refine hsees.bind fun seen seen' h => ?_
  subst h
  cases seen with
  | false => exact .pure .none
  | true => exact (parallel_take? .delimiter).bind fun _ _ _ => opensKinds_block? hc

omit hc in
theorem parallel_trailingDelimiter :
    Parallel (kindred φ ψ) Eq trailingDelimiter trailingDelimiter := by
  refine (parallel_take? .delimiter).cases (fun _ _ _ => ?_) (.pure rfl)
  exact fun s s' hs => .ok rfl (kindred_note hs _)

theorem opensKinds_stack? : OpensKinds φ ψ Stack.mapTokens (stack? (brackets n) clause) := by
  unfold stack?
  refine parallel_start fun start start' => ?_
  refine (opensKinds_block? hc).cases (fun first first' hfirst => ?_) (.pure .none)
  refine (opensKinds_nextBlock? hc).many.bind fun later later' hlater => ?_
  refine parallel_lastEnd fun stop stop' => ?_
  refine parallel_trailingDelimiter.bind fun _ _ _ => .pure (.some ?_)
  rw [Stack.mapTokens, Stack.mapTokens, Block.mapTokensOfAll_eq_map, Block.mapTokensOfAll_eq_map,
    map_eq_of_forall₂ (.cons hfirst hlater)]

end Stack

theorem readsKinds_clause : ∀ n, ReadsKinds φ ψ Clause.mapTokens (clause n)
  | 0 => .fail
  | n + 1 => by
    refine (parallel_take? .delimiter).bind fun delimiter delimiter' hdelimiter => ?_
    refine (opensKinds_stack? (readsKinds_clause n)).bind fun body body' hbody => ?_
    refine (parallel_take? .endWord).bind fun closing closing' hclosing => .pure ?_
    rw [Clause.mapTokens_mk, Clause.mapTokens_mk, map_eq_of_rel hbody]
    exact congrArg₂ (Clause.mk · _ ·) (map_eq_of_rel hdelimiter) (map_eq_of_rel hclosing)

theorem opensKinds_stackWithin? : OpensKinds φ ψ Stack.mapTokens (stackWithin? n) :=
  opensKinds_stack? (readsKinds_clause n)

/-! ## Scripts -/

theorem opensKinds_comments? : OpensKinds φ ψ Comments.mapTokens comments? := by
  have hnext : Parallel (kindred φ ψ) (Option.Rel fun t u => φ t = ψ u) nextRemark? nextRemark? :=
    (parallel_take? .delimiter).many.bind fun _ _ _ => parallel_take? .remark
  unfold comments?
  refine (parallel_take? .remark).cases (fun first first' hfirst => ?_) (.pure .none)
  refine hnext.many.bind fun later later' hlater => .pure (.some ?_)
  exact congrArg (Comments.mk · .blank) (map_eq_of_forall₂ (.cons hfirst hlater))

theorem opensKinds_separator? : OpensKinds φ ψ Segment.mapTokensOfAll separator? := by
  unfold separator?
  refine (parallel_take? .delimiter).cases (fun _ _ _ => .pure (.some rfl)) ?_
  exact opensKinds_comments?.map fun c c' hcc => congrArg (fun c => [Segment.comments c]) hcc

theorem opensKinds_nextSegments? :
    OpensKinds φ ψ Segment.mapTokensOfAll (nextSegments? (stackWithin? n)) := by
  unfold nextSegments?
  refine opensKinds_separator?.many.bind fun found found' hfound => ?_
  have hflatten := map_eq_of_forall₂ hfound
  cases hfound with
  | nil => exact .pure .none
  | cons _ _ =>
    refine opensKinds_stackWithin?.bind fun stack stack' hstack => ?_
    refine .pure (.some ?_)
    rw [Segment.mapTokensOfAll_append, Segment.mapTokensOfAll_append,
      Segment.mapTokensOfAll_flatten, Segment.mapTokensOfAll_flatten, hflatten,
      Segment.mapTokensOfAll_stack, Segment.mapTokensOfAll_stack, map_eq_of_rel hstack]

theorem readsKinds_segments :
    ReadsKinds φ ψ Segment.mapTokensOfAll (segments (stackWithin? n)) := by
  unfold segments
  refine opensKinds_stackWithin?.cases (fun first first' hfirst => ?_) (.pure rfl)
  refine opensKinds_nextSegments?.many.bind fun later later' hlater => .pure ?_
  refine congrArg₂ List.cons (congrArg Segment.stack hfirst) ?_
  have hflatten := congrArg List.flatten (map_eq_of_forall₂ hlater)
  rwa [← Segment.mapTokensOfAll_flatten, ← Segment.mapTokensOfAll_flatten] at hflatten

theorem readsKinds_code (id : Nat) : ReadsKinds φ ψ Code.mapTokens (code (stackWithin? n) id) := by
  unfold code
  refine parallel_start fun start start' => ?_
  refine (parallel_take? .delimiter).many.bind fun _ _ _ => ?_
  refine opensKinds_comments?.bind fun comments comments' hcomments => ?_
  refine readsKinds_segments.bind fun segments segments' hsegments => ?_
  refine parallel_lastEnd fun stop stop' => .pure ?_
  rw [Code.mapTokens, Code.mapTokens, map_eq_of_rel hcomments, hsegments]

theorem parallel_finish : Parallel (kindred φ ψ) Eq finish finish := by
  intro s s' hs
  have hnil : s.rest = [] ↔ s'.rest = [] := by
    rw [← List.length_eq_zero_iff, hs.1.length_eq, List.length_eq_zero_iff]
  rw [finish_run, finish_run, hs.2.2]
  by_cases h : s.rest = []
  · rw [if_pos h, if_pos (hnil.1 h)]
    exact .ok rfl hs
  · rw [if_neg h, if_neg (mt hnil.2 h)]
    exact Parallel.fail s s' hs

theorem readsKinds_script (id : Nat) : ReadsKinds φ ψ Code.mapTokens (script n id) :=
  (readsKinds_code id).bind fun _ _ hc => parallel_finish.bind fun _ _ _ => .pure hc

end Parser

/-! ## Outlines -/

theorem index_slots (ks : List Kind) : (slots ks).map Token.index = List.range ks.length :=
  List.ext_getElem (by simp [slots]) (by simp [slots, Token.slot, Token.index])

theorem Code.isOutline_of_sublist {outline : Code} {ks : List Kind}
    (h : outline.tokens.Sublist (slots ks)) : outline.IsOutline ks.length := by
  have hrange := h.map Token.index
  rw [index_slots] at hrange
  constructor
  · intro slot hslot
    exact List.mem_range.1 (hrange.subset (List.mem_map_of_mem hslot))
  · exact List.pairwise_map.1 (List.pairwise_lt_range.sublist hrange)

/-- A slot stands for the token at its index. -/
theorem forall₂_slots (ts : List Token) : List.Forall₂ (fun slot t =>
    slot.kind = t.kind ∧ ts.getD slot.index default = id t) (slots (kindsOf ts)) ts := by
  refine List.forall₂_iff_get.2 ⟨by simp [slots], fun i hi ht => ?_⟩
  simp [slots, kindsOf, Token.slot, Token.index, ht]

/-- A token list has the outcome of the slots of its kinds: the tree of the slots filled with its
tokens, or a failure for the same cause at the same index. -/
theorem script_slots (n sourceId : Nat) (ts : List Token) :
    Outcomes (kindred (fun slot => ts.getD slot.index default) id)
      (fun outline c => c.Fills outline ts)
      (Parser.script n sourceId (.ofTokens (slots (kindsOf ts))))
      (Parser.script n sourceId (.ofTokens ts)) := by
  have hcursor : (kindred (fun slot => ts.getD slot.index default) id).cursor
      (.ofTokens (slots (kindsOf ts))) (.ofTokens ts) := ⟨forall₂_slots ts, rfl, rfl⟩
  exact (Parser.readsKinds_script sourceId _ _ hcursor).imp fun outline c h => h.symm

theorem isOutline_of_script {n id : Nat} {ks : List Kind} {outline : Code} {s : Cursor}
    (h : Parser.script n id (.ofTokens (slots ks)) = .ok (outline, s)) :
    outline.IsOutline ks.length := by
  have hparse : parseTokensWithin n (slots ks) id = .ok outline := by rw [parseTokensWithin, h]
  exact Code.isOutline_of_sublist (spells_of_parseTokensWithin hparse).1.sublist

theorem found_of_script {n id : Nat} {ts : List Token} {f : Failure}
    (h : Parser.script n id (.ofTokens ts) = .error f) : f.found = ts[f.index]? := by
  have hj := script_judged n ts id
  rw [h] at hj
  cases hj with
  | leftover tokens _ _ index found | stuck tokens _ index found | tooDeep tokens _ index found =>
    rw [found, index, tokens, List.getElem?_append_right (Nat.le_refl _), Nat.sub_self,
      List.head?_eq_getElem?]

/-- The error of a token list is that of a failure of the parser at an index. -/
structure FailsAt (ts : List Token) (id : Nat) (f : Failure) : Prop where
  error : parseTokens ts id = .error (f.toError maxNesting)
  run : Parser.script maxNesting id (.ofTokens ts) = .error f
  found : f.found = ts[f.index]?

theorem failsAt_of_script {ts : List Token} {id : Nat} {f : Failure}
    (h : Parser.script maxNesting id (.ofTokens ts) = .error f) : FailsAt ts id f where
  error := by rw [parseTokens, parseTokensWithin, h]
  run := h
  found := found_of_script h

theorem parseTokens_of_script {ts : List Token} {id : Nat} {c : Code} {s : Cursor}
    (h : Parser.script maxNesting id (.ofTokens ts) = .ok (c, s)) : parseTokens ts id = .ok c := by
  rw [parseTokens, parseTokensWithin, h]

/-- Two token lists with the same kinds have the same outcome. Either both are scripts, and their
trees are the same outline, filled with the tokens of the one and of the other. Or both fail for the
same cause, which is the rule and what was expected there, at the same index. -/
theorem parseTokens_kinds {ts us : List Token} (h : kindsOf ts = kindsOf us) (id : Nat) :
    (∃ outline c c' : Code, outline.IsOutline ts.length ∧
      parseTokens ts id = .ok c ∧ c.Fills outline ts ∧
      parseTokens us id = .ok c' ∧ c'.Fills outline us) ∨
    ∃ f f' : Failure, FailsAt ts id f ∧ FailsAt us id f' ∧ f.cause = f'.cause ∧
      f.index = f'.index := by
  -- both runs are compared with that of the slots, which is the same for both
  have hts := script_slots maxNesting id ts
  have hus := script_slots maxNesting id us
  rw [← h] at hus
  generalize hslots : Parser.script maxNesting id (.ofTokens (slots (kindsOf ts))) = res at hts hus
  generalize hrun : Parser.script maxNesting id (.ofTokens ts) = res₁ at hts
  generalize hrun' : Parser.script maxNesting id (.ofTokens us) = res₂ at hus
  cases hts with
  | @ok outline c _ _ fills _ =>
    cases hus with
    | @ok _ c' _ _ fills' _ =>
      have houtline := isOutline_of_script hslots
      rw [length_kindsOf] at houtline
      exact .inl ⟨outline, c, c', houtline, parseTokens_of_script hrun, fills,
        parseTokens_of_script hrun', fills'⟩
  | @error _ f failure =>
    cases hus with
    | @error _ f' failure' =>
      exact .inr ⟨f, f', failsAt_of_script hrun, failsAt_of_script hrun',
        failure.1.symm.trans failure'.1, failure.2.symm.trans failure'.2⟩

/-- The same loop in other words and with other separators, and another block behind it. -/
theorem parseTokens_kinds_forever :
    let ts := (tokenize "forever\n  say (hi) |one|\nend\nmove").toOption.getD []
    let us := (tokenize "FOREVER;print (good bye)|two|;\nEND; turn left").toOption.getD []
    ∃ outline c c' : Code, outline.IsOutline 11 ∧ parseTokens ts 0 = .ok c ∧ c.Fills outline ts ∧
      parseTokens us 0 = .ok c' ∧ c'.Fills outline us := by
  intro ts us
  have hkinds : kindsOf ts = kindsOf us := by decide +kernel
  have hlength : ts.length = 11 := by decide +kernel
  have hok : (parseTokens ts 0).isOk = true := by decide +kernel
  obtain ⟨outline, c, c', houtline, hfills⟩ | ⟨f, f', hf, -⟩ := parseTokens_kinds hkinds 0
  · rw [hlength] at houtline
    exact ⟨outline, c, c', houtline, hfills⟩
  · rw [hf.error] at hok
    cases hok

end BlockNotation
