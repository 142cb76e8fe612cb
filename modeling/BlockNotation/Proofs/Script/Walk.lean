import BlockNotation.Proofs.Script.Places
import BlockNotation.Proofs.Script.Ranges

/-!
# The walk over a script is complete and in source order

`Code.atomicBlocks` is put together from the walks over each kind of node. All of them do the same:
list the node itself if it is an atomic block, then walk over its parts from first to last
(`Node.atomics_eq`). So the blocks listed are those at the places of the tree that hold one, each
place once, in the order of the places (`Node.exists_listing`): a place comes before the places
below it, and these before the places to the right of it.

An atomic block begins with its first token, and no two of them with the same one, as a block inside
another stands in brackets (`Atomic.headed`). So the starts of the blocks listed are among those of
the tokens, in the same order (`Headed.spreads`).
-/

namespace BlockNotation

namespace Node

/-- The atomic blocks that the walk lists in a node. -/
def atomics : Node → List Atomic
  | .token _ | .modifier _ | .comments _ => []
  | .brackets _ b => b.atomics
  | .argument a => a.atomics
  | .condition c => c.atomics
  | .atomic a => a.atomics
  | .block b => b.atomics
  | .clause c => c.atomics
  | .stack s => s.atomics
  | .code c => c.atomicBlocks

def atomic? : Node → Option Atomic
  | .atomic a => some a
  | _ => none

theorem atomic?_eq_some {n : Node} {a : Atomic} : n.atomic? = some a ↔ n = .atomic a := by
  cases n <;> simp [atomic?]

/-! ## The walk, node by node -/

@[simp] theorem flatMap_atomics_tokens (ts : List Token) :
    (ts.map Node.token).flatMap atomics = [] := by
  simp [List.flatMap_map, atomics]

@[simp] theorem flatMap_atomics_annotations (a : Option Annotations) :
    (annotationParts a).flatMap atomics = [] :=
  flatMap_atomics_tokens _

theorem atomics_ofValue (v : Value) : (ofValue v).atomics = v.atomics := by
  cases v <;> simp [ofValue, atomics, Value.atomics]

theorem flatMap_atomics_elements (es : List Element) :
    (es.map ofElement).flatMap atomics = Element.atomicsOfAll es := by
  induction es with
  | nil => simp [Element.atomicsOfAll]
  | cons e es ih => cases e <;> simp [Element.atomicsOfAll, ih, ofElement, atomics]

theorem flatMap_atomics_blocks : ∀ bs : List Block,
    (bs.map Node.block).flatMap atomics = Block.atomicsOfAll bs
  | [] => by simp [Block.atomicsOfAll]
  | b :: bs => by simp [Block.atomicsOfAll, flatMap_atomics_blocks bs, atomics]

theorem flatMap_atomics_composite (c : Composite) :
    (compositeParts c).flatMap atomics = c.atomics := by
  cases c with
  | ifElse _ _ _ _ _ otherwise _ =>
    rcases otherwise with _ | ⟨_, _⟩ <;>
      simp [compositeParts, elseParts, atomics, Composite.atomics, ElseBranch.atomics]
  | forever | repeatTimes | repeatUntil => simp [compositeParts, atomics, Composite.atomics]

theorem flatMap_atomics_segments : ∀ ss : List Segment, (ss.map ofSegment).flatMap atomics =
    (ss.filterMap Segment.stack?).flatMap Stack.atomics
  | [] => rfl
  | .stack _ :: ss => by
    simp [flatMap_atomics_segments ss, ofSegment, atomics, Segment.stack?]
  | .comments _ :: ss => by
    simp [flatMap_atomics_segments ss, ofSegment, atomics, List.filterMap_cons, Segment.stack?]

/-- The walk lists a node before what is inside it, and its parts in their order. -/
theorem atomics_eq : ∀ n : Node, n.atomics = n.atomic?.toList ++ n.parts.flatMap atomics
  | .token _ => rfl
  | .modifier _ => rfl
  | .brackets _ ⟨_, none, _⟩ => by simp [atomics, atomic?, parts, Brackets.atomics]
  | .brackets _ ⟨_, some _, _⟩ => by simp [atomics, atomic?, parts, Brackets.atomics]
  | .argument (.curly _ none _ _) => by simp [atomics, atomic?, parts, Argument.atomics]
  | .argument (.curly _ (some v) _ _) => by
    simp [atomics, atomic?, parts, Argument.atomics, ↓atomics_ofValue]
  | .argument (.bare v) => by simp [atomics, atomic?, parts, Argument.atomics, ↓atomics_ofValue]
  | .condition (.curly _ none _ _) => by
    simp [atomics, atomic?, parts, Condition.atomics, Condition.predicate?]
  | .condition (.curly _ (some _) _ _) => by
    simp [atomics, atomic?, parts, Condition.atomics, Condition.predicate?]
  | .condition (.bare _) => by
    simp [atomics, atomic?, parts, Condition.atomics, Condition.predicate?]
  | .atomic ⟨_, m, _, _⟩ => by
    cases m <;>
      simp [atomics, atomic?, parts, Atomic.atomics, flatMap_atomics_elements]
  | .block (.atomic _) => by simp [atomics, atomic?, parts, Block.atomics]
  | .block (.composite c) => by
    simp [atomics, atomic?, parts, Block.atomics, flatMap_atomics_composite]
  | .clause ⟨_, none, _⟩ => by simp [atomics, atomic?, parts, Clause.atomics]
  | .clause ⟨_, some _, _⟩ => by simp [atomics, atomic?, parts, Clause.atomics]
  | .stack ⟨blocks, _⟩ => by
    simp [atomics, atomic?, parts, Stack.atomics, flatMap_atomics_blocks]
  | .comments _ => by simp [atomics, atomic?, parts]
  | .code ⟨leading, _, _, _⟩ => by
    cases leading <;> simp [atomics, atomic?, parts, Code.atomicBlocks, Code.stackList_eq,
      flatMap_atomics_segments]

/-! ## Induction over the tree -/

section Induction

variable {P : Node → Prop} (step : ∀ n : Node, (∀ m ∈ n.parts, P m) → P n)

include step

theorem of_token (t : Token) : P (.token t) := step _ (by simp [parts])

theorem of_modifier (m : Modifier) : P (.modifier m) := step _ (by simp [parts, of_token step])

mutual

theorem of_atomic : ∀ a : Atomic, P (.atomic a)
  | ⟨es, m, a, _⟩ => step _ (by
    have hes := of_elements es
    simp only [parts, List.forall_mem_append]
    exact ⟨⟨hes, by simp [of_modifier step]⟩, by simp [annotationParts, of_token step]⟩)

theorem of_elements : ∀ es : List Element, ∀ m ∈ es.map ofElement, P m
  | [] => by simp
  | .label t :: es => List.forall_mem_cons.2 ⟨of_token step t, of_elements es⟩
  | .argument a :: es => List.forall_mem_cons.2 ⟨of_argument a, of_elements es⟩

theorem of_argument : ∀ a : Argument, P (.argument a)
  | .curly _ none _ _ => step _ (by simp [parts, or_imp, forall_and, of_token step])
  | .curly _ (some v) _ _ => step _ (by
    have hv := of_value v
    simp [parts, or_imp, forall_and, of_token step, hv])
  | .bare v => step _ (List.forall_mem_singleton.2 (of_value v))

theorem of_value : ∀ v : Value, P (ofValue v)
  | .literal t => of_token step t
  | .bracketed shape b => of_brackets b shape

theorem of_brackets : ∀ (b : Brackets) (shape : Shape), P (.brackets shape b)
  | ⟨_, none, _⟩, _ => step _ (by simp [parts, of_token step])
  | ⟨_, some a, _⟩, _ => step _ (by
    have ha := of_atomic a
    simp [parts, of_token step, ha])

end

theorem of_condition : ∀ c : Condition, P (.condition c)
  | .curly _ b _ _ => step _ (by
    cases b <;> simp [parts, or_imp, forall_and, of_token step, of_brackets step])
  | .bare b => step _ (List.forall_mem_singleton.2 (of_brackets step b .angle))

mutual

theorem of_stack : ∀ s : Stack, P (.stack s)
  | ⟨blocks, _⟩ => step _ (of_blocks blocks)

theorem of_blocks : ∀ bs : List Block, ∀ m ∈ bs.map Node.block, P m
  | [] => by simp
  | .atomic a :: bs => List.forall_mem_cons.2
      ⟨step _ (List.forall_mem_singleton.2 (of_atomic step a)), of_blocks bs⟩
  | .composite c :: bs => List.forall_mem_cons.2 ⟨step _ (of_composite c), of_blocks bs⟩

theorem of_composite : ∀ c : Composite, ∀ m ∈ compositeParts c, P m
  | .ifElse _ c _ _ body none _ => by
    have hbody := of_clause body
    simp [compositeParts, annotationParts, or_imp, forall_and, of_token step,
      of_condition step c, hbody]
  | .ifElse _ c _ _ body (some ⟨_, last⟩) _ => by
    have hbody := of_clause body
    have hlast := of_clause last
    simp [compositeParts, elseParts, annotationParts, or_imp, forall_and, of_token step,
      of_condition step c, hbody, hlast]
  | .forever _ _ body _ => by
    have hbody := of_clause body
    simp [compositeParts, annotationParts, or_imp, forall_and, of_token step, hbody]
  | .repeatTimes _ count _ body _ => by
    have hbody := of_clause body
    simp [compositeParts, annotationParts, or_imp, forall_and, of_token step,
      of_argument step count, hbody]
  | .repeatUntil _ c _ body _ => by
    have hbody := of_clause body
    simp [compositeParts, annotationParts, or_imp, forall_and, of_token step,
      of_condition step c, hbody]

theorem of_clause : ∀ c : Clause, P (.clause c)
  | ⟨_, none, _⟩ => step _ (by simp [parts, or_imp, forall_and, of_token step])
  | ⟨_, some body, _⟩ => step _ (by
    have hbody := of_stack body
    simp [parts, or_imp, forall_and, of_token step, hbody])

end

theorem of_comments (c : Comments) : P (.comments c) := step _ (by simp [parts, of_token step])

theorem of_segment : ∀ s : Segment, P (ofSegment s)
  | .stack s => of_stack step s
  | .comments c => of_comments step c

/-- What holds of a node whenever it holds of its parts holds of every node. -/
theorem induction : ∀ n : Node, P n
  | .token t => of_token step t
  | .modifier m => of_modifier step m
  | .brackets shape b => of_brackets step b shape
  | .argument a => of_argument step a
  | .condition c => of_condition step c
  | .atomic a => of_atomic step a
  | .block b => of_blocks step [b] _ List.mem_cons_self
  | .clause c => of_clause step c
  | .stack s => of_stack step s
  | .comments c => of_comments step c
  | .code ⟨leading, _, _, _⟩ => step _ (by
    cases leading <;> simp [parts, or_imp, forall_and, of_comments step, of_segment step])

end Induction

/-! ## Places -/

/-- The entries are the atomic blocks of a tree with their places, in the order of the places. -/
structure Listing (n : Node) (entries : List (List Nat × Atomic)) : Prop where
  blocks : entries.map Prod.snd = n.atomics
  mem : ∀ p a, (p, a) ∈ entries ↔ n.at? p = some (.atomic a)
  sorted : entries.Pairwise fun x y => x.1 < y.1

/-- The same for trees in a row, the first of which has the number `i`. -/
structure RowListing (ns : List Node) (i : Nat) (entries : List (List Nat × Atomic)) : Prop where
  blocks : entries.map Prod.snd = ns.flatMap atomics
  mem : ∀ p a, (p, a) ∈ entries ↔
    ∃ j q n, p = (i + j) :: q ∧ ns[j]? = some n ∧ n.at? q = some (.atomic a)
  sorted : entries.Pairwise fun x y => x.1 < y.1

theorem exists_rowListing : ∀ (ns : List Node) (i : Nat),
    (∀ n ∈ ns, ∃ entries, n.Listing entries) → ∃ entries, RowListing ns i entries
  | [], _, _ => ⟨[], rfl, by simp, .nil⟩
  | n :: ns, i, h => by
    obtain ⟨⟨first, hfirst⟩, hns⟩ := List.forall_mem_cons.1 h
    obtain ⟨later, hlater⟩ := exists_rowListing ns (i + 1) hns
    refine ⟨first.map (fun e => (i :: e.1, e.2)) ++ later, ?_, fun p a => ?_, ?_⟩
    · rw [List.map_append, List.map_map, hlater.blocks, List.flatMap_cons, ← hfirst.blocks]
      rfl
    · rw [List.mem_append, List.mem_map, hlater.mem]
      constructor
      · rintro (⟨⟨q, b⟩, he, heq⟩ | ⟨j, q, m, rfl, hm, ha⟩)
        · cases heq
          exact ⟨0, q, n, rfl, rfl, (hfirst.mem q b).1 he⟩
        · exact ⟨j + 1, q, m, by rw [Nat.add_right_comm, Nat.add_assoc], hm, ha⟩
      · rintro ⟨_ | j, q, m, rfl, hm, ha⟩
        · cases hm
          exact .inl ⟨(q, a), (hfirst.mem q a).2 ha, rfl⟩
        · exact .inr ⟨j, q, m, by rw [Nat.add_right_comm, Nat.add_assoc], hm, ha⟩
    · refine List.pairwise_append.2 ⟨?_, hlater.sorted, ?_⟩
      · exact List.pairwise_map.2 (hfirst.sorted.imp List.cons_lt_cons_self.2)
      · rintro x hx ⟨p, a⟩ hy
        obtain ⟨e, -, rfl⟩ := List.mem_map.1 hx
        obtain ⟨j, q, -, rfl, -⟩ := (hlater.mem p a).1 hy
        exact .rel (by omega)

/-- The walk lists the atomic blocks of a tree in the order of their places. -/
theorem exists_listing (n : Node) : ∃ entries, n.Listing entries := by
  induction n using induction with
  | step n ih =>
    obtain ⟨inner, hinner⟩ := exists_rowListing n.parts 0 ih
    have hplace : ∀ p a, n.at? p = some (.atomic a) ↔
        n = .atomic a ∧ p = [] ∨ (p, a) ∈ inner := by
      intro p a
      rw [hinner.mem]
      cases p with
      | nil => simp
      | cons i q => simp [at?_cons_eq_some]
    refine ⟨n.atomic?.toList.map (fun a => ([], a)) ++ inner, ?_, fun p a => ?_, ?_⟩
    · rw [List.map_append, List.map_map, hinner.blocks, atomics_eq n]
      simp
    · rw [hplace, List.mem_append]
      simp [atomic?_eq_some]
    · refine List.pairwise_append.2 ⟨?_, hinner.sorted, ?_⟩
      · cases n.atomic? <;> simp
      · rintro x hx ⟨p, a⟩ hy
        obtain ⟨b, -, rfl⟩ := List.mem_map.1 hx
        obtain ⟨i, q, -, rfl, -⟩ := (hinner.mem p a).1 hy
        exact .nil

end Node

/-! ## Where atomic blocks begin -/

/-- Each of some atomic blocks begins with a token of its own among `w`, in the same order. -/
def Headed (w : List Token) (as : List Atomic) : Prop :=
  (as.map (·.span.start)).Sublist (w.map (·.span.start))

namespace Headed

variable {w v : List Token} {as bs : List Atomic}

theorem nil (w : List Token) : Headed w [] := List.nil_sublist _

theorem append (h : Headed w as) (h' : Headed v bs) : Headed (w ++ v) (as ++ bs) := by
  unfold Headed
  rw [List.map_append, List.map_append]
  exact List.Sublist.append h h'

theorem mono (h : Headed w as) (hw : w.Sublist v) : Headed v as := h.trans (hw.map _)

end Headed

mutual

/-- The blocks inside an atomic block begin behind its first token. -/
theorem Atomic.headed : ∀ {a : Atomic}, (∀ b ∈ a.atomics, b.Spanned) →
    Headed (a.fields.map Field.token) a.atomics
  | ⟨elements, m, a, span⟩, h => by
    rw [Atomic.atomics] at h ⊢
    obtain ⟨⟨hne, hspan⟩, hinner⟩ := List.forall_mem_cons.1 h
    have htail : Headed ((Atomic.fields ⟨elements, m, a, span⟩).map Field.token).tail
        (Element.atomicsOfAll elements) := by
      refine (Element.headed hinner).mono (List.Sublist.tail ?_)
      rw [Atomic.fields, List.append_assoc, List.map_append]
      exact List.sublist_append_left _ _
    obtain ⟨t, ts, hts⟩ := List.exists_cons_of_ne_nil (mt List.map_eq_nil_iff.1 hne)
    rw [hts] at hspan htail ⊢
    obtain rfl : span = .hull (t :: ts) := hspan
    exact htail.cons_cons t.span.start

theorem Element.headed : ∀ {es : List Element}, (∀ b ∈ Element.atomicsOfAll es, b.Spanned) →
    Headed ((Element.fieldsOfAll es).map Field.token).tail (Element.atomicsOfAll es)
  | [], _ => .nil _
  | .label token :: es, h => by
    rw [Element.atomicsOfAll] at h ⊢
    exact (Element.headed h).mono (List.tail_sublist _)
  | .argument a :: es, h => by
    rw [Element.atomicsOfAll] at h ⊢
    obtain ⟨ha, hes⟩ := List.forall_mem_append.1 h
    have hne : a.fields.map Field.token ≠ [] := mt List.map_eq_nil_iff.1 a.fields_ne_nil
    rw [Element.fieldsOfAll, List.map_append, List.tail_append_of_ne_nil hne]
    exact (Argument.headed ha).append ((Element.headed hes).mono (List.tail_sublist _))

theorem Argument.headed : ∀ {a : Argument}, (∀ b ∈ a.atomics, b.Spanned) →
    Headed (a.fields.map Field.token).tail a.atomics
  | .curly _ none _ _, _ => by
    rw [Argument.atomics]
    exact .nil _
  | .curly opening (some value) id closing, h => by
    rw [Argument.atomics] at h ⊢
    refine (Value.headed h).mono ((List.tail_sublist _).trans ?_)
    simp [Argument.fields]
  | .bare value, h => Value.headed (v := value) h

theorem Value.headed : ∀ {v : Value}, (∀ b ∈ v.atomics, b.Spanned) →
    Headed (v.fields.map Field.token).tail v.atomics
  | .literal _, _ => .nil _
  | .bracketed shape b, h => Brackets.headed (b := b) shape h

theorem Brackets.headed : ∀ {b : Brackets} (shape : Shape), (∀ a ∈ b.atomics, a.Spanned) →
    Headed ((b.fields shape).map Field.token).tail b.atomics
  | ⟨_, none, _⟩, _, _ => .nil _
  | ⟨opening, some atomic, closing⟩, shape, h => by
    refine (Atomic.headed (a := atomic) h).mono ?_
    simp [Brackets.fields]

end

theorem Condition.headed {c : Condition} (h : ∀ a ∈ c.atomics, a.Spanned) :
    Headed (c.fields.map Field.token) c.atomics := by
  rcases c with ⟨opening, _ | predicate, id, closing⟩ | predicate
  · exact .nil _
  · refine (Brackets.headed (b := predicate) .angle h).mono ((List.tail_sublist _).trans ?_)
    simp [Condition.fields]
  · exact (Brackets.headed (b := predicate) .angle h).mono (List.tail_sublist _)

theorem Headed.spreads : Spreads Headed where
  nil := .nil
  append := .append
  mono h hw := h.mono hw.sublist
  atomic h := h.tokens ▸ Atomic.headed h.spans
  condition h := h.tokens ▸ Condition.headed h.spans
  argument h := h.tokens ▸ (Argument.headed h.spans).mono (List.tail_sublist _)

theorem Headed.pairwise {source : String} {w : List Token} {as : List Atomic} (h : Headed w as)
    (hw : Placed source w) : as.Pairwise fun a b => a.span.start < b.span.start := by
  have hstarts : (w.map (·.span.start)).Pairwise (· < ·) := by
    rw [List.pairwise_map]
    refine hw.apart.imp_of_mem fun {t u} ht _ hle => ?_
    exact (hw.fits t ht).1.trans_le hle
  exact List.pairwise_map.1 (hstarts.sublist h)

theorem lt_append_cons (p : List Nat) (i : Nat) (q : List Nat) : p < p ++ i :: q := by
  induction p with
  | nil => exact .nil
  | cons _ _ ih => exact List.cons_lt_cons_self.2 ih

/-- What holds between each listed block and those after it holds between a block and those nested
in it. -/
theorem Node.Listing.nested {n : Node} {entries : List (List Nat × Atomic)}
    (h : n.Listing entries) {R : Atomic → Atomic → Prop} (hR : n.atomics.Pairwise R)
    {p q : List Nat} {i : Nat} {a b : Atomic} (ha : n.at? p = some (.atomic a))
    (hb : n.at? (p ++ i :: q) = some (.atomic b)) : R a b := by
  rw [← h.blocks, List.pairwise_map] at hR
  have hlt := lt_append_cons p i q
  obtain ⟨j, hj, hja⟩ := List.getElem_of_mem ((h.mem p a).2 ha)
  obtain ⟨k, hk, hkb⟩ := List.getElem_of_mem ((h.mem _ b).2 hb)
  rcases Nat.lt_trichotomy j k with hjk | rfl | hkj
  · have hab := List.pairwise_iff_getElem.1 hR j k hj hk hjk
    rwa [hja, hkb] at hab
  · have heq : p = p ++ i :: q := congrArg Prod.fst (hja.symm.trans hkb)
    simp at heq
  · have hgt := List.pairwise_iff_getElem.1 h.sorted k j hk hj hkj
    rw [hja, hkb] at hgt
    exact absurd hlt (List.lt_asymm hgt)

/-- The walk over a script lists every atomic block in its tree once, in the order of the places of
the tree. This is also the order in which the blocks begin in the source, and so a block comes
before those nested in it. -/
theorem walk_lists_tree {source : String} {id : Nat} {code : Code}
    (h : parse source id = .ok code) :
    (∃ entries : List (List Nat × Atomic), entries.map Prod.snd = code.atomicBlocks ∧
      (∀ p a, (p, a) ∈ entries ↔ (Node.code code).at? p = some (.atomic a)) ∧
      entries.Pairwise fun x y => x.1 < y.1) ∧
    (code.atomicBlocks.Pairwise fun a b => a.span.start < b.span.start) ∧
    ∀ p i q a b, (Node.code code).at? p = some (.atomic a) →
      (Node.code code).at? (p ++ i :: q) = some (.atomic b) → a.span.start < b.span.start := by
  obtain ⟨entries, hentries⟩ := (Node.code code).exists_listing
  have hstarts : code.atomicBlocks.Pairwise fun a b => a.span.start < b.span.start := by
    obtain ⟨ts, hts, hcode⟩ := tokenize_of_parse h
    exact (parseTokensWithin_spread Headed.spreads hcode).pairwise (tokenize_placed hts)
  exact ⟨⟨entries, hentries.blocks, hentries.mem, hentries.sorted⟩, hstarts,
    fun _ _ _ _ _ => hentries.nested hstarts⟩

/-- Blocks in a condition, in arguments and in both bodies of an `if`. -/
theorem walk_lists_tree_branches : ∃ (code : Code) (entries : List (List Nat × Atomic)),
    parse "repeat until <a (b)>\nif <c> then\nd (e) (f)\nelse\ng" 0 = .ok code ∧
    code.atomicBlocks.map (·.span.start) = [14, 17, 25, 33, 36, 40, 48] ∧
    entries.map Prod.snd = code.atomicBlocks ∧
    (∀ p a, (p, a) ∈ entries ↔ (Node.code code).at? p = some (.atomic a)) ∧
    entries.Pairwise fun x y => x.1 < y.1 := by
  have h : (parse "repeat until <a (b)>\nif <c> then\nd (e) (f)\nelse\ng" 0).toOption.map
      (fun c => c.atomicBlocks.map (·.span.start)) = some [14, 17, 25, 33, 36, 40, 48] := by
    decide +kernel
  cases hcode : parse "repeat until <a (b)>\nif <c> then\nd (e) (f)\nelse\ng" 0 with
  | error e => rw [hcode] at h; cases h
  | ok code =>
    rw [hcode] at h
    obtain ⟨⟨entries, hblocks, hmem, hsorted⟩, -⟩ := walk_lists_tree hcode
    exact ⟨code, entries, rfl, Option.some.inj h, hblocks, hmem, hsorted⟩

end BlockNotation
