import BlockNotation.Proofs.Script.Parallel
import BlockNotation.Proofs.Script.Predictive
import BlockNotation.Proofs.Script.Recasting

/-!
# Parsers that read two token lists alike

Two token lists stand abreast if the one has, place for place, a token of the same kind as the
other, up to a point from which either has delimiters only (`Abreast`). Whatever a parser reads on
one of them it reads on the other (`Accords`): in front of a delimiter only the kind of the token
after it matters, and no block begins with a delimiter, so that a few more of them at the end are
left where they are.

Values correspond if a function `f` that may forget something about tokens cannot tell them apart.
This is shown of one parser after the other, up to clauses (`accords_clause`).
-/

namespace BlockNotation

/-- Tokens of one kind that `f` does not tell apart, labels of the same text in particular. -/
structure Twins (f : Token → Token) (t u : Token) : Prop where
  kind : t.kind = u.kind
  image : f t = f u
  text : t.kind = .label → t.text = u.text

/-- Nothing but delimiters is left. -/
def Spent (ts : List Token) : Prop := ∀ t ∈ ts, t.kind = .delimiter

theorem Spent.nil : Spent [] := by simp [Spent]

theorem Spent.tail {ts : List Token} (h : Spent ts) : Spent ts.tail :=
  fun t ht => h t (List.mem_of_mem_tail ht)

/-- Two token lists of twins in the same order, with any delimiters after them on either side. -/
inductive Abreast (f : Token → Token) : List Token → List Token → Prop where
  | spent {ts us : List Token} (left : Spent ts) (right : Spent us) : Abreast f ts us
  | cons {t u : Token} {ts us : List Token} (twins : Twins f t u) (later : Abreast f ts us) :
      Abreast f (t :: ts) (u :: us)

variable {f : Token → Token} {n : Nat}

theorem Twins.symm {t u : Token} (h : Twins f t u) : Twins f u t :=
  ⟨h.kind.symm, h.image.symm, fun hu => (h.text (h.kind.trans hu)).symm⟩

theorem Twins.map_eq {k : Kind} {o o' : Option Token}
    (h : Option.Rel (fun t u => Twins f t u ∧ t.kind = k) o o') : o.map f = o'.map f := by
  cases h with
  | none => rfl
  | some h => exact congrArg some h.1.image

namespace Abreast

theorem symm {ts us : List Token} (h : Abreast f ts us) : Abreast f us ts := by
  induction h with
  | spent left right => exact .spent right left
  | cons twins _ ih => exact .cons twins.symm ih

theorem spent_iff {ts us : List Token} (h : Abreast f ts us) : Spent ts ↔ Spent us := by
  induction h with
  | spent left right => exact iff_of_true left right
  | cons twins _ ih =>
    rw [Spent, Spent, List.forall_mem_cons, List.forall_mem_cons, twins.kind]
    exact and_congr_right fun _ => ih

theorem uncons {t : Token} {ts us : List Token} (h : Abreast f (t :: ts) us)
    (ht : t.kind ≠ .delimiter) : ∃ u us', us = u :: us' ∧ Twins f t u ∧ Abreast f ts us' := by
  cases h with
  | spent left => exact absurd (left t List.mem_cons_self) ht
  | cons twins later => exact ⟨_, _, rfl, twins, later⟩

theorem head?_eq {ts us : List Token} (h : Abreast f ts us) (hts : ¬ Spent ts) :
    (kindsOf ts).head? = (kindsOf us).head? := by
  cases h with
  | spent left => exact absurd left hts
  | cons twins _ => exact congrArg some twins.kind

theorem head?_eq_some_iff {ts us : List Token} (h : Abreast f ts us) {k : Kind}
    (hk : k ≠ .delimiter) : (kindsOf ts).head? = some k ↔ (kindsOf us).head? = some k := by
  have hto : ∀ {ts us : List Token}, Abreast f ts us → (kindsOf ts).head? = some k →
      (kindsOf us).head? = some k := by
    intro ts us h hts
    cases ts with
    | nil => cases hts
    | cons t ts =>
      obtain rfl : t.kind = k := Option.some.inj hts
      obtain ⟨u, us, rfl, twins, -⟩ := h.uncons hk
      exact congrArg some twins.kind.symm
  exact ⟨hto h, hto h.symm⟩

end Abreast

theorem Block.atomicsOfAll_eq_flatMap : ∀ bs : List Block,
    Block.atomicsOfAll bs = bs.flatMap Block.atomics
  | [] => rfl
  | b :: bs => by
    rw [Block.atomicsOfAll, Block.atomicsOfAll_eq_flatMap bs, List.flatMap_cons]

/-- Atomic blocks that `f` does not tell apart, in the same order. -/
def Counterparts (f : Token → Token) (as bs : List Atomic) : Prop :=
  as.map (·.recast f) = bs.map (·.recast f)

namespace Counterparts

theorem append {as bs cs ds : List Atomic} (h : Counterparts f as bs) (h' : Counterparts f cs ds) :
    Counterparts f (as ++ cs) (bs ++ ds) := by
  rw [Counterparts, List.map_append, List.map_append, h, h']

theorem flatMap {α : Type} {g : α → List Atomic} {as bs : List α}
    (h : List.Forall₂ (fun a b => Counterparts f (g a) (g b)) as bs) :
    Counterparts f (as.flatMap g) (bs.flatMap g) := by
  rw [Counterparts, List.map_flatMap, List.map_flatMap, List.flatMap_def, List.flatMap_def,
    map_eq_of_forall₂ h]

end Counterparts

/-- Wherever `p` succeeds, `q` succeeds on a token list abreast, with corresponding values, and
leaves lists abreast. -/
def Accords {α : Type} (f : Token → Token) (R : α → α → Prop) (p q : Parser α) : Prop :=
  ∀ s s', Abreast f s.rest s'.rest → ∀ a t, p s = .ok (a, t) →
    ∃ b t', q s' = .ok (b, t') ∧ R a b ∧ Abreast f t.rest t'.rest

namespace Accords

variable {α β : Type} {R : α → α → Prop} {S : β → β → Prop}

theorem pure {a b : α} (h : R a b) : Accords f R (pure a) (pure b) := by
  rintro s s' hs a t ⟨⟩
  exact ⟨b, s', rfl, h, hs⟩

theorem fail {cause : Cause} {q : Parser α} : Accords f R (Parser.fail cause) q := by
  rintro s s' _ a t ⟨⟩

theorem imp {p q : Parser α} {R' : α → α → Prop} (h : Accords f R p q)
    (hR : ∀ a b, R a b → R' a b) : Accords f R' p q := by
  intro s s' hs a t ha
  obtain ⟨b, t', hb, hab, ht⟩ := h s s' hs a t ha
  exact ⟨b, t', hb, hR a b hab, ht⟩

theorem bind {p q : Parser α} {g k : α → Parser β} (h : Accords f R p q)
    (hg : ∀ a b, R a b → Accords f S (g a) (k b)) : Accords f S (p >>= g) (q >>= k) := by
  intro s s' hs c t hc
  obtain ⟨a, s₁, ha, hc⟩ := of_bind_run hc
  obtain ⟨b, s₁', hb, hab, hs₁⟩ := h s s' hs a s₁ ha
  obtain ⟨d, t', hd, hcd, ht⟩ := hg a b hab s₁ s₁' hs₁ c t hc
  exact ⟨d, t', (bind_run_ok hb).trans hd, hcd, ht⟩

/-- A parser of something that may be absent is absent on both sides or on none. -/
theorem cases {p q : Parser (Option α)} {g k : Option α → Parser β}
    (h : Accords f (Option.Rel R) p q)
    (hsome : ∀ a b, R a b → Accords f S (g (some a)) (k (some b)))
    (hnone : Accords f S (g none) (k none)) : Accords f S (p >>= g) (q >>= k) := by
  refine h.bind fun o o' ho => ?_
  cases ho with
  | none => exact hnone
  | some hab => exact hsome _ _ hab

theorem map {p q : Parser (Option α)} {g : α → β} (h : Accords f (Option.Rel R) p q)
    (hg : ∀ a b, R a b → S (g a) (g b)) :
    Accords f (Option.Rel S) (do return (← p).map g) (do return (← q).map g) :=
  h.cases (fun a b hab => .pure (.some (hg a b hab))) (.pure .none)

/-- Where a construct starts is not compared: its tokens tell. -/
theorem start {g k : Nat → Parser α} (h : ∀ a b, Accords f R (g a) (k b)) :
    Accords f R (Parser.start >>= g) (Parser.start >>= k) :=
  fun s s' => h s.start s'.start s s'

theorem lastEnd {g k : Nat → Parser α} (h : ∀ a b, Accords f R (g a) (k b)) :
    Accords f R (Parser.lastEnd >>= g) (Parser.lastEnd >>= k) :=
  fun s s' => h s.lastEnd s'.lastEnd s s'

theorem many {p : Parser (Option α)}
    (hp : ∀ s a s', p s = .ok (some a, s') → s'.rest.length < s.rest.length)
    (h : Accords f (Option.Rel R) p p) :
    Accords f (List.Forall₂ R) (Parser.many p) (Parser.many p) := by
  intro s s' hs as t has
  have hrounds := rounds_of_many hp has
  clear has
  induction hrounds generalizing s' with
  | last hlast =>
    obtain ⟨o, t', ho, hrel, ht⟩ := h _ s' hs _ _ hlast
    cases hrel
    refine ⟨[], t', ?_, .nil, ht⟩
    rw [many_eq_bind hp]
    exact bind_run_ok ho
  | next hnext _ ih =>
    obtain ⟨o, s₁', ho, hrel, hs₁⟩ := h _ s' hs _ _ hnext
    cases hrel with
    | some hab =>
      obtain ⟨bs, t', hbs, hrest, ht⟩ := ih s₁' hs₁
      refine ⟨_ :: bs, t', ?_, .cons hab hrest, ht⟩
      rw [many_eq_bind hp, bind_run_ok ho]
      exact bind_run_ok hbs

end Accords

namespace Parser

/-! ## Single tokens -/

theorem accords_takeAny {ks : List Kind} (hks : Kind.delimiter ∉ ks) :
    Accords f (Option.Rel fun t u => Twins f t u ∧ t.kind ∈ ks) (takeAny ks) (takeAny ks) := by
  intro s s' hs o s₁ ho
  obtain ⟨rfl, hrest, hhead⟩ | ⟨t, rfl, ht, hrest⟩ := takeAny_cases ho
  · have hhead' : ∀ k ∈ (kindsOf s'.rest).head?, k ∉ ks := by
      intro k hk hmem
      have hne : k ≠ .delimiter := fun hd => hks (hd ▸ hmem)
      exact hhead k ((hs.head?_eq_some_iff hne).2 hk) hmem
    exact ⟨none, _, takeAny_of_not_mem hhead', .none, hrest ▸ hs⟩
  · have hne : t.kind ≠ .delimiter := fun hd => hks (hd ▸ ht)
    rw [hrest] at hs
    obtain ⟨u, us, hus, twins, later⟩ := hs.uncons hne
    obtain ⟨s₁', htake, hreach, -⟩ := takeAny_of_mem hus (twins.kind ▸ ht)
    have hus' : us = s₁'.rest := (List.cons.inj (hus.symm.trans hreach.rest)).2
    exact ⟨some u, s₁', htake, .some ⟨twins, ht⟩, hus' ▸ later⟩

theorem accords_take? {k : Kind} (hk : k ≠ .delimiter) :
    Accords f (Option.Rel fun t u => Twins f t u ∧ t.kind = k) (take? k) (take? k) := by
  have h : Accords f (Option.Rel fun t u => Twins f t u ∧ t.kind ∈ [k]) (take? k) (take? k) :=
    accords_takeAny (by simpa using hk.symm)
  simpa only [List.mem_singleton] using h

theorem accords_take {rule : Rule} {k : Kind} (hk : k ≠ .delimiter) :
    Accords f (Twins f) (take rule k) (take rule k) :=
  (accords_take? hk).cases (fun _ _ h => .pure h.1) .fail

theorem accords_sees {k : Kind} (hk : k ≠ .delimiter) : Accords f Eq (sees k) (sees k) := by
  rintro s s' hs a t ⟨⟩
  refine ⟨_, _, rfl, ?_, hs⟩
  rw [decide_eq_decide, ← List.head?_map, ← List.head?_map]
  exact hs.head?_eq_some_iff hk

theorem rest_of_delimiter {s s' : Cursor} {o : Option Token}
    (h : take? .delimiter s = .ok (o, s')) :
    s'.rest = if (kindsOf s.rest).head? = some .delimiter then s.rest.tail else s.rest := by
  obtain ⟨-, hrest, hhead⟩ | ⟨t, -, ht, hrest⟩ := takeAny_cases h
  · have hne : (kindsOf s.rest).head? ≠ some .delimiter :=
      fun hd => hhead _ hd (List.mem_singleton_self _)
    rw [if_neg hne, hrest]
  · have hd : (kindsOf s.rest).head? = some .delimiter := by
      rw [hrest, kindsOf_cons, List.mem_singleton.1 ht, List.head?_cons]
    rw [if_pos hd, hrest, List.tail_cons]

/-- A delimiter may be there on one side and not on the other. -/
theorem accords_delimiter :
    Accords f (fun _ _ => True) (take? .delimiter) (take? .delimiter) := by
  intro s s' hs o t ho
  obtain ⟨o', t', ho'⟩ := takeAny_run [.delimiter] s'
  refine ⟨o', t', ho', trivial, ?_⟩
  rw [rest_of_delimiter ho, rest_of_delimiter ho']
  generalize s.rest = ts, s'.rest = us at hs
  cases hs with
  | spent left right =>
    refine .spent ?_ ?_ <;> split
    · exact left.tail
    · exact left
    · exact right.tail
    · exact right
  | cons twins later =>
    rw [kindsOf_cons, kindsOf_cons, List.head?_cons, List.head?_cons, ← twins.kind]
    split
    · exact later
    · exact .cons twins later

/-! ## Atomic blocks -/

theorem accords_modifier? :
    Accords f (Option.Rel fun m m' => m.recast f = m'.recast f) modifier? modifier? := by
  unfold modifier?
  refine (accords_take? (by decide)).cases (fun marker marker' hmarker => ?_) (.pure .none)
  refine (accords_take (by decide)).bind fun label label' hlabel => .pure (.some ?_)
  rw [Modifier.recast, Modifier.recast, hmarker.1.image, hlabel.image]

theorem accords_annotations? :
    Accords f (Option.Rel fun a a' => a.recast f = a'.recast f) annotations? annotations? := by
  unfold annotations?
  refine (accords_take? (by decide)).cases (fun remark remark' hremark => ?_) ?_
  · refine (accords_take? (by decide)).bind fun id id' hid => .pure (.some ?_)
    rw [Annotations.recast, Annotations.recast, hremark.1.image, Twins.map_eq hid]
  · refine (accords_take? (by decide)).cases (fun id id' hid => ?_) (.pure .none)
    refine (accords_take? (by decide)).bind fun remark remark' hremark => .pure (.some ?_)
    rw [Annotations.recast, Annotations.recast, hid.1.image, Twins.map_eq hremark]

section Atomic

variable {brackets : Shape → Parser Brackets}
  (hm : ∀ shape, Accords f (fun b b' => b.recast f = b'.recast f) (brackets shape) (brackets shape))

include hm

theorem accords_brackets? (shape : Shape) :
    Accords f (Option.Rel fun b b' => b.recast f = b'.recast f) (brackets? brackets shape)
      (brackets? brackets shape) := by
  unfold brackets?
  refine (accords_sees (by cases shape <;> decide)).bind fun seen seen' h => ?_
  subst h
  cases seen with
  | false => exact .pure .none
  | true => exact (hm shape).bind fun b b' hb => .pure (.some hb)

theorem accords_value? :
    Accords f (Option.Rel fun v v' => v.recast f = v'.recast f) (value? brackets)
      (value? brackets) := by
  unfold value?
  refine (accords_takeAny (by decide)).cases (fun token token' ht => .pure (.some ?_)) ?_
  · rw [Value.recast, Value.recast, ht.1.image]
  · refine (accords_brackets? hm .round).cases (fun b b' hb => .pure (.some ?_)) ?_
    · rw [Value.recast, Value.recast, hb]
    · refine (accords_brackets? hm .angle).map fun b b' hb => ?_
      rw [Value.recast, Value.recast, hb]

theorem accords_argument? :
    Accords f (Option.Rel fun a a' => a.recast f = a'.recast f) (argument? brackets)
      (argument? brackets) := by
  unfold argument?
  refine (accords_take? (by decide)).cases (fun opening opening' hopening => ?_) ?_
  · refine (accords_value? hm).bind fun value value' hvalue => ?_
    refine (accords_take? (by decide)).bind fun id id' hid => ?_
    refine (accords_take (by decide)).bind fun closing closing' hclosing => .pure (.some ?_)
    cases hvalue with
    | none =>
      rw [Argument.recast, Argument.recast, hopening.1.image, Twins.map_eq hid, hclosing.image]
    | some hvalue =>
      rw [Argument.recast, Argument.recast, hopening.1.image, hvalue, Twins.map_eq hid,
        hclosing.image]
  · refine (accords_value? hm).map fun value value' hvalue => ?_
    rw [Argument.recast, Argument.recast, hvalue]

theorem accords_argument :
    Accords f (fun a a' => a.recast f = a'.recast f) (argument brackets) (argument brackets) :=
  (accords_argument? hm).cases (fun _ _ ha => .pure ha) .fail

theorem accords_element? :
    Accords f (Option.Rel fun e e' => e.recast f = e'.recast f) (element? brackets)
      (element? brackets) := by
  unfold element?
  refine (accords_take? (by decide)).cases (fun token token' ht => .pure (.some ?_)) ?_
  · rw [Element.recast, Element.recast, Token.recast, Token.recast, ht.1.image, ht.1.text ht.2]
  · refine (accords_argument? hm).map fun a a' ha => ?_
    rw [Element.recast, Element.recast, ha]

theorem accords_atomic? (hb : ReadsBrackets n brackets) :
    Accords f (Option.Rel fun a a' => a.recast f = a'.recast f) (atomic? brackets)
      (atomic? brackets) := by
  unfold atomic?
  refine .start fun start start' => ?_
  have hprogress := (opens_element? (r := .atomic) hb).lt
  refine (Accords.many hprogress (accords_element? hm)).bind fun elements elements' he => ?_
  cases he with
  | nil => exact .pure .none
  | cons hfirst hlater =>
    refine accords_modifier?.bind fun modifier modifier' hmodifier => ?_
    refine accords_annotations?.bind fun annotations annotations' hannotations => ?_
    refine .lastEnd fun stop stop' => .pure (.some ?_)
    have helements := map_eq_of_forall₂ (.cons hfirst hlater)
    rw [Atomic.recast, Atomic.recast, Element.recastAll_eq_map, helements,
      ← Element.recastAll_eq_map, map_eq_of_rel hmodifier, map_eq_of_rel hannotations]

end Atomic

theorem accords_brackets : ∀ (n : Nat) (shape : Shape),
    Accords f (fun b b' => b.recast f = b'.recast f) (brackets n shape) (brackets n shape)
  | 0, _ => .fail
  | n + 1, shape => by
    refine (accords_take (by cases shape <;> decide)).bind fun opening opening' hopening => ?_
    refine (accords_atomic? (accords_brackets n) (readsBrackets n)).bind fun a a' ha => ?_
    refine (accords_take (by cases shape <;> decide)).bind fun closing closing' hclosing => ?_
    refine .pure ?_
    cases ha with
    | none => rw [Brackets.recast, Brackets.recast, hopening.image, hclosing.image]
    | some ha => rw [Brackets.recast, Brackets.recast, hopening.image, ha, hclosing.image]

/-! ## Stacks -/

section Stack

variable {clause : Parser Clause}
  (hm : Accords f (fun c c' => Counterparts f c.atomics c'.atomics) clause clause)

theorem accords_condition :
    Accords f (fun c c' => Counterparts f c.atomics c'.atomics) (condition (brackets n))
      (condition (brackets n)) := by
  have hbrackets : ∀ b b' : Brackets, b.recast f = b'.recast f →
      Counterparts f b.atomics b'.atomics := by
    intro b b' h
    rw [Counterparts, ← Brackets.atomics_recast, h, Brackets.atomics_recast]
  unfold condition
  refine Accords.cases (R := fun c c' => Counterparts f c.atomics c'.atomics) ?_
    (fun c c' hc => .pure hc) .fail
  unfold condition?
  refine (accords_take? (by decide)).cases (fun opening opening' hopening => ?_) ?_
  · refine (accords_brackets? (accords_brackets n) .angle).bind fun p p' hp => ?_
    refine (accords_take? (by decide)).bind fun id id' hid => ?_
    refine (accords_take (by decide)).bind fun closing closing' hclosing => .pure (.some ?_)
    cases hp with
    | none => rfl
    | some hp => exact hbrackets _ _ hp
  · exact (accords_brackets? (accords_brackets n) .angle).map hbrackets

theorem accords_count :
    Accords f (fun a a' => Counterparts f a.atomics a'.atomics) (argument (brackets n))
      (argument (brackets n)) := by
  refine (accords_argument (accords_brackets n)).imp fun a a' h => ?_
  rw [Counterparts, ← Argument.atomics_recast, h, Argument.atomics_recast]

include hm

theorem accords_elseBranch? :
    Accords f (Option.Rel fun b b' => Counterparts f b.atomics b'.atomics) (elseBranch? clause)
      (elseBranch? clause) := by
  unfold elseBranch?
  refine (accords_take? (by decide)).cases (fun keyword keyword' _ => ?_) (.pure .none)
  exact hm.bind fun body body' hbody => .pure (.some hbody)

theorem accords_ifElse? :
    Accords f (Option.Rel fun c c' => Counterparts f c.atomics c'.atomics)
      (ifElse? (brackets n) clause) (ifElse? (brackets n) clause) := by
  unfold ifElse?
  refine .start fun _ _ => ?_
  refine (accords_take? (by decide)).cases (fun keyword keyword' _ => ?_) (.pure .none)
  refine accords_condition.bind fun condition condition' hcondition => ?_
  refine (accords_take? (by decide)).bind fun thenWord thenWord' _ => ?_
  refine accords_annotations?.bind fun annotations annotations' _ => ?_
  refine hm.bind fun body body' hbody => ?_
  refine (accords_elseBranch? hm).bind fun otherwise otherwise' hotherwise => ?_
  refine .lastEnd fun _ _ => .pure (.some ?_)
  cases hotherwise with
  | none => exact hcondition.append hbody
  | some hbranch => exact (hcondition.append hbody).append hbranch

theorem accords_loop? {α : Type} {word : Kind} (hword : word ≠ .delimiter) {head : Parser α}
    {make : Token → α → Option Annotations → Clause → Span → Composite} {φ : α → List Atomic}
    (hhead : Accords f (fun a a' => Counterparts f (φ a) (φ a')) head head)
    (hmake : ∀ keyword a annotations body span,
      (make keyword a annotations body span).atomics = φ a ++ body.atomics) :
    Accords f (Option.Rel fun c c' => Counterparts f c.atomics c'.atomics)
      (loop? clause word head make) (loop? clause word head make) := by
  unfold loop?
  refine .start fun _ _ => ?_
  refine (accords_take? hword).cases (fun keyword keyword' _ => ?_) (.pure .none)
  refine hhead.bind fun a a' ha => ?_
  refine accords_annotations?.bind fun annotations annotations' _ => ?_
  refine hm.bind fun body body' hbody => .lastEnd fun _ _ => .pure (.some ?_)
  rw [hmake, hmake]
  exact ha.append hbody

theorem accords_forever? :
    Accords f (Option.Rel fun c c' => Counterparts f c.atomics c'.atomics) (forever? clause)
      (forever? clause) := by
  have hhead : Accords f (fun _ _ => Counterparts f [] []) (pure () : Parser Unit) (pure ()) :=
    .pure rfl
  exact accords_loop? hm (by decide) hhead fun _ _ _ _ _ => rfl

theorem accords_repeatTimes? :
    Accords f (Option.Rel fun c c' => Counterparts f c.atomics c'.atomics)
      (repeatTimes? (brackets n) clause) (repeatTimes? (brackets n) clause) :=
  accords_loop? hm (by decide) accords_count fun _ _ _ _ _ => rfl

theorem accords_repeatUntil? :
    Accords f (Option.Rel fun c c' => Counterparts f c.atomics c'.atomics)
      (repeatUntil? (brackets n) clause) (repeatUntil? (brackets n) clause) :=
  accords_loop? hm (by decide) accords_condition fun _ _ _ _ _ => rfl

theorem accords_composite? :
    Accords f (Option.Rel fun c c' => Counterparts f c.atomics c'.atomics)
      (composite? (brackets n) clause) (composite? (brackets n) clause) := by
  unfold composite?
  refine (accords_ifElse? hm).cases (fun _ _ h => .pure (.some h)) ?_
  refine (accords_forever? hm).cases (fun _ _ h => .pure (.some h)) ?_
  refine (accords_repeatTimes? hm).cases (fun _ _ h => .pure (.some h)) ?_
  exact accords_repeatUntil? hm

theorem accords_block? :
    Accords f (Option.Rel fun b b' => Counterparts f b.atomics b'.atomics)
      (block? (brackets n) clause) (block? (brackets n) clause) := by
  unfold block?
  refine (accords_atomic? (accords_brackets n) (readsBrackets n)).cases
    (fun a a' ha => .pure (.some ?_)) ?_
  · rw [Counterparts, Block.atomics, Block.atomics, ← Atomic.atomics_recast, ha,
      Atomic.atomics_recast]
  · exact (accords_composite? hm).map fun _ _ h => h

omit hm in
/-- No block begins with a delimiter, so that the next block is seen on both sides or on none. -/
theorem accords_seesNextBlock : Accords f Eq seesNextBlock seesNextBlock := by
  intro s s' hs a t hp
  have hspent : ∀ r : Cursor, Spent r.rest.tail →
      seesNextBlock r = .ok (false, r.note [.delimiter]) := by
    intro r hr
    unfold seesNextBlock
    rcases hrest : r.rest with _ | ⟨t, _ | ⟨u, ts⟩⟩
    · rfl
    · rfl
    · have hlead : Rule.block.lead.contains .delimiter = false := by decide
      rw [hrest] at hr
      simp only [hr u List.mem_cons_self, hlead, Bool.and_false]
  have hsees : ∃ b, seesNextBlock s = .ok (b, s.note [.delimiter]) ∧
      seesNextBlock s' = .ok (b, s'.note [.delimiter]) := by
    generalize hts : s.rest = ts, hus : s'.rest = us at hs
    cases hs with
    | spent left right =>
      exact ⟨false, hspent s (hts ▸ left.tail), hspent s' (hus ▸ right.tail)⟩
    | cons twins later =>
      cases later with
      | spent left right => exact ⟨false, hspent s (hts ▸ left), hspent s' (hus ▸ right)⟩
      | cons twins' _ =>
        unfold seesNextBlock
        rw [hts, hus]
        exact ⟨_, rfl, by simp only [twins.kind, twins'.kind]⟩
  obtain ⟨b, hb, hb'⟩ := hsees
  rw [hb] at hp
  cases hp
  exact ⟨_, _, hb', rfl, hs⟩

theorem accords_nextBlock? :
    Accords f (Option.Rel fun b b' => Counterparts f b.atomics b'.atomics)
      (nextBlock? (brackets n) clause) (nextBlock? (brackets n) clause) := by
  unfold nextBlock?
  refine accords_seesNextBlock.bind fun seen seen' h => ?_
  subst h
  cases seen with
  | false => exact .pure .none
  | true => exact accords_delimiter.bind fun _ _ _ => accords_block? hm

theorem accords_stack? (hc : ∀ r, Follows n r clause (.rule .clause) fun _ => True) :
    Accords f (Option.Rel fun s s' => Counterparts f s.atomics s'.atomics)
      (stack? (brackets n) clause) (stack? (brackets n) clause) := by
  have htrailing : Accords f (fun _ _ => True) trailingDelimiter trailingDelimiter := by
    refine accords_delimiter.bind fun delimiter delimiter' _ => ?_
    rcases delimiter with _ | _ <;> rcases delimiter' with _ | _ <;>
      · rintro s s' hs a t ⟨⟩
        exact ⟨(), _, rfl, trivial, hs⟩
  unfold stack?
  refine .start fun _ _ => ?_
  refine (accords_block? hm).cases (fun first first' hfirst => ?_) (.pure .none)
  refine (Accords.many (nextBlock?_lt hc) (accords_nextBlock? hm)).bind fun later later' hl => ?_
  refine .lastEnd fun _ _ => htrailing.bind fun _ _ _ => .pure (.some ?_)
  rw [Stack.atomics, Stack.atomics, Block.atomicsOfAll_eq_flatMap, Block.atomicsOfAll_eq_flatMap]
  exact .flatMap (.cons hfirst hl)

end Stack

theorem accords_clause : ∀ n : Nat,
    Accords f (fun c c' => Counterparts f c.atomics c'.atomics) (clause n) (clause n)
  | 0 => .fail
  | n + 1 => by
    refine accords_delimiter.bind fun delimiter delimiter' _ => ?_
    refine (accords_stack? (accords_clause n) (follows_clause n)).bind fun body body' hbody => ?_
    refine (accords_take? (by decide)).bind fun closing closing' _ => .pure ?_
    cases hbody with
    | none => rfl
    | some hbody => exact hbody

end Parser

end BlockNotation
