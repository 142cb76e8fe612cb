import BlockNotation.Proofs.Script.Layout
import BlockNotation.Proofs.Script.Verdict

/-!
# Parsers keep track of the tokens they take

A parser measures a node by asking where the next token starts before it takes the first, and where
the last one ended afterwards. `Tracks` says that these answers are right: whatever a parser does,
it has taken some tokens, and the cursor knows where the last of them ends. If it succeeds, its
value lies over the tokens as it should, and if it fails, it points at the token after them, or at
their end where there is none. This is shown of one parser after the other, up to whole scripts
(`tracks_script`).
-/

namespace BlockNotation

/-- The span of the first of some tokens; empty, where the tokens before them end, if there is
none. -/
def Span.next (stop : Nat) : List Token → Span
  | [] => ⟨stop, stop⟩
  | t :: _ => t.span

theorem Cursor.nextSpan_eq (s : Cursor) : s.nextSpan = .next s.lastEnd s.rest := by
  unfold Cursor.nextSpan
  cases s.rest <;> rfl

variable {α β : Type}

/-- An outcome of a parser at `s`. The tokens `before` were taken earlier, and those before them
ended at `stop`; `P` is true of all tokens taken and the value. -/
inductive Tracked (stop : Nat) (before : List Token) (P : List Token → α → Prop) (s : Cursor) :
    Except Failure (α × Cursor) → Prop where
  | ok {a : α} {s' : Cursor} {w : List Token} (rest : s.rest = w ++ s'.rest)
      (lastEnd : s'.lastEnd = endOf stop (before ++ w)) (value : P (before ++ w) a) :
      Tracked stop before P s (.ok (a, s'))
  | error {f : Failure} {w left : List Token} (rest : s.rest = w ++ left)
      (found : f.found = left.head?) (span : f.span = .next (endOf stop (before ++ w)) left) :
      Tracked stop before P s (.error f)

namespace Tracked

variable {stop : Nat} {before w : List Token} {P : List Token → α → Prop} {s s' : Cursor}
  {res : Except Failure (α × Cursor)}

/-- What was taken on the way to a parser belongs to its outcome. -/
theorem prepend (hrest : s.rest = w ++ s'.rest) (h : Tracked stop (before ++ w) P s' res) :
    Tracked stop before P s res := by
  cases h with
  | ok rest lastEnd value =>
    rw [List.append_assoc] at lastEnd value
    exact .ok (by rw [hrest, rest, List.append_assoc]) lastEnd value
  | error rest found span =>
    rw [List.append_assoc] at span
    exact .error (by rw [hrest, rest, List.append_assoc]) found span

/-- What was taken earlier does not change what a parser does. -/
theorem frame (h : Tracked (endOf stop before) [] P s res) :
    Tracked stop before (fun w a => ∃ u, w = before ++ u ∧ P u a) s res := by
  cases h with
  | @ok a s' w rest lastEnd value =>
    rw [List.nil_append, ← endOf_append] at lastEnd
    exact .ok rest lastEnd ⟨w, rfl, value⟩
  | error rest found span =>
    rw [List.nil_append, ← endOf_append] at span
    exact .error rest found span

end Tracked

/-- Every outcome of a parser, where the tokens `before` were taken earlier, is tracked. -/
def Tracks (before : List Token) (p : Parser α) (P : List Token → α → Prop) : Prop :=
  ∀ s stop, s.lastEnd = endOf stop before → Tracked stop before P s (p s)

/-- The tokens of a repetition are those of its rounds, also of the last, which gives nothing. -/
inductive RoundsOver (R : List Token → Option α → Prop) : List Token → List α → Prop where
  | stop : RoundsOver R [] []
  | last {w : List Token} (round : R w none) : RoundsOver R w []
  | next {w v : List Token} {a : α} {as : List α} (round : R w (some a))
      (later : RoundsOver R v as) : RoundsOver R (w ++ v) (a :: as)

namespace Tracks

variable {before : List Token} {P P' : List Token → α → Prop} {Q : List Token → β → Prop}

theorem imp {p : Parser α} (h : Tracks before p P) (hP : ∀ w a, P w a → P' w a) :
    Tracks before p P' := by
  intro s stop hs
  have hp := h s stop hs
  generalize p s = res at hp
  cases hp with
  | ok rest lastEnd value => exact .ok rest lastEnd (hP _ _ value)
  | error rest found span => exact .error rest found span

theorem pure {a : α} (h : P before a) : Tracks before (pure a) P := by
  intro s stop hs
  refine .ok (w := []) rfl ?_ ?_ <;> rwa [List.append_nil]

theorem fail {cause : Cause} : Tracks before (Parser.fail cause) P := by
  intro s stop hs
  refine .error (w := []) rfl rfl ?_
  rw [List.append_nil, ← hs]
  exact s.nextSpan_eq

/-- A parser that only looks. -/
theorem stay {p : Parser α}
    (h : ∀ s, ∃ a s', p s = .ok (a, s') ∧ s'.rest = s.rest ∧ s'.lastEnd = s.lastEnd) :
    Tracks [] p fun w _ => w = [] := by
  intro s stop hs
  obtain ⟨a, s', hp, hrest, hend⟩ := h s
  rw [hp]
  exact .ok (w := []) hrest.symm (hend.trans hs) rfl

theorem frame {p : Parser α} (h : Tracks [] p P) (before : List Token) :
    Tracks before p fun w a => ∃ u, w = before ++ u ∧ P u a :=
  fun s _ hs => (h s _ hs).frame

theorem bind {p : Parser α} {g : α → Parser β} (hp : Tracks [] p P)
    (hg : ∀ a w, P w a → Tracks (before ++ w) (g a) Q) : Tracks before (p >>= g) Q := by
  intro s stop hs
  have h := hp.frame before s stop hs
  change Tracked stop before Q s ((p s).bind fun x => g x.1 x.2)
  generalize p s = res at h
  cases h with
  | error rest found span => exact .error rest found span
  | @ok a s' w rest lastEnd value =>
    obtain ⟨u, hu, ha⟩ := value
    obtain rfl := List.append_cancel_left hu
    exact (hg a w ha s' stop lastEnd).prepend rest

/-- The start asked for at first is that of the first token, if one is taken. -/
theorem start {g : Nat → Parser α}
    (h : ∀ n, Tracks [] (g n) fun w a => (w ≠ [] → n = Cursor.startOf 0 w) → P w a) :
    Tracks [] (Parser.start >>= g) P := by
  intro s stop hs
  have hg := h s.start s stop hs
  change Tracked stop [] P s (g s.start s)
  generalize g s.start s = res at hg
  cases hg with
  | error rest found span => exact .error rest found span
  | ok rest lastEnd value =>
    refine .ok rest lastEnd (value fun hw => ?_)
    rw [Cursor.start, rest]
    exact startOf_append hw _ _ _

/-- The end asked for after some tokens is that of the last. -/
theorem lastEnd {g : Nat → Parser α}
    (h : ∀ n, (before ≠ [] → n = endOf 0 before) → Tracks before (g n) P) :
    Tracks before (Parser.lastEnd >>= g) P := by
  intro s stop hs
  refine h s.lastEnd (fun hne => ?_) s stop hs
  rw [hs, endOf_eq_getLast hne, endOf_eq_getLast hne]

theorem many {p : Parser (Option α)} {R : List Token → Option α → Prop} (h : Tracks [] p R) :
    Tracks [] (Parser.many p) (RoundsOver R) := by
  intro s stop hs
  induction hn : s.ahead using Nat.strongRecOn generalizing s stop with
  | ind n ih =>
    subst hn
    have hround := h s stop hs
    rw [Parser.many, repetition]
    generalize p s = res at hround
    cases hround with
    | error rest found span => exact .error rest found span
    | @ok o s' w rest lastEnd value =>
      rw [List.nil_append] at lastEnd value
      cases o with
      | none => exact .ok rest lastEnd (.last value)
      | some a =>
        dsimp only
        split
        · rename_i hlt
          have hlater := (ih _ hlt s' (endOf stop w) lastEnd rfl).frame
          refine Tracked.prepend rest ?_
          rw [Parser.many] at hlater
          generalize repetition Cursor.ahead p s' = res at hlater
          cases hlater with
          | error rest found span => exact .error rest found span
          | ok rest lastEnd later =>
            obtain ⟨u, hu, later⟩ := later
            have hrounds := RoundsOver.next value later
            rw [← hu] at hrounds
            exact .ok rest lastEnd hrounds
        · refine .ok rest lastEnd ?_
          have hrounds := RoundsOver.next value .stop
          rwa [List.append_nil] at hrounds

end Tracks

namespace Parser

theorem tracks_takeAny (ks : List Kind) :
    Tracks [] (takeAny ks) fun w o => w = o.toList ∧ ∀ t ∈ o, t.kind ∈ ks := by
  intro s stop hs
  by_cases h : ∀ k ∈ (kindsOf s.rest).head?, k ∉ ks
  · rw [takeAny_of_not_mem h]
    exact .ok (w := []) rfl hs (by simp)
  · cases hrest : s.rest with
    | nil => simp [hrest] at h
    | cons t rest =>
      have ht : t.kind ∈ ks := by simpa [hrest] using h
      obtain ⟨s', hrun, hreach, hend⟩ := takeAny_of_mem hrest ht
      rw [hrun]
      exact .ok hreach.rest hend (by simpa using ht)

theorem tracks_take? (k : Kind) :
    Tracks [] (take? k) fun w o => w = o.toList ∧ ∀ t ∈ o, t.kind = k :=
  (tracks_takeAny [k]).imp fun _ _ h => ⟨h.1, fun t ht => List.mem_singleton.1 (h.2 t ht)⟩

theorem tracks_take (r : Rule) (k : Kind) : Tracks [] (take r k) fun w t => w = [t] := by
  unfold take
  refine (tracks_take? k).bind fun o w hw => ?_
  cases o with
  | none => exact .fail
  | some t => exact .pure hw.1

/-! ## Atomic blocks -/

theorem tracks_modifier? : Tracks [] modifier? fun w o =>
    (o.elim [] Modifier.fields).map Field.token = w := by
  unfold modifier?
  refine (tracks_take? .doubleColon).bind fun marker w hw => ?_
  obtain ⟨rfl, -⟩ := hw
  cases marker with
  | none => exact .pure rfl
  | some marker =>
    refine (tracks_take .modifier .label).bind fun label w hw => ?_
    subst hw
    exact .pure rfl

theorem tracks_annotations? : Tracks [] annotations? fun w o => Annotations.tokens o = w := by
  unfold annotations?
  refine (tracks_take? .remark).bind fun remark w hw => ?_
  obtain ⟨rfl, -⟩ := hw
  cases remark with
  | some remark =>
    refine (tracks_take? .identifier).bind fun id w hw => ?_
    obtain ⟨rfl, -⟩ := hw
    refine .pure ?_
    cases id <;> rfl
  | none =>
    refine (tracks_take? .identifier).bind fun id w hw => ?_
    obtain ⟨rfl, -⟩ := hw
    cases id with
    | none => exact .pure rfl
    | some id =>
      refine (tracks_take? .remark).bind fun remark w hw => ?_
      obtain ⟨rfl, -⟩ := hw
      refine .pure ?_
      cases remark <;> rfl

section Atomic

variable {brackets : Shape → Parser Brackets}
  (hb : ∀ shape, Tracks [] (brackets shape) fun w b => Laid w (b.fields shape) b.atomics)

include hb

theorem tracks_brackets? (shape : Shape) : Tracks [] (brackets? brackets shape) fun w o =>
    Laid w (o.elim [] (·.fields shape)) (o.elim [] Brackets.atomics) := by
  have hsees : Tracks [] (sees shape.opening) fun w _ => w = [] :=
    .stay fun s => ⟨_, _, rfl, rfl, rfl⟩
  unfold brackets?
  refine hsees.bind fun b w hw => ?_
  subst hw
  cases b with
  | false => exact .pure laid_nil
  | true =>
    refine (hb shape).bind fun b w hw => ?_
    exact .pure hw

theorem tracks_value? : Tracks [] (value? brackets) fun w o =>
    Laid w (o.elim [] Value.fields) (o.elim [] Value.atomics) := by
  unfold value?
  refine (tracks_takeAny _).bind fun token w hw => ?_
  obtain ⟨rfl, -⟩ := hw
  cases token with
  | some token => exact .pure ⟨by simp [Value.fields], by simp [Value.atomics]⟩
  | none =>
    refine (tracks_brackets? hb .round).bind fun expression w he => ?_
    cases expression with
    | some expression => exact .pure (by simpa [Value.fields, Value.atomics] using he)
    | none =>
      refine (tracks_brackets? hb .angle).bind fun predicate v hp => ?_
      refine .pure ?_
      obtain rfl : [] = w := he.tokens
      cases predicate with
      | some predicate => simpa [Value.fields, Value.atomics] using hp
      | none => exact hp

theorem tracks_argument? : Tracks [] (argument? brackets) fun w o =>
    Laid w (o.elim [] Argument.fields) (o.elim [] Argument.atomics) := by
  unfold argument?
  refine (tracks_take? .openCurly).bind fun opening w hw => ?_
  obtain ⟨rfl, -⟩ := hw
  cases opening with
  | some opening =>
    refine (tracks_value? hb).bind fun value w hv => ?_
    refine (tracks_take? .identifier).bind fun id w hw => ?_
    obtain ⟨rfl, -⟩ := hw
    refine (tracks_take .argument .closeCurly).bind fun closing w hw => ?_
    subst hw
    obtain ⟨rfl, hspans⟩ := hv
    cases value with
    | none => exact .pure ⟨by simp [Argument.fields], by simp [Argument.atomics]⟩
    | some value =>
      exact .pure ⟨by simp [Argument.fields], by simpa [Argument.atomics] using hspans⟩
  | none =>
    refine (tracks_value? hb).bind fun value w hv => ?_
    refine .pure ?_
    cases value with
    | none => exact hv
    | some value => simpa [Argument.fields, Argument.atomics] using hv

theorem tracks_argument :
    Tracks [] (argument brackets) fun w a => Laid w a.fields a.atomics := by
  unfold argument
  refine (tracks_argument? hb).bind fun argument w ha => ?_
  cases argument with
  | none => exact .fail
  | some argument => exact .pure ha

theorem tracks_condition :
    Tracks [] (condition brackets) fun w c => Laid w c.fields c.atomics := by
  have hcondition : Tracks [] (condition? brackets) fun w o =>
      Laid w (o.elim [] Condition.fields) (o.elim [] Condition.atomics) := by
    unfold condition?
    refine (tracks_take? .openCurly).bind fun opening w hw => ?_
    obtain ⟨rfl, -⟩ := hw
    cases opening with
    | some opening =>
      refine (tracks_brackets? hb .angle).bind fun predicate w hp => ?_
      refine (tracks_take? .identifier).bind fun id w hw => ?_
      obtain ⟨rfl, -⟩ := hw
      refine (tracks_take .condition .closeCurly).bind fun closing w hw => ?_
      subst hw
      obtain ⟨rfl, hspans⟩ := hp
      refine .pure ⟨by simp [Condition.fields], ?_⟩
      cases predicate <;> exact hspans
    | none =>
      refine (tracks_brackets? hb .angle).bind fun predicate w hp => ?_
      refine .pure ?_
      cases predicate with
      | none => exact hp
      | some predicate => exact hp
  unfold condition
  refine hcondition.bind fun condition w hc => ?_
  cases condition with
  | none => exact .fail
  | some condition => exact .pure hc

theorem tracks_element? : Tracks [] (element? brackets) fun w o =>
    Laid w (o.elim [] fun e => Element.fieldsOfAll [e])
      (o.elim [] fun e => Element.atomicsOfAll [e]) := by
  unfold element?
  refine (tracks_take? .label).bind fun token w hw => ?_
  obtain ⟨rfl, -⟩ := hw
  cases token with
  | some token =>
    exact .pure ⟨by simp [Element.fieldsOfAll], by simp [Element.atomicsOfAll]⟩
  | none =>
    refine (tracks_argument? hb).bind fun argument w ha => ?_
    refine .pure ?_
    cases argument with
    | none => exact ha
    | some argument => simpa [Element.fieldsOfAll, Element.atomicsOfAll] using ha

theorem tracks_elements : Tracks [] (many (element? brackets)) fun w es =>
    Laid w (Element.fieldsOfAll es) (Element.atomicsOfAll es) := by
  refine (tracks_element? hb).many.imp fun w es h => ?_
  induction h with
  | stop => exact laid_nil
  | last round => exact round
  | @next w v e es round _ ih =>
    have hall := round.append ih
    cases e <;> simpa [Element.fieldsOfAll, Element.atomicsOfAll] using hall

theorem tracks_atomic? : Tracks [] (atomic? brackets) fun w o =>
    Laid w (o.elim [] Atomic.fields) (o.elim [] Atomic.atomics) := by
  unfold atomic?
  refine .start fun start => ?_
  refine (tracks_elements hb).bind fun elements w he => ?_
  cases elements with
  | nil => exact .pure fun _ => he
  | cons e es =>
    refine tracks_modifier?.bind fun modifier u hu => ?_
    refine tracks_annotations?.bind fun annotations v hv => ?_
    refine .lastEnd fun stop hstop => ?_
    refine .pure fun hstart => ?_
    obtain ⟨rfl, hspans⟩ := he
    subst hu hv
    have hne := Element.fieldsOfAll_ne_nil e es
    have htokens := Atomic.tokens_eq ⟨e :: es, modifier, annotations, ⟨start, stop⟩⟩
    have hspan := Span.eq_hull (by simp [hne]) hstart hstop
    refine ⟨htokens, List.forall_mem_cons.2 ⟨⟨by simp [Atomic.fields, hne], ?_⟩, hspans⟩⟩
    exact hspan.trans (congrArg Span.hull htokens.symm)

end Atomic

theorem tracks_brackets : ∀ levels shape,
    Tracks [] (brackets levels shape) fun w b => Laid w (b.fields shape) b.atomics
  | 0, _ => .fail
  | levels + 1, shape => by
    unfold brackets
    refine (tracks_take shape.rule shape.opening).bind fun opening w hw => ?_
    subst hw
    refine (tracks_atomic? (tracks_brackets levels)).bind fun atomic w ha => ?_
    refine (tracks_take shape.rule shape.closing).bind fun closing w hw => ?_
    subst hw
    obtain ⟨rfl, hspans⟩ := ha
    cases atomic with
    | none => exact .pure ⟨by simp [Brackets.fields], by simp [Brackets.atomics]⟩
    | some atomic =>
      exact .pure ⟨by simp [Brackets.fields], by simpa [Brackets.atomics] using hspans⟩

/-! ## Stacks -/

section Stack

variable {levels : Nat} {clause : Parser Clause} (hc : Tracks [] clause fun w c => c.Covers w)

include hc

theorem tracks_elseBranch? :
    Tracks [] (elseBranch? clause) fun w o => o.elim (w = []) (·.Covers w) := by
  unfold elseBranch?
  refine (tracks_take? .elseWord).bind fun keyword w hw => ?_
  obtain ⟨rfl, -⟩ := hw
  cases keyword with
  | none => exact .pure rfl
  | some keyword =>
    refine hc.bind fun body u hbody => ?_
    exact .pure ⟨u, rfl, hbody⟩

theorem tracks_ifElse? :
    Tracks [] (ifElse? (brackets levels) clause) fun w o => o.elim (w = []) (·.Covers w) := by
  unfold ifElse?
  refine .start fun start => ?_
  refine (tracks_take? .ifWord).bind fun keyword w hw => ?_
  obtain ⟨rfl, -⟩ := hw
  cases keyword with
  | none => exact .pure fun _ => rfl
  | some keyword =>
    refine (tracks_condition (tracks_brackets levels)).bind fun condition x hcond => ?_
    refine (tracks_take? .thenWord).bind fun thenWord w hw => ?_
    obtain ⟨rfl, -⟩ := hw
    refine tracks_annotations?.bind fun annotations w hw => ?_
    subst hw
    refine hc.bind fun body u hbody => ?_
    refine (tracks_elseBranch? hc).bind fun otherwise v helse => ?_
    refine .lastEnd fun stop hstop => ?_
    refine .pure fun hstart => ?_
    have hspan := Span.eq_hull (by simp) hstart hstop
    cases otherwise with
    | none =>
      cases helse
      exact ⟨hspan, x, u, by simp, hcond, hbody⟩
    | some branch => exact ⟨hspan, x, u, v, by simp, hcond, hbody, helse⟩

/-- What a loop depends on is one of the things it covers. -/
theorem tracks_loop? {α : Type} {word : Kind} {head : Parser α}
    {make : Token → α → Option Annotations → Clause → Span → Composite} {P : List Token → α → Prop}
    (hhead : Tracks [] head P)
    (hmake : ∀ keyword a annotations body x u, P x a → body.Covers u →
      let w := keyword :: x ++ Annotations.tokens annotations ++ u
      (make keyword a annotations body (.hull w)).Covers w) :
    Tracks [] (loop? clause word head make) fun w o => o.elim (w = []) (·.Covers w) := by
  unfold loop?
  refine .start fun start => ?_
  refine (tracks_take? word).bind fun keyword w hw => ?_
  obtain ⟨rfl, -⟩ := hw
  cases keyword with
  | none => exact .pure fun _ => rfl
  | some keyword =>
    refine hhead.bind fun a x ha => ?_
    refine tracks_annotations?.bind fun annotations w hw => ?_
    subst hw
    refine hc.bind fun body u hbody => ?_
    refine .lastEnd fun stop hstop => ?_
    refine .pure fun hstart => ?_
    rw [Option.elim_some, Span.eq_hull (by simp) hstart hstop]
    exact hmake keyword a annotations body x u ha hbody

theorem tracks_forever? :
    Tracks [] (forever? clause) fun w o => o.elim (w = []) (·.Covers w) := by
  have hhead : Tracks [] (pure () : Parser Unit) fun w _ => w = [] := .pure rfl
  refine tracks_loop? hc hhead ?_
  rintro keyword _ annotations body _ u rfl hbody
  exact ⟨rfl, u, by simp, hbody⟩

theorem tracks_repeatTimes? : Tracks [] (repeatTimes? (brackets levels) clause)
    fun w o => o.elim (w = []) (·.Covers w) :=
  tracks_loop? hc (tracks_argument (tracks_brackets levels))
    fun _ _ _ _ x u hcount hbody => ⟨rfl, x, u, by simp, hcount, hbody⟩

theorem tracks_repeatUntil? : Tracks [] (repeatUntil? (brackets levels) clause)
    fun w o => o.elim (w = []) (·.Covers w) :=
  tracks_loop? hc (tracks_condition (tracks_brackets levels))
    fun _ _ _ _ x u hcond hbody => ⟨rfl, x, u, by simp, hcond, hbody⟩

theorem tracks_composite? :
    Tracks [] (composite? (brackets levels) clause) fun w o => o.elim (w = []) (·.Covers w) := by
  unfold composite?
  refine (tracks_ifElse? hc).bind fun composite w h => ?_
  cases composite with
  | some composite => exact .pure h
  | none =>
    cases h
    refine (tracks_forever? hc).bind fun composite w h => ?_
    cases composite with
    | some composite => exact .pure h
    | none =>
      cases h
      refine (tracks_repeatTimes? hc).bind fun composite w h => ?_
      cases composite with
      | some composite => exact .pure h
      | none =>
        cases h
        exact tracks_repeatUntil? hc

theorem tracks_block? :
    Tracks [] (block? (brackets levels) clause) fun w o => o.elim (w = []) (·.Covers w) := by
  unfold block?
  refine (tracks_atomic? (tracks_brackets levels)).bind fun atomic w ha => ?_
  cases atomic with
  | some atomic => exact .pure ha
  | none =>
    obtain rfl : [] = w := ha.tokens
    refine (tracks_composite? hc).bind fun composite w h => ?_
    refine .pure ?_
    cases composite <;> exact h

variable (hf : ∀ r, Follows levels r clause (.rule .clause) fun _ => True)

include hf

theorem tracks_nextBlock? : Tracks [] (nextBlock? (brackets levels) clause) fun w o =>
    o.elim (w = []) fun b => Block.Follow [b] w := by
  intro s stop hs
  by_cases hgo : scriptTable.goesOn .stack (.seq [.token .delimiter, .rule .block])
      (kindsOf s.rest) = true
  · -- With a block in sight behind the delimiter, neither of the two optional steps comes back
    -- empty, so no delimiter is taken without its block.
    obtain ⟨t, s', ht, hreach, hend, ho, hrun⟩ := nextBlock?_goesOn levels clause hgo
    rw [hrun]
    refine Tracked.prepend hreach.rest ?_
    have hblock : Tracked stop ([] ++ [t]) _ s' (block? (brackets levels) clause s') :=
      (tracks_block? hc).frame _ s' stop hend
    have hopens : Agrees levels .stack _ _ _ s' (block? (brackets levels) clause s') :=
      (opens_block? hf).taken s' ho
    generalize block? (brackets levels) clause s' = res at hblock hopens
    cases hblock with
    | error rest found span => exact .error rest found span
    | ok rest lastEnd value =>
      cases hopens with
      | done hsome =>
        obtain ⟨b, rfl⟩ := Option.isSome_iff_exists.1 hsome
        obtain ⟨u, hu, hb⟩ := value
        exact .ok rest lastEnd ⟨t, u, [], by simpa using hu, ht, hb, rfl⟩
  · rw [nextBlock?_run, if_neg hgo]
    exact .ok (w := []) rfl hs rfl

theorem tracks_nextBlocks :
    Tracks [] (many (nextBlock? (brackets levels) clause)) fun w bs => Block.Follow bs w := by
  refine (tracks_nextBlock? hc hf).many.imp fun w bs h => ?_
  induction h with
  | stop => rfl
  | last round => exact round
  | next round _ ih =>
    obtain ⟨t, u, v, rfl, ht, hu, rfl⟩ := round
    exact ⟨t, u, _, by simp, ht, hu, ih⟩

omit hc hf in
theorem tracks_trailingDelimiter : Tracks [] trailingDelimiter fun w _ =>
    ∃ d : Option Token, w = d.toList ∧ ∀ t ∈ d, t.kind = .delimiter := by
  have hnote : Tracks [] (note Rule.block.lead) fun w _ => w = [] :=
    .stay fun s => ⟨_, _, rfl, rfl, rfl⟩
  unfold trailingDelimiter
  refine (tracks_take? .delimiter).bind fun d w hw => ?_
  cases d with
  | none => exact .pure ⟨none, hw⟩
  | some t =>
    refine (hnote.frame _).imp ?_
    rintro _ _ ⟨u, rfl, rfl⟩
    exact ⟨some t, by simpa using hw⟩

theorem tracks_stack? :
    Tracks [] (stack? (brackets levels) clause) fun w o => o.elim (w = []) (·.Covers w) := by
  unfold stack?
  refine .start fun start => ?_
  refine (tracks_block? hc).bind fun first u hfirst => ?_
  cases first with
  | none => exact .pure fun _ => hfirst
  | some first =>
    refine (tracks_nextBlocks hc hf).bind fun later v hlater => ?_
    refine .lastEnd fun stop hstop => ?_
    refine tracks_trailingDelimiter.bind fun _ w hw => ?_
    obtain ⟨d, rfl, hd⟩ := hw
    -- The end was asked for before the last delimiter, the start holds with or without it.
    refine .pure fun hstart => ⟨u, v, d, rfl, hfirst, hlater, hd, ?_⟩
    have hne : u ++ v ≠ [] := by simp [hfirst.ne_nil]
    refine Span.eq_hull hne (fun _ => ?_) hstop
    exact (hstart (by simp [hfirst.ne_nil])).trans (startOf_append hne 0 0 d.toList)

end Stack

theorem tracks_clause : ∀ levels, Tracks [] (clause levels) fun w c => c.Covers w
  | 0 => .fail
  | levels + 1 => by
    unfold clause
    refine (tracks_take? .delimiter).bind fun delimiter w hw => ?_
    obtain ⟨rfl, -⟩ := hw
    have hstack := tracks_stack? (tracks_clause levels) (follows_clause levels)
    refine hstack.bind fun body u hbody => ?_
    refine (tracks_take? .endWord).bind fun closing w hw => ?_
    obtain ⟨rfl, -⟩ := hw
    refine .pure ?_
    cases body with
    | none =>
      cases hbody
      simp [Clause.Covers]
    | some body => exact ⟨u, by simp, hbody⟩

theorem tracks_stackWithin? (levels : Nat) :
    Tracks [] (stackWithin? levels) fun w o => o.elim (w = []) (·.Covers w) :=
  tracks_stack? (tracks_clause levels) (follows_clause levels)

/-! ## Scripts -/

theorem tracks_delimiters :
    Tracks [] (many (take? .delimiter)) fun w _ => ∀ t ∈ w, t.kind = .delimiter := by
  refine (tracks_take? .delimiter).many.imp fun w _ h => ?_
  induction h with
  | stop => simp
  | last round => simp [round.1]
  | next round _ ih =>
    obtain ⟨rfl, hkind⟩ := round
    exact List.forall_mem_append.2 ⟨by simpa using hkind, ih⟩

theorem tracks_nextRemark? : Tracks [] nextRemark? fun w o =>
    ∃ ds, w = ds ++ o.toList ∧ ∀ t ∈ ds, t.kind = .delimiter := by
  unfold nextRemark?
  refine tracks_delimiters.bind fun _ ds hds => ?_
  refine ((tracks_take? .remark).frame ds).imp ?_
  rintro _ o ⟨_, rfl, rfl, -⟩
  exact ⟨ds, rfl, hds⟩

/-- Delimiters after the last remark are taken by the round that finds no other. -/
theorem tracks_nextRemarks : Tracks [] (many nextRemark?) fun w later =>
    ∃ m ds, w = m ++ ds ∧ (∀ t ∈ ds, t.kind = .delimiter) ∧ m.getLast? = later.getLast? := by
  refine tracks_nextRemark?.many.imp fun w later h => ?_
  induction h with
  | stop => exact ⟨[], [], rfl, by simp, rfl⟩
  | last round =>
    obtain ⟨ds, rfl, hds⟩ := round
    exact ⟨[], ds, by simp, hds, rfl⟩
  | @next w v t later round _ ih =>
    obtain ⟨ds, rfl, -⟩ := round
    obtain ⟨m, ds', rfl, hds', hlast⟩ := ih
    refine ⟨ds ++ [t] ++ m, ds', by simp, hds', ?_⟩
    rw [List.append_assoc, List.getLast?_append, List.singleton_append, List.getLast?_cons,
      List.getLast?_cons, hlast]
    rfl

theorem tracks_comments? :
    Tracks [] comments? fun w o => o.elim (w = []) (·.Covers w) := by
  unfold comments?
  refine (tracks_take? .remark).bind fun first w hw => ?_
  obtain ⟨rfl, -⟩ := hw
  cases first with
  | none => exact .pure rfl
  | some first =>
    refine tracks_nextRemarks.bind fun later w hw => ?_
    obtain ⟨m, ds, rfl, hds, hlast⟩ := hw
    have hlast : (first :: m).getLast? = some (later.getLast?.getD first) := by
      rw [List.getLast?_cons, hlast]
    refine .pure ⟨first :: m, ds, rfl, by simp, hds, ?_, ?_⟩
    · rw [hlast, List.getLast?_cons]
    · rw [Span.hull, endOf, hlast]
      rfl

theorem tracks_separator? : Tracks [] separator? fun _ o =>
    ∀ ss ∈ o, ss.filterMap Segment.stack? = [] := by
  unfold separator?
  refine (tracks_take? .delimiter).bind fun delimiter w _ => ?_
  cases delimiter with
  | some _ => exact .pure (by simp)
  | none =>
    refine tracks_comments?.bind fun comments w _ => ?_
    exact .pure (by simp [Segment.stack?])

theorem tracks_separators : Tracks [] (many separator?) fun _ sss =>
    sss.flatten.filterMap Segment.stack? = [] := by
  refine tracks_separator?.many.imp fun w sss h => ?_
  induction h with
  | stop | last => rfl
  | next round _ ih => simp [round, ih]

theorem tracks_nextSegments? (levels : Nat) :
    Tracks [] (nextSegments? (stackWithin? levels)) fun w o =>
      Stack.Strewn ((o.getD []).filterMap Segment.stack?) w := by
  unfold nextSegments?
  refine tracks_separators.bind fun separators w hsep => ?_
  cases separators with
  | nil => exact .pure trivial
  | cons first later =>
    refine (tracks_stackWithin? levels).bind fun stack u hstack => ?_
    refine .pure ?_
    rw [Option.getD_some, List.filterMap_append, hsep]
    cases stack with
    | none => exact trivial
    | some stack => exact ⟨w, u, [], by simp, hstack, trivial⟩

theorem tracks_segments (levels : Nat) : Tracks [] (segments (stackWithin? levels)) fun w ss =>
    Stack.Strewn (ss.filterMap Segment.stack?) w := by
  have hlater : Tracks [] (many (nextSegments? (stackWithin? levels))) fun w sss =>
      Stack.Strewn (sss.flatten.filterMap Segment.stack?) w := by
    refine (tracks_nextSegments? levels).many.imp fun w sss h => ?_
    induction h with
    | stop | last => exact trivial
    | next round _ ih =>
      rw [List.flatten_cons, List.filterMap_append]
      exact round.append ih
  unfold segments
  refine (tracks_stackWithin? levels).bind fun first u hfirst => ?_
  cases first with
  | none => exact .pure trivial
  | some first =>
    refine hlater.bind fun later v hlater => ?_
    exact .pure ⟨[], u, v, by simp, hfirst, hlater⟩

theorem tracks_code (levels id : Nat) : Tracks [] (code (stackWithin? levels) id) fun w c =>
    Stack.Strewn c.stackList w := by
  unfold code
  refine .start fun start => ?_
  refine tracks_delimiters.bind fun _ u _ => ?_
  refine tracks_comments?.bind fun comments v _ => ?_
  refine (tracks_segments levels).bind fun segments w hw => ?_
  refine .lastEnd fun stop _ => ?_
  refine .pure fun _ => ?_
  rw [Code.stackList_eq]
  exact hw.prepend _

theorem tracks_finish : Tracks [] finish fun w _ => w = [] := by
  intro s stop hs
  rw [finish_run]
  split
  · exact .ok (w := []) rfl hs rfl
  · exact Tracks.fail s stop hs

/-- The stacks of a script lie over its tokens, and a failure points at the token after those
taken. -/
theorem tracks_script (levels id : Nat) : Tracks [] (script levels id) fun w c =>
    Stack.Strewn c.stackList w := by
  unfold script
  refine (tracks_code levels id).bind fun code u hcode => ?_
  refine tracks_finish.bind fun _ v hv => ?_
  subst hv
  refine .pure ?_
  simpa using hcode

end Parser

/-- What holds of the lines of a script holds of all its atomic blocks. -/
theorem parseTokensWithin_spread {P : List Token → List Atomic → Prop} (hP : Spreads P)
    {limit id : Nat} {ts : List Token} {code : Code}
    (h : parseTokensWithin limit ts id = .ok code) : P ts code.atomicBlocks := by
  have hrun := Parser.tracks_script limit id (.ofTokens ts) _ rfl
  unfold parseTokensWithin at h
  generalize Parser.script limit id (.ofTokens ts) = res at h hrun
  cases hrun with
  | error => cases h
  | @ok c s w rest _ hstrewn =>
    cases h
    have hts : ts = w ++ s.rest := rest
    rw [hts]
    exact hP.mono (hstrewn.spread hP) (List.prefix_append w s.rest).isInfix

end BlockNotation
