import BlockNotation.Proofs.Grammar.Nesting
import BlockNotation.Proofs.Grammar.ScriptTable
import BlockNotation.Script.Parse

/-!
# Parsers that follow a production

A parser follows a production of the script grammar if every run of it is the committed-choice
reading of that production (`Follows`): both end at the same token, both get stuck at the same
token, and a parser that runs out of levels does so where the reading would open one too many. The
kinds it leaves in the cursor are the ones that could have prolonged the reading.

A parser of something that may be absent opens a production (`Opens`): it follows the production
if the next kind can begin it, and otherwise gives `none` and remembers the kinds that can.

The combinators of parsers keep these relations; what is special to one parser is in
`BlockNotation.Proofs.Script.Predictive`.
-/

namespace BlockNotation

/-- The kinds of some tokens. -/
def kindsOf (ts : List Token) : List Kind := ts.map Token.kind

@[simp] theorem kindsOf_nil : kindsOf [] = [] := rfl

@[simp] theorem kindsOf_cons (t : Token) (ts : List Token) :
    kindsOf (t :: ts) = t.kind :: kindsOf ts := rfl

@[simp] theorem kindsOf_append (ts us : List Token) :
    kindsOf (ts ++ us) = kindsOf ts ++ kindsOf us := List.map_append

@[simp] theorem length_kindsOf (ts : List Token) : (kindsOf ts).length = ts.length :=
  List.length_map _

@[simp] theorem lookedFor_kindsOf (w : List Token) (before after : List Kind) :
    lookedFor (kindsOf w) before after = lookedFor w before after := by cases w <;> rfl

theorem exists_kindsOf : ∀ ks : List Kind, ∃ ts, kindsOf ts = ks
  | [] => ⟨[], rfl⟩
  | k :: ks => by
    obtain ⟨ts, rfl⟩ := exists_kindsOf ks
    exact ⟨{ (default : Token) with kind := k } :: ts, rfl⟩

namespace Cursor

/-- From `s` the tokens `w` were taken, and then the kinds `wanted` looked for. -/
structure Reaches (s s' : Cursor) (w : List Token) (wanted : List Kind) : Prop where
  rest : s.rest = w ++ s'.rest
  index : s'.index = s.index + w.length
  tried : s'.tried = lookedFor w s.tried wanted

/-- From `s` the tokens `w` were taken, and in front of `rest` the failure `f` arose. -/
structure Halts (s : Cursor) (f : Failure) (w left : List Token) : Prop where
  rest : s.rest = w ++ left
  index : f.index = s.index + w.length
  found : f.found = left.head?

variable {s s₁ s₂ : Cursor} {w v rest : List Token} {m m' ks : List Kind} {f : Failure}

theorem note_note : (s.note m).note m' = s.note (m ++ m') := by simp [note]

theorem Reaches.refl : s.Reaches s [] [] := ⟨rfl, rfl, by simp⟩

theorem Reaches.trans (h : s.Reaches s₁ w m) (h' : s₁.Reaches s₂ v m') :
    s.Reaches s₂ (w ++ v) (lookedFor v m m') where
  rest := by rw [h.rest, h'.rest, List.append_assoc]
  index := by rw [h'.index, h.index, List.length_append, Nat.add_assoc]
  tried := by rw [h'.tried, h.tried, lookedFor_append]

theorem Reaches.halts (h : s.Reaches s₁ w m) (h' : s₁.Halts f v rest) :
    s.Halts f (w ++ v) rest where
  rest := by rw [h.rest, h'.rest, List.append_assoc]
  index := by rw [h'.index, h.index, List.length_append, Nat.add_assoc]
  found := h'.found

theorem reaches_note : s.Reaches (s.note ks) [] ks := ⟨rfl, rfl, rfl⟩

/-- What was looked for before the first token does not matter after it. -/
theorem Reaches.of_note (h : (s.note ks).Reaches s₁ w m) (hw : 1 ≤ w.length) :
    s.Reaches s₁ w m where
  rest := h.rest
  index := h.index
  tried := by
    cases w with
    | nil => simp at hw
    | cons => exact h.tried

end Cursor

theorem bind_run_congr {α β : Type} {p p' : Parser α} {g : α → Parser β} {s s' : Cursor}
    (h : p s = p' s') : (p >>= g) s = (p' >>= g) s' := by
  change (p s).bind _ = (p' s').bind _
  rw [h]

theorem bind_run_ok {α β : Type} {p : Parser α} {g : α → Parser β} {s s' : Cursor} {a : α}
    (h : p s = .ok (a, s')) : (p >>= g) s = g a s' := by
  change (p s).bind _ = _
  rw [h]
  rfl

theorem of_bind_run {α β : Type} {p : Parser α} {g : α → Parser β} {s s'' : Cursor} {b : β}
    (h : (p >>= g) s = .ok (b, s'')) : ∃ a s', p s = .ok (a, s') ∧ g a s' = .ok (b, s'') := by
  change (p s).bind _ = _ at h
  cases hp : p s with
  | error e => rw [hp] at h; cases h
  | ok x => exact ⟨x.1, x.2, rfl, by rw [hp] at h; exact h⟩

/-- An outcome of a parser at `s` is that of reading `q`, with at least `m` tokens taken, and with
`P` true of its value. -/
inductive Agrees {α : Type} (n : Nat) (r : Rule) (q : Production) (P : α → Prop) (m : Nat)
    (s : Cursor) : Except Failure (α × Cursor) → Prop where
  | done {a : α} {s' : Cursor} {w : List Token} {wanted : List Kind} (value : P a)
      (least : m ≤ w.length) (run : s.Reaches s' w wanted)
      (read : Done scriptTable n r q (kindsOf w) (kindsOf s'.rest) wanted) :
      Agrees n r q P m s (.ok (a, s'))
  | stuck {f : Failure} {rule : Rule} {expected : List Kind} {w rest : List Token}
      (cause : f.cause = .unexpected rule expected false) (least : m ≤ w.length)
      (run : s.Halts f w rest)
      (read : Stuck scriptTable n r q (kindsOf w) (kindsOf rest) rule expected) :
      Agrees n r q P m s (.error f)
  | tooDeep {f : Failure} {rule : Rule} {w rest : List Token} (cause : f.cause = .tooDeep rule)
      (run : s.Halts f w rest)
      (read : Exceeds scriptTable n r q (kindsOf s.rest) rule (kindsOf rest)) :
      Agrees n r q P m s (.error f)

/-- Every run of a parser is a reading of `q`. -/
def Follows {α : Type} (n : Nat) (r : Rule) (p : Parser α) (q : Production) (P : α → Prop) : Prop :=
  ∀ s, Agrees n r q P 0 s (p s)

/-- A parser of something that may be absent reads `q` where `q` can begin, and is content
elsewhere. -/
structure Opens {β : Type} (n : Nat) (r : Rule) (p : Parser (Option β)) (q : Production) :
    Prop where
  taken : ∀ s, scriptTable.opens q (kindsOf s.rest) = true →
    Agrees n r q (fun o => o.isSome = true) 1 s (p s)
  skipped : ∀ s, scriptTable.opens q (kindsOf s.rest) = false →
    ∃ ks, (∀ k, k ∈ ks ↔ k ∈ scriptTable.firstOf q) ∧ p s = .ok (none, s.note ks)

variable {α β γ : Type} {n n' m m' : Nat} {r r' : Rule} {q q' q₁ : Production}
  {qs : List Production} {P : α → Prop} {Q : β → Prop} {s : Cursor}

namespace Agrees

theorem weaken {R : α → Prop} {res : Except Failure (α × Cursor)} (hR : ∀ a, P a → R a)
    (hm : m' ≤ m) (h : Agrees n r q P m s res) : Agrees n r q R m' s res := by
  cases h with
  | done value least run read => exact .done (hR _ value) (Nat.le_trans hm least) run read
  | stuck cause least run read => exact .stuck cause (Nat.le_trans hm least) run read
  | tooDeep cause run read => exact .tooDeep cause run read

/-- It is enough that two productions are read alike on lists with the same `m` kinds in front,
where `m` tokens at least are taken. -/
theorem congrTake {res : Except Failure (α × Cursor)}
    (h : ∀ ks, ks.take m = (kindsOf s.rest).take m → Alike scriptTable n r q n' r' q' ks)
    (ha : Agrees n r q P m s res) : Agrees n' r' q' P m s res := by
  have htake : ∀ (w rest : List Token), s.rest = w ++ rest → m ≤ w.length → ∀ u,
      (kindsOf w ++ u).take m = (kindsOf s.rest).take m := by
    intro w rest hw hlen u
    rw [← length_kindsOf] at hlen
    rw [hw, kindsOf_append, List.take_append_of_le_length hlen, List.take_append_of_le_length hlen]
  cases ha with
  | done value least run read =>
    exact .done value least run (read.congr fun u => (h _ (htake _ _ run.rest least u)).reads)
  | stuck cause least run read =>
    exact .stuck cause least run (read.congr fun u => (h _ (htake _ _ run.rest least u)).reads)
  | tooDeep cause run read => exact .tooDeep cause run ((h _ rfl).exceeds _ _ read)

theorem congrHead {res : Except Failure (α × Cursor)}
    (h : ∀ ks, ks.head? = (kindsOf s.rest).head? → Alike scriptTable n r q n' r' q' ks)
    (ha : Agrees n r q P 1 s res) : Agrees n' r' q' P 1 s res := by
  refine ha.congrTake fun ks hk => h ks ?_
  cases ks <;> cases hs : kindsOf s.rest <;> simp_all

theorem congrOpens {res : Except Failure (α × Cursor)}
    (ho : scriptTable.opens q₁ (kindsOf s.rest) = true)
    (h : ∀ ks, scriptTable.opens q₁ ks = true → Alike scriptTable n r q n' r' q' ks)
    (ha : Agrees n r q P 1 s res) : Agrees n' r' q' P 1 s res :=
  ha.congrHead fun ks hk => h ks ((Table.opens_congr (fun _ => Iff.rfl) hk).trans ho)

theorem congr {res : Except Failure (α × Cursor)}
    (h : ∀ ks, Alike scriptTable n r q n' r' q' ks)
    (ha : Agrees n r q P m s res) : Agrees n' r' q' P m s res :=
  ha.congrTake fun ks _ => h ks

theorem of_note {ks : List Kind} {res : Except Failure (α × Cursor)} (hm : 1 ≤ m)
    (h : Agrees n r q P m (s.note ks) res) : Agrees n r q P m s res := by
  cases h with
  | done value least run read =>
    exact .done value least (run.of_note (Nat.le_trans hm least)) read
  | stuck cause least run read =>
    exact .stuck cause least ⟨run.rest, run.index, run.found⟩ read
  | tooDeep cause run read => exact .tooDeep cause ⟨run.rest, run.index, run.found⟩ read

/-- What was read before belongs to a longer sequence. -/
theorem prepend {s₁ : Cursor} {w : List Token} {wanted : List Kind}
    {res : Except Failure (β × Cursor)} (least : m ≤ w.length) (run : s.Reaches s₁ w wanted)
    (read : Done scriptTable n r q (kindsOf w) (kindsOf s₁.rest) wanted)
    (h : Agrees n r (.seq qs) Q m' s₁ res) : Agrees n r (.seq (q :: qs)) Q (m + m') s res := by
  cases h with
  | done value' least' run' read' =>
    rw [run'.rest, kindsOf_append] at read
    refine .done value' ?_ (run.trans run') ?_
    · rw [List.length_append]; omega
    · rw [kindsOf_append, ← lookedFor_kindsOf]
      exact read.cons read'
  | stuck cause least' run' read' =>
    rw [run'.rest, kindsOf_append] at read
    refine .stuck cause ?_ (run.halts run') ?_
    · rw [List.length_append]; omega
    · rw [kindsOf_append]
      exact read'.tail read
  | tooDeep cause run' read' =>
    refine .tooDeep cause (run.halts run') ?_
    rw [run.rest, kindsOf_append]
    exact .seqTail read.reads read'

theorem bindAt {p : Parser α} {g : α → Parser β} (h : Agrees n r q P m s (p s))
    (hg : ∀ a s', P a → s'.rest.length + m ≤ s.rest.length →
      Agrees n r (.seq qs) Q 0 s' (g a s')) :
    Agrees n r (.seq (q :: qs)) Q m s ((p >>= g) s) := by
  change Agrees n r (.seq (q :: qs)) Q m s ((p s).bind fun x => g x.1 x.2)
  generalize p s = res at h
  cases h with
  | @done a s' w wanted value least run read =>
    exact (hg a s' value (by rw [run.rest, List.length_append]; omega)).prepend least run read
  | stuck cause least run read => exact .stuck cause least run read.head
  | tooDeep cause run read => exact .tooDeep cause run (.seqHead read)

/-- One parser after another reads a sequence. -/
theorem bind {p : Parser α} {g : α → Parser β} (h : Agrees n r q P m s (p s))
    (hg : ∀ a, P a → Follows n r (g a) (.seq qs) Q) :
    Agrees n r (.seq (q :: qs)) Q m s ((p >>= g) s) :=
  h.bindAt fun a s' ha _ => hg a ha s'

end Agrees

namespace Follows

theorem pure {a : α} (h : P a) : Follows n r (pure a) (.seq []) P :=
  fun _ => .done h (Nat.zero_le _) .refl Done.nil

theorem bind {p : Parser α} {g : α → Parser β} (h : Follows n r p q P)
    (hg : ∀ a, P a → Follows n r (g a) (.seq qs) Q) : Follows n r (p >>= g) (.seq (q :: qs)) Q :=
  fun s => (h s).bind hg

theorem congr {p : Parser α} (h : ∀ ks, Alike scriptTable n r q n' r' q' ks)
    (hp : Follows n r p q P) : Follows n' r' p q' P := fun s => (hp s).congr h

theorem length_le {p : Parser α} (h : Follows n r p q P) {s s' : Cursor} {a : α}
    (hs : p s = .ok (a, s')) : s'.rest.length ≤ s.rest.length := by
  have ha := h s
  rw [hs] at ha
  cases ha with
  | done _ _ run _ =>
    rw [run.rest, List.length_append]
    omega

theorem start {g : Nat → Parser α} (h : ∀ a, Follows n r (g a) q P) :
    Follows n r (Parser.start >>= g) q P := fun s => h s.start s

theorem lastEnd {g : Nat → Parser α} (h : ∀ a, Follows n r (g a) q P) :
    Follows n r (Parser.lastEnd >>= g) q P := fun s => h s.lastEnd s

/-- A parser that follows the definition of a rule follows the rule. -/
theorem rule {p : Parser α} {ρ : Rule} {body : Production}
    (hb : scriptTable.definition? ρ = some body) (hρ : ρ.nests = false)
    (h : Follows n ρ p body P) : Follows n r p (.rule ρ) P :=
  h.congr fun _ => .rule hb hρ

end Follows

namespace Opens

/-- A parser that opens a production takes a token wherever the production can begin. -/
theorem moves {p : Parser (Option α)} (h : Opens n r p q) : Moves scriptTable n r q := by
  intro ks e ho he
  obtain ⟨ts, rfl⟩ := exists_kindsOf ks
  have ha := h.taken (.ofTokens ts) ho
  generalize p (.ofTokens ts) = res at ha
  have hlt : ∀ w rest : List Token, 1 ≤ w.length → ts = w ++ rest →
      (kindsOf rest).length < (kindsOf ts).length := by
    rintro w rest hw rfl
    simp only [length_kindsOf, List.length_append]
    omega
  cases ha with
  | @done _ s' w _ _ least run read =>
    have hts : ts = w ++ s'.rest := run.rest
    cases he.unique (by rw [hts, kindsOf_append]; exact read.reads)
    exact hlt w s'.rest least hts
  | @stuck _ _ _ w rest _ least run read =>
    have hts : ts = w ++ rest := run.rest
    cases he.unique (by rw [hts, kindsOf_append]; exact read.reads)
    exact hlt w rest least hts
  | tooDeep _ _ read => exact absurd he (read.dead e)

/-- Followed by parsers of a sequence where it gives something, and by anything elsewhere. -/
theorem agrees_bind {p : Parser (Option α)} {g : Option α → Parser β} (h : Opens n r p q₁)
    (hg : ∀ a, Follows n r (g (some a)) (.seq qs) Q)
    (ho : scriptTable.opens q₁ (kindsOf s.rest) = true) :
    Agrees n r (.seq (q₁ :: qs)) Q 1 s ((p >>= g) s) := by
  refine (h.taken s ho).bind ?_
  intro o ho
  cases o with
  | none => simp at ho
  | some a => exact hg a

theorem skip_bind {p : Parser (Option α)} {g : Option α → Parser β} (h : Opens n r p q)
    (ho : scriptTable.opens q (kindsOf s.rest) = false) :
    ∃ ks, (∀ k, k ∈ ks ↔ k ∈ scriptTable.firstOf q) ∧ (p >>= g) s = g none (s.note ks) := by
  obtain ⟨ks, hks, hp⟩ := h.skipped s ho
  exact ⟨ks, hks, bind_run_ok hp⟩

theorem optional {p : Parser (Option α)} (h : Opens n r p q) :
    Follows n r p (.optional q) fun _ => True := by
  intro s
  by_cases ho : scriptTable.opens q (kindsOf s.rest) = true
  · exact ((h.taken s ho).congrOpens ho fun _ => .optional).weaken (fun _ _ => trivial)
      (Nat.zero_le 1)
  · rw [Bool.not_eq_true] at ho
    obtain ⟨ks, hks, hp⟩ := h.skipped s ho
    rw [hp]
    exact .done trivial (Nat.zero_le _) Cursor.reaches_note (Done.skip h.moves hks ho)

theorem start {g : Nat → Parser (Option α)} (h : ∀ a, Opens n r (g a) q) :
    Opens n r (Parser.start >>= g) q where
  taken s := (h s.start).taken s
  skipped s := (h s.start).skipped s

theorem congr {p : Parser (Option α)} (h : Opens n r p q)
    (hf : ∀ k, k ∈ scriptTable.firstOf q ↔ k ∈ scriptTable.firstOf q')
    (hr : ∀ ks, scriptTable.opens q ks = true → Alike scriptTable n r q n' r' q' ks) :
    Opens n' r' p q' where
  taken s ho := by
    rw [← Table.opens_congr hf rfl] at ho
    exact (h.taken s ho).congrOpens ho hr
  skipped s ho := by
    rw [← Table.opens_congr hf rfl] at ho
    obtain ⟨ks, hks, hp⟩ := h.skipped s ho
    exact ⟨ks, fun k => (hks k).trans (hf k), hp⟩

/-- A part that may be absent and, where it is there, what follows it. -/
theorem bind {p : Parser (Option α)} {g : Option α → Parser (Option β)} (h : Opens n r p q₁)
    (hq : q₁.nullable scriptTable.isNullable = false)
    (hsome : ∀ a, Follows n r (g (some a)) (.seq qs) fun o => o.isSome = true)
    (hnone : g none = pure none) : Opens n r (p >>= g) (.seq (q₁ :: qs)) := by
  have hf : ∀ k, k ∈ scriptTable.firstOf q₁ ↔ k ∈ scriptTable.firstOf (.seq (q₁ :: qs)) :=
    fun k => (Table.mem_firstOf_seq hq k).symm
  constructor
  · intro s ho
    rw [← Table.opens_congr hf rfl] at ho
    exact h.agrees_bind hsome ho
  · intro s ho
    rw [← Table.opens_congr hf rfl] at ho
    obtain ⟨ks, hks, hp⟩ := h.skip_bind (g := g) ho
    refine ⟨ks, fun k => (hks k).trans (hf k), ?_⟩
    rw [hp, hnone]
    rfl

/-- Two parsers tried in turn read a choice. The first alternative is `q₁` and what follows it. -/
theorem either {p : Parser (Option α)} {g : Option α → Parser (Option β)} {rest : List Production}
    (h : Opens n r p q₁) (hf : ∀ k, k ∈ scriptTable.firstOf q₁ ↔ k ∈ scriptTable.firstOf q)
    (hq : ∀ ks, Alike scriptTable n r (.seq (q₁ :: qs)) n r q ks)
    (hsome : ∀ a, Follows n r (g (some a)) (.seq qs) fun o => o.isSome = true)
    (hnone : Opens n r (g none) (.choice rest)) : Opens n r (p >>= g) (.choice (q :: rest)) := by
  constructor
  · intro s ho
    by_cases ho₁ : scriptTable.opens q₁ (kindsOf s.rest) = true
    · have ha := (h.agrees_bind hsome ho₁).congr hq
      refine ha.congrOpens ho₁ fun ks hk => .choiceHead ?_
      rwa [← Table.opens_congr hf rfl]
    · rw [Bool.not_eq_true] at ho₁
      obtain ⟨ks, hks, hp⟩ := h.skip_bind (g := g) ho₁
      rw [Table.opens_congr hf rfl] at ho₁
      have ho₂ : scriptTable.opens (.choice rest) (kindsOf s.rest) = true := by
        cases hs : kindsOf s.rest with
        | nil => simp [hs, Table.opens] at ho
        | cons k ls =>
          rw [hs, Table.opens_cons, Table.mem_firstOf_choice_cons] at ho
          rw [hs, Table.opens_eq_false] at ho₁
          exact Table.opens_cons.2 (ho.resolve_left (ho₁ k rfl))
      rw [hp]
      refine ((hnone.taken (s.note ks) ho₂).of_note (Nat.le_refl 1)).congrHead ?_
      intro ls hl
      have hhead : ∀ p, scriptTable.opens p ls = scriptTable.opens p (kindsOf s.rest) :=
        fun p => Table.opens_congr (fun _ => Iff.rfl) hl
      exact .choiceTail ((hhead _).trans ho₁) ((hhead _).trans ho₂)
  · intro s ho
    rw [Table.opens_eq_false] at ho
    simp only [Table.mem_firstOf_choice_cons, not_or] at ho
    have ho₁ : scriptTable.opens q₁ (kindsOf s.rest) = false :=
      Table.opens_eq_false.2 fun k hk => mt (hf k).1 (ho k hk).1
    obtain ⟨ks, hks, hp⟩ := h.skip_bind (g := g) ho₁
    obtain ⟨ls, hls, hp'⟩ :=
      hnone.skipped (s.note ks) (Table.opens_eq_false.2 fun k hk => (ho k hk).2)
    refine ⟨ks ++ ls, ?_, ?_⟩
    · intro k
      rw [List.mem_append, hks, hls, hf, Table.mem_firstOf_choice_cons]
    · rw [hp, hp', Cursor.note_note]

theorem orElse {p : Parser (Option α)} {g : Option α → Parser (Option β)} {rest : List Production}
    (h : Opens n r p q) (hsome : ∀ a, ∃ b, g (some a) = pure (some b))
    (hnone : Opens n r (g none) (.choice rest)) : Opens n r (p >>= g) (.choice (q :: rest)) := by
  refine h.either (fun _ => Iff.rfl) (fun _ => .seqSingleton) (fun a => ?_) hnone
  obtain ⟨b, hb⟩ := hsome a
  rw [hb]
  exact Follows.pure rfl

theorem map {p : Parser (Option α)} {f : α → β} (h : Opens n r p q) :
    Opens n r (do return (← p).map f) q := by
  constructor
  · intro s ho
    have hs : Agrees n r (.seq [q]) (fun o => o.isSome = true) 1 s
        ((p >>= fun o => pure (o.map f)) s) := by
      refine (h.taken s ho).bind fun o ho => Follows.pure ?_
      simpa using ho
    exact hs.congr fun _ => .seqSingleton
  · intro s ho
    obtain ⟨ks, hks, hp⟩ := h.skip_bind (g := fun o => pure (o.map f)) ho
    exact ⟨ks, hks, hp⟩

theorem choice {p : Parser (Option α)} (h : Opens n r p q) : Opens n r p (.choice [q]) :=
  h.congr (fun k => by simp) fun _ => .choiceHead

/-- A parser that opens the definition of a rule opens the rule. -/
theorem rule {p : Parser (Option α)} {ρ : Rule} {body : Production}
    (hb : scriptTable.definition? ρ = some body) (hρ : ρ.nests = false)
    (h : Opens n ρ p body) : Opens n r p (.rule ρ) :=
  h.congr (fun k => by rw [firstOf_definition hb]) fun _ _ => .rule hb hρ

/-- A choice that a rule demands: where none of the alternatives can begin, the reading of the rule
is stuck. -/
theorem orFail {p : Parser (Option α)} {g : Option α → Parser β} (h : Opens n r p (.choice qs))
    (hsome : ∀ a, ∃ b, g (some a) = pure b)
    (hnone : g none = Parser.fail (.unexpected r (scriptTable.firstOf (.choice qs)) false)) :
    Follows n r (p >>= g) (.choice qs) fun _ => True := by
  intro s
  by_cases ho : scriptTable.opens (.choice qs) (kindsOf s.rest) = true
  · refine Agrees.weaken (fun _ h => h) (Nat.zero_le 1)
      (Agrees.congr (fun _ => .seqSingleton) (h.agrees_bind (fun a => ?_) ho))
    obtain ⟨b, hb⟩ := hsome a
    rw [hb]
    exact Follows.pure trivial
  · rw [Bool.not_eq_true] at ho
    obtain ⟨ks, -, hp⟩ := h.skip_bind (g := g) ho
    rw [hp, hnone]
    exact .stuck (w := []) rfl (Nat.zero_le _) ⟨rfl, rfl, rfl⟩ (stuck_choice h.moves ho)

/-- A part that may be absent together with what follows it. -/
theorem optionalBind {p : Parser (Option α)} {g : Option α → Parser β} {b : β}
    (h : Opens n r p q₁) (hq : q₁.nullable scriptTable.isNullable = false)
    (hsome : ∀ a, Follows n r (g (some a)) (.seq qs) fun _ => True) (hnone : g none = pure b) :
    Follows n r (p >>= g) (.optional (.seq (q₁ :: qs))) fun _ => True := by
  intro s
  by_cases ho : scriptTable.opens q₁ (kindsOf s.rest) = true
  · refine ((h.agrees_bind hsome ho).congrOpens ho ?_).weaken (fun _ h => h)
      (Nat.zero_le 1)
    intro ks hk
    rw [← Table.opens_congr (Table.mem_firstOf_seq hq) rfl] at hk
    exact .optional hk
  · rw [Bool.not_eq_true] at ho
    obtain ⟨ks, hks, hp⟩ := h.skip_bind (g := g) ho
    rw [hp, hnone]
    refine .done trivial (Nat.zero_le _) Cursor.reaches_note (Done.skip (h.moves.seq hq) ?_ ?_)
    · exact fun k => (hks k).trans (Table.mem_firstOf_seq hq k).symm
    · rwa [Table.opens_congr (Table.mem_firstOf_seq hq) rfl]

end Opens

/-! ## Single tokens -/

theorem done_terminal {τ : Terminal} {k : Kind} {rest : List Kind} (h : k ∈ τ.kinds) :
    Done scriptTable n r (.terminal τ) [k] rest [] where
  apart _ _ := List.not_mem_nil
  ends _ _ := .terminal h
  passes _ hk := absurd hk List.not_mem_nil

theorem stuck_terminal {τ : Terminal} {rest : List Kind} (h : ∀ k ∈ rest.head?, k ∉ τ.kinds) :
    Stuck scriptTable n r (.terminal τ) [] rest r τ.kinds where
  reads := .terminalStuck h
  passes := by
    intro k hk v e he
    cases he with
    | terminal => exact Nat.le_refl _
    | terminalStuck h' => exact absurd hk (h' k rfl)

theorem takeAny_of_mem {ks : List Kind} {t : Token} {rest : List Token} (hs : s.rest = t :: rest)
    (ht : t.kind ∈ ks) : ∃ s', Parser.takeAny ks s = .ok (some t, s') ∧ s.Reaches s' [t] [] ∧
      s'.lastEnd = t.span.stop := by
  obtain ⟨_, ahead, ha, index, lastEnd, tried⟩ := s
  subst hs
  refine ⟨⟨rest, ahead - 1, by simp [ha], index + 1, t.span.stop, []⟩, ?_, ⟨rfl, rfl, rfl⟩, rfl⟩
  simp [Parser.takeAny, Cursor.next?, ht]

theorem takeAny_of_not_mem {ks : List Kind} (h : ∀ k ∈ (kindsOf s.rest).head?, k ∉ ks) :
    Parser.takeAny ks s = .ok (none, s.note ks) := by
  obtain ⟨rest, ahead, ha, index, lastEnd, tried⟩ := s
  cases rest with
  | nil => rfl
  | cons t rest =>
    have ht : t.kind ∉ ks := h t.kind rfl
    simp [Parser.takeAny, Cursor.next?, ht]

/-- Taking a token that may be absent does not fail. -/
theorem takeAny_run (ks : List Kind) (s : Cursor) : ∃ o s', Parser.takeAny ks s = .ok (o, s') := by
  unfold Parser.takeAny
  split
  · exact ⟨_, _, rfl⟩
  · split <;> exact ⟨_, _, rfl⟩

theorem takeAny_cases {ks : List Kind} {s s' : Cursor} {o : Option Token}
    (h : Parser.takeAny ks s = .ok (o, s')) :
    (o = none ∧ s'.rest = s.rest ∧ ∀ k ∈ (kindsOf s.rest).head?, k ∉ ks) ∨
      ∃ t, o = some t ∧ t.kind ∈ ks ∧ s.rest = t :: s'.rest := by
  by_cases hk : ∀ k ∈ (kindsOf s.rest).head?, k ∉ ks
  · rw [takeAny_of_not_mem hk] at h
    cases h
    exact .inl ⟨rfl, rfl, hk⟩
  · cases hs : s.rest with
    | nil => simp [hs] at hk
    | cons t rest =>
      have ht : t.kind ∈ ks := by simpa [hs] using hk
      obtain ⟨s₁, hrun, hreach, -⟩ := takeAny_of_mem hs ht
      rw [hrun] at h
      cases h
      refine .inr ⟨t, rfl, ht, ?_⟩
      rw [← hs]
      exact hreach.rest

theorem opens_takeAny (τ : Terminal) : Opens n r (Parser.takeAny τ.kinds) (.terminal τ) := by
  constructor
  · intro s ho
    cases hs : s.rest with
    | nil => simp [hs, Table.opens] at ho
    | cons t rest =>
      rw [hs, kindsOf_cons, Table.opens_cons, Table.mem_firstOf_terminal] at ho
      obtain ⟨s', hrun, hreach, -⟩ := takeAny_of_mem hs ho
      rw [hrun]
      exact .done rfl (Nat.le_refl _) hreach (done_terminal ho)
  · intro s ho
    refine ⟨τ.kinds, fun k => Table.mem_firstOf_terminal.symm, takeAny_of_not_mem ?_⟩
    simpa only [Table.mem_firstOf_terminal] using Table.opens_eq_false.1 ho

theorem opens_take? (k : Kind) : Opens n r (Parser.take? k) (.token k) := opens_takeAny (.kind k)

/-- A token that a rule demands is taken, or the reading of the rule is stuck there. -/
theorem take_agrees (k : Kind) (s : Cursor) :
    Agrees n r (.token k) (fun _ => True)
      (if scriptTable.opens (.token k) (kindsOf s.rest) = true then 1 else 0) s
      (Parser.take r k s) := by
  by_cases ho : scriptTable.opens (.token k) (kindsOf s.rest) = true
  · rw [if_pos ho]
    refine Agrees.congr (fun _ => .seqSingleton) ?_
    exact (opens_take? k).agrees_bind (fun a => Follows.pure trivial) ho
  · rw [if_neg ho]
    rw [Bool.not_eq_true] at ho
    obtain ⟨ks, -, hp⟩ := (opens_take? (n := n) (r := r) k).skipped s ho
    rw [Parser.take, bind_run_ok hp]
    refine .stuck (w := []) rfl (Nat.zero_le _) ⟨rfl, rfl, rfl⟩ (stuck_terminal ?_)
    intro j hj hjk
    exact Table.opens_eq_false.1 ho j hj (Table.mem_firstOf_terminal.2 hjk)

theorem follows_take (k : Kind) : Follows n r (Parser.take r k) (.token k) fun _ => True :=
  fun s => (take_agrees k s).weaken (fun _ h => h) (Nat.zero_le _)

/-! ## Repetitions -/

/-- A repetition whose rounds all take a token is a round and the repetition again. -/
theorem many_eq_bind {p : Parser (Option α)}
    (hp : ∀ s a s', p s = .ok (some a, s') → s'.rest.length < s.rest.length) :
    Parser.many p = p >>= fun o =>
      match o with
      | none => pure []
      | some a => do return a :: (← Parser.many p) := by
  funext s
  change _ = (p s).bind _
  rw [Parser.many, repetition]
  cases hs : p s with
  | error e => rfl
  | ok x =>
    obtain ⟨_ | a, s'⟩ := x
    · rfl
    · have hlt := hp s a s' hs
      simp only [s'.ahead_eq, s.ahead_eq, hlt, if_true]
      change _ = (repetition Cursor.ahead p s').bind _
      cases repetition Cursor.ahead p s' <;> rfl

theorem many_bind {p : Parser (Option α)}
    (hp : ∀ s a s', p s = .ok (some a, s') → s'.rest.length < s.rest.length)
    (g : List α → Parser β) :
    Parser.many p >>= g = p >>= fun o =>
      match o with
      | none => g []
      | some a => Parser.many p >>= fun as => g (a :: as) := by
  conv => lhs; rw [many_eq_bind hp]
  rw [bind_assoc]
  congr 1
  funext o
  cases o with
  | none => exact pure_bind _ _
  | some a => simp only [bind_assoc, pure_bind]

/-- The rounds of a repetition: those that give something, and the last one. -/
inductive Rounds (p : Parser (Option α)) : Cursor → List α → Cursor → Prop where
  | last {s s' : Cursor} (h : p s = .ok (none, s')) : Rounds p s [] s'
  | next {s s₁ s' : Cursor} {a : α} {as : List α} (h : p s = .ok (some a, s₁))
      (later : Rounds p s₁ as s') : Rounds p s (a :: as) s'

theorem rounds_of_many {p : Parser (Option α)}
    (hp : ∀ s a s', p s = .ok (some a, s') → s'.rest.length < s.rest.length) {s s' : Cursor}
    {as : List α} (h : Parser.many p s = .ok (as, s')) : Rounds p s as s' := by
  induction hn : s.rest.length using Nat.strongRecOn generalizing s as with
  | ind n ih =>
    subst hn
    rw [many_eq_bind hp] at h
    obtain ⟨o, s₁, ho, h⟩ := of_bind_run h
    cases o with
    | none =>
      cases h
      exact .last ho
    | some a =>
      obtain ⟨later, s₂, hlater, h⟩ := of_bind_run h
      cases h
      exact .next ho (ih _ (hp s a s₁ ho) hlater rfl)

theorem Rounds.exists_last {p : Parser (Option α)} {s s' : Cursor} {as : List α}
    (h : Rounds p s as s') : ∃ s₀, p s₀ = .ok (none, s') := by
  induction h with
  | last h => exact ⟨_, h⟩
  | next _ _ ih => exact ih

namespace Opens

theorem lt {p : Parser (Option α)} (h : Opens n r p q) (s : Cursor) (a : α) (s' : Cursor)
    (hs : p s = .ok (some a, s')) : s'.rest.length < s.rest.length := by
  by_cases ho : scriptTable.opens q (kindsOf s.rest) = true
  · have ha := h.taken s ho
    rw [hs] at ha
    cases ha with
    | done _ least run _ =>
      rw [run.rest, List.length_append]
      omega
  · rw [Bool.not_eq_true] at ho
    obtain ⟨ks, -, hp⟩ := h.skipped s ho
    rw [hs] at hp
    cases hp

/-- A parser that gives nothing has taken nothing. -/
theorem rest_eq {p : Parser (Option α)} (h : Opens n r p q) {s s' : Cursor}
    (hs : p s = .ok (none, s')) : s'.rest = s.rest := by
  by_cases ho : scriptTable.opens q (kindsOf s.rest) = true
  · have ha := h.taken s ho
    rw [hs] at ha
    cases ha with
    | done value => cases value
  · rw [Bool.not_eq_true] at ho
    obtain ⟨ks, -, hp⟩ := h.skipped s ho
    rw [hs] at hp
    cases hp
    rfl

/-- Where the body of a repetition cannot begin, its first round is the last. -/
theorem rounds_skip {p : Parser (Option α)} (h : Opens n r p q) {s s' : Cursor} {as : List α}
    (ho : scriptTable.opens q (kindsOf s.rest) = false) (hr : Rounds p s as s') :
    as = [] ∧ s'.rest = s.rest := by
  obtain ⟨ks, -, hp⟩ := h.skipped s ho
  cases hr with
  | last hlast =>
    rw [hlast] at hp
    cases hp
    exact ⟨rfl, rfl⟩
  | next hnext =>
    rw [hnext] at hp
    cases hp

theorem many_skip {p : Parser (Option α)} (h : Opens n r p q)
    (ho : scriptTable.opens q (kindsOf s.rest) = false) :
    ∃ ks, (∀ k, k ∈ ks ↔ k ∈ scriptTable.firstOf q) ∧ Parser.many p s = .ok ([], s.note ks) := by
  rw [many_eq_bind h.lt]
  exact h.skip_bind ho

/-- The rounds of a repetition, as many as its body can be read. -/
theorem many {p : Parser (Option α)} (h : Opens n r p q) (hr : r ≠ .stack) :
    Follows n r (Parser.many p) (.many q) fun _ => True := by
  intro s
  induction hlen : s.rest.length using Nat.strongRecOn generalizing s with
  | ind len ih =>
    subst hlen
    by_cases ho : scriptTable.opens q (kindsOf s.rest) = true
    · rw [many_eq_bind h.lt]
      have hread : ∀ ks, scriptTable.opens q ks = true →
          Alike scriptTable n r (.seq [q, .many q]) n r (.many q) ks :=
        fun ks hk => .many ((Table.goesOn_of_ne hr).trans hk)
      refine Agrees.weaken (fun _ h => h) (Nat.zero_le 1) (Agrees.congrOpens ho hread
        ((h.taken s ho).bindAt fun o s' hsome hlt => ?_))
      obtain ⟨a, rfl⟩ := Option.isSome_iff_exists.1 hsome
      refine (ih _ (by omega) s' rfl).bind fun as _ => ?_
      exact Follows.pure trivial
    · rw [Bool.not_eq_true] at ho
      obtain ⟨ks, hks, hp⟩ := h.many_skip ho
      rw [hp]
      exact .done trivial (Nat.zero_le _) Cursor.reaches_note (Done.manyEnd hr h.moves hks ho)

theorem many_taken {p : Parser (Option α)} (h : Opens n r p q) (hr : r ≠ .stack)
    (ho : scriptTable.opens q (kindsOf s.rest) = true) :
    Agrees n r (.atLeastOne q) (fun as => as ≠ []) 1 s (Parser.many p s) := by
  rw [many_eq_bind h.lt]
  refine Agrees.congr (fun _ => .atLeastOne) (h.agrees_bind (fun a => ?_) ho)
  refine (h.many hr).bind fun as _ => ?_
  exact Follows.pure (List.cons_ne_nil a as)

/-- Rounds of which there is one at least, and what follows them. -/
theorem manyThen {p : Parser (Option α)} {g : List α → Parser (Option β)} (h : Opens n r p q)
    (hr : r ≠ .stack) (hq : q.nullable scriptTable.isNullable = false)
    (hcons : ∀ a as, Follows n r (g (a :: as)) (.seq qs) fun o => o.isSome = true)
    (hnil : g [] = pure none) :
    Opens n r (Parser.many p >>= g) (.seq (.atLeastOne q :: qs)) := by
  have hf : ∀ k, k ∈ scriptTable.firstOf (.seq (.atLeastOne q :: qs)) ↔
      k ∈ scriptTable.firstOf q := Table.mem_firstOf_seq_atLeastOne hq
  constructor
  · intro s ho
    rw [Table.opens_congr hf rfl] at ho
    refine (h.many_taken hr ho).bind fun as has => ?_
    obtain ⟨a, as, rfl⟩ := List.exists_cons_of_ne_nil has
    exact hcons a as
  · intro s ho
    rw [Table.opens_congr hf rfl] at ho
    obtain ⟨ks, hks, hp⟩ := h.many_skip ho
    refine ⟨ks, fun k => (hks k).trans (hf k).symm, ?_⟩
    rw [bind_run_ok hp, hnil]
    rfl

end Opens

end BlockNotation
