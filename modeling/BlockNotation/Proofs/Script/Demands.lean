import BlockNotation.Proofs.Script.Committed
import BlockNotation.Proofs.Script.Parallel
import BlockNotation.Proofs.Script.Verdict

/-!
# Tests and demands

A parser that tests for a production and then demands it, and a parser that gives `none` where the
production cannot begin, do the same (`Joins.mirrors`). The demand has to be met only where the
production can begin, and there it does not matter what was looked for before: the token that is
there is taken, and the kinds looked for are forgotten with it (`Meets`, `Joins`).
-/

namespace BlockNotation

namespace Committed

open BlockNotation.Parser (take? takeAny many take)

/-- Cursors in front of the same tokens. -/
structure Beside (s s' : Cursor) : Prop where
  rest : s.rest = s'.rest
  index : s.index = s'.index
  lastEnd : s.lastEnd = s'.lastEnd

variable {s s' : Cursor}

theorem Beside.refl (s : Cursor) : Beside s s := ⟨rfl, rfl, rfl⟩

theorem Beside.noteLeft (h : Beside s s') (ks : List Kind) : Beside (s.note ks) s' :=
  ⟨h.rest, h.index, h.lastEnd⟩

theorem Beside.noteRight (h : Beside s s') (ks : List Kind) : Beside s (s'.note ks) :=
  ⟨h.rest, h.index, h.lastEnd⟩

theorem Beside.start_eq (h : Beside s s') : s'.start = s.start := by
  rw [Cursor.start, Cursor.start, h.rest, h.lastEnd]

theorem Beside.fails (h : Beside s s') (cause : Cause) :
    (⟨cause, s.index, s.rest.head?, s.nextSpan⟩ : Failure) =
      ⟨cause, s'.index, s'.rest.head?, s'.nextSpan⟩ := by
  rw [Cursor.nextSpan, Cursor.nextSpan, h.rest, h.index, h.lastEnd]

/-- Cursors in front of the same tokens where the same kinds were looked for, and equal failures. -/
def same : Likeness where
  cursor s s' := Beside s s' ∧ ∀ k, k ∈ s.tried ↔ k ∈ s'.tried
  failure := Eq
  ahead_eq h := by rw [Cursor.ahead_eq, Cursor.ahead_eq, h.1.rest]
  fails cause h := h.1.fails cause

variable {α β β' : Type} {ks ls : List Kind} {n : Nat} {r ρ : Rule}
  {q : Production} {qs : List Production}

theorem same_refl (s : Cursor) : same.cursor s s := ⟨.refl s, fun _ => .rfl⟩

theorem same_note (h : same.cursor s s') (hk : ∀ k, k ∈ ks ↔ k ∈ ls) :
    same.cursor (s.note ks) (s'.note ls) :=
  ⟨(h.1.noteLeft ks).noteRight ls, fun k => by
    simp only [Cursor.note, List.mem_append, h.2 k, hk k]⟩

/-- Where a token is taken, it makes no difference what was looked for before. -/
theorem takeAny_beside (h : Beside s s') {t : Token} {rest : List Token} (hs : s.rest = t :: rest)
    (ht : t.kind ∈ ks) : ∃ s₁, takeAny ks s = .ok (some t, s₁) ∧ takeAny ks s' = .ok (some t, s₁) ∧
      s₁.rest = rest := by
  obtain ⟨ts, ahead, hahead, index, stop, tried⟩ := s
  obtain ⟨ts', ahead', hahead', index', stop', tried'⟩ := s'
  obtain ⟨hrest, hindex, hstop⟩ := h
  simp only at hrest hindex hstop hs
  subst hs hindex hstop hrest hahead hahead'
  refine ⟨⟨rest, (t :: rest).length - 1, rfl, index + 1, t.span.stop, []⟩, ?_, ?_, rfl⟩ <;>
    simp [takeAny, Cursor.next?, ht]

/-- Both parsers do the same where the same kinds were looked for. -/
def Mirrors (p p' : Parser α) : Prop := Parallel same Eq p p'

namespace Mirrors

theorem bind {S : β → β' → Prop} {p p' : Parser α} {g : α → Parser β} {g' : α → Parser β'}
    (h : Mirrors p p') (hg : ∀ a, Parallel same S (g a) (g' a)) :
    Parallel same S (p >>= g) (p' >>= g') :=
  Parallel.bind h fun a _ hab => hab ▸ hg a

theorem start {S : β → β' → Prop} {g : Nat → Parser β} {g' : Nat → Parser β'}
    (h : ∀ a, Parallel same S (g a) (g' a)) :
    Parallel same S (Parser.start >>= g) (Parser.start >>= g') := by
  intro s s' hs
  change Outcomes same S (g s.start s) (g' s'.start s')
  rw [hs.1.start_eq]
  exact h _ s s' hs

theorem lastEnd {S : β → β' → Prop} {g : Nat → Parser β} {g' : Nat → Parser β'}
    (h : ∀ a, Parallel same S (g a) (g' a)) :
    Parallel same S (Parser.lastEnd >>= g) (Parser.lastEnd >>= g') := by
  intro s s' hs
  change Outcomes same S (g s.lastEnd s) (g' s'.lastEnd s')
  rw [hs.1.lastEnd]
  exact h _ s s' hs

theorem rel {p p' : Parser (Option α)} (h : Mirrors p p') : Parallel same (Option.Rel Eq) p p' := by
  refine Parallel.imp h fun o o' ho => ?_
  subst ho
  cases o with
  | none => exact .none
  | some a => exact .some rfl

theorem many {p p' : Parser (Option α)} (h : Mirrors p p') : Mirrors (many p) (many p') := by
  refine h.rel.many.imp fun as bs hab => ?_
  rwa [List.forall₂_eq_eq_eq] at hab

end Mirrors

theorem mirrors_takeAny (ks : List Kind) : Mirrors (takeAny ks) (takeAny ks) := by
  intro s s' hs
  by_cases hk : ∀ k ∈ (kindsOf s.rest).head?, k ∉ ks
  · rw [takeAny_of_not_mem hk, takeAny_of_not_mem (hs.1.rest ▸ hk)]
    exact .ok rfl (same_note hs fun _ => .rfl)
  · cases hrest : s.rest with
    | nil => simp [hrest] at hk
    | cons t rest =>
      have ht : t.kind ∈ ks := by simpa [hrest] using hk
      obtain ⟨s₁, hrun, hrun', -⟩ := takeAny_beside hs.1 hrest ht
      rw [hrun, hrun']
      exact .ok rfl (same_refl s₁)

theorem mirrors_take? (k : Kind) : Mirrors (take? k) (take? k) := mirrors_takeAny [k]

theorem mirrors_take (rule : Rule) (k : Kind) : Mirrors (take rule k) (take rule k) := by
  refine (mirrors_take? k).bind fun o => ?_
  cases o with
  | none => exact Parallel.fail
  | some t => exact .pure rfl

theorem mirrors_modifier? : Mirrors Parser.modifier? Parser.modifier? := by
  refine (mirrors_take? .doubleColon).bind fun o => ?_
  cases o with
  | none => exact .pure rfl
  | some marker => exact (mirrors_take _ _).bind fun label => .pure rfl

theorem mirrors_annotations? : Mirrors Parser.annotations? Parser.annotations? := by
  refine (mirrors_take? .remark).bind fun o => ?_
  cases o with
  | some remark => exact (mirrors_take? .identifier).bind fun id => .pure rfl
  | none =>
    refine (mirrors_take? .identifier).bind fun o => ?_
    cases o with
    | none => exact .pure rfl
    | some id => exact (mirrors_take? .remark).bind fun remark => .pure rfl

theorem mirrors_elseBranch? {clause clause' : Parser Clause} (h : Mirrors clause clause') :
    Mirrors (Parser.elseBranch? clause) (Parser.elseBranch? clause') := by
  refine (mirrors_take? .elseWord).bind fun o => ?_
  cases o with
  | none => exact .pure rfl
  | some keyword => exact h.bind fun clause => .pure rfl

theorem mirrors_nextRemark? : Mirrors Parser.nextRemark? Parser.nextRemark? :=
  (mirrors_take? .delimiter).many.bind fun _ => mirrors_take? .remark

theorem mirrors_trailingDelimiter : Mirrors Parser.trailingDelimiter Parser.trailingDelimiter := by
  refine (mirrors_take? .delimiter).bind fun o => ?_
  cases o with
  | none => exact .pure rfl
  | some _ => exact fun s s' hs => .ok rfl (same_note hs fun _ => .rfl)

theorem mirrors_finish : Mirrors Parser.finish Parser.finish := by
  intro s s' hs
  rw [finish_run, finish_run, hs.1.rest, Kind.sorted_congr hs.2]
  split
  · exact .ok rfl hs
  · exact Parallel.fail s s' hs

/-! ## Tests and demands -/

/-- What can begin with a choice, and not with its first alternative, begins with another. -/
theorem opens_choice_tail {ks : List Kind} (h : scriptTable.opens (.choice (q :: qs)) ks = true)
    (hq : scriptTable.opens q ks = false) : scriptTable.opens (.choice qs) ks = true := by
  cases ks with
  | nil => simp [Table.opens] at h
  | cons k ks =>
    rw [Table.opens_cons, Table.mem_firstOf_choice_cons] at h
    exact Table.opens_cons.2 (h.resolve_left (Table.opens_eq_false.1 hq k rfl))

theorem opens_definition {body : Production} {ks : List Kind}
    (hb : scriptTable.definition? ρ = some body) (h : scriptTable.opens (.rule ρ) ks = true) :
    scriptTable.opens body ks = true :=
  (Table.opens_congr (fun k => by rw [firstOf_definition hb]) rfl).trans h

/-- A test whether `q` can begin here. Where it cannot, the kinds that could begin it are noted. -/
def Tests (test : Parser Bool) (q : Production) : Prop :=
  ∀ s, ∃ ks, test s = .ok (scriptTable.opens q (kindsOf s.rest), s.note ks) ∧
    (scriptTable.opens q (kindsOf s.rest) = false → ∀ k, k ∈ ks ↔ k ∈ scriptTable.firstOf q)

theorem Tests.congr {test : Parser Bool} {q' : Production} (h : Tests test q)
    (hf : ∀ k, k ∈ scriptTable.firstOf q ↔ k ∈ scriptTable.firstOf q') : Tests test q' := by
  intro s
  obtain ⟨ks, hrun, hks⟩ := h s
  rw [Table.opens_congr hf rfl] at hrun hks
  exact ⟨ks, hrun, fun ho k => (hks ho k).trans (hf k)⟩

/-- A test for one thing and then for others. -/
theorem Tests.orElse {test later : Parser Bool} (h : Tests test q) (hl : Tests later (.choice qs)) :
    Tests (do if ← test then return true else later) (.choice (q :: qs)) := by
  intro s
  obtain ⟨ks, hrun, hks⟩ := h s
  have hopens : scriptTable.opens (.choice (q :: qs)) (kindsOf s.rest) =
      (scriptTable.opens q (kindsOf s.rest) ||
        scriptTable.opens (.choice qs) (kindsOf s.rest)) := by
    cases kindsOf s.rest with
    | nil => rfl
    | cons k ls =>
      rw [Bool.eq_iff_iff, Bool.or_eq_true, Table.opens_cons, Table.opens_cons, Table.opens_cons]
      exact Table.mem_firstOf_choice_cons
  rw [bind_run_ok hrun, hopens]
  by_cases ho : scriptTable.opens q (kindsOf s.rest) = true
  · rw [ho]
    exact ⟨ks, rfl, nofun⟩
  · rw [Bool.not_eq_true] at ho
    obtain ⟨ls, hrun', hls⟩ := hl (s.note ks)
    rw [ho, Bool.false_or]
    refine ⟨ks ++ ls, by rw [← Cursor.note_note]; exact hrun', fun ho' k => ?_⟩
    rw [List.mem_append, hks ho, hls ho', Table.mem_firstOf_choice_cons]

theorem Tests.choice {test : Parser Bool} (h : Tests test q) : Tests test (.choice [q]) :=
  h.congr fun k => by simp

theorem seesAny_run (h : ∀ k, k ∈ ks ↔ k ∈ scriptTable.firstOf q) (s : Cursor) :
    seesAny ks s = .ok (scriptTable.opens q (kindsOf s.rest), s.note ks) := by
  have hopens : s.rest.head?.any (ks.contains ·.kind) = scriptTable.opens q (kindsOf s.rest) := by
    cases s.rest with
    | nil => rfl
    | cons t rest =>
      rw [Bool.eq_iff_iff, kindsOf_cons, Table.opens_cons, ← h]
      exact List.contains_iff_mem
  rw [seesAny, hopens]

theorem seesRule_run (ρ : Rule) (s : Cursor) :
    seesRule ρ s = .ok (scriptTable.opens (.rule ρ) (kindsOf s.rest), s.note ρ.lead) :=
  seesAny_run (fun k => by rw [firstOf_rule]) s

theorem tests_seesAny (h : ∀ k, k ∈ ks ↔ k ∈ scriptTable.firstOf q) : Tests (seesAny ks) q :=
  fun s => ⟨ks, seesAny_run h s, fun _ => h⟩

theorem tests_seesRule (ρ : Rule) : Tests (seesRule ρ) (.rule ρ) :=
  tests_seesAny fun k => by rw [firstOf_rule]

/-- Where `q` can begin, `p` gives what `p?` gives, whatever was looked for there before. -/
def Meets (p : Parser α) (p? : Parser (Option α)) (q : Production) : Prop :=
  ∀ s s', Beside s s' → scriptTable.opens q (kindsOf s.rest) = true →
    Outcomes same (fun a o => o = some a) (p s) (p? s')

/-- Where `q` can begin, both parsers give the same thing, whatever was looked for there before. -/
def Joins (p p' : Parser (Option α)) (q : Production) : Prop :=
  ∀ s s', Beside s s' → scriptTable.opens q (kindsOf s.rest) = true →
    Outcomes same (fun o o' => ∃ a, o = some a ∧ o' = some a) (p s) (p' s')

namespace Meets

variable {p : Parser α} {p? : Parser (Option α)}

theorem congr {q' : Production} (h : Meets p p? q)
    (hq : ∀ k, k ∈ scriptTable.firstOf q ↔ k ∈ scriptTable.firstOf q') : Meets p p? q' :=
  fun s s' hs ho => h s s' hs ((Table.opens_congr hq rfl).trans ho)

theorem start {g : Nat → Parser α} {g' : Nat → Parser (Option α)} (h : ∀ a, Meets (g a) (g' a) q) :
    Meets (Parser.start >>= g) (Parser.start >>= g') q := by
  intro s s' hs ho
  change Outcomes same _ (g s.start s) (g' s'.start s')
  rw [hs.start_eq]
  exact h _ s s' hs ho

theorem bind {g : α → Parser β} {g' : Option α → Parser (Option β)} (h : Meets p p? q)
    (hg : ∀ a, Parallel same (fun b o => o = some b) (g a) (g' (some a))) :
    Meets (p >>= g) (p? >>= g') q := by
  intro s s' hs ho
  refine (h s s' hs ho).bind fun a o hao => ?_
  subst hao
  exact hg a

/-- The same value, wrapped up. -/
theorem map {f : α → β} {g' : Option α → Parser (Option β)} (h : Meets p p? q)
    (hg : ∀ a, g' (some a) = Pure.pure (some (f a))) :
    Meets (do return f (← p)) (p? >>= g') q :=
  h.bind fun a => by
    rw [hg]
    exact Parallel.pure rfl

theorem keep {g' : Option α → Parser (Option α)} (h : Meets p p? q)
    (hg : ∀ a, g' (some a) = Pure.pure (some a)) : Meets p (p? >>= g') q := by
  rw [← bind_pure p]
  exact h.map hg

/-- A rule that is tested for before others. -/
theorem orElse {yes rest : Parser β} {g' : Option α → Parser (Option β)}
    (hyes : Meets yes (p? >>= g') (.rule ρ)) (ho : Opens n r p? (.rule ρ))
    (hrest : Meets rest (g' none) (.choice qs)) :
    Meets (do if ← seesRule ρ then yes else rest) (p? >>= g') (.choice (.rule ρ :: qs)) := by
  intro s s' hs hopens
  rw [bind_run_ok (seesRule_run ρ s)]
  by_cases hρ : scriptTable.opens (.rule ρ) (kindsOf s.rest) = true
  · rw [hρ]
    exact hyes _ s' (hs.noteLeft _) hρ
  · rw [Bool.not_eq_true] at hρ
    rw [hρ]
    obtain ⟨ks, -, hskip⟩ := ho.skip_bind (g := g') (hs.rest ▸ hρ)
    rw [hskip]
    exact hrest _ _ ((hs.noteLeft _).noteRight ks) (opens_choice_tail hopens hρ)

/-- A rule that is tested for after all others. -/
theorem last {rest : Parser α} (h : Meets p p? (.rule ρ)) :
    Meets (do if ← seesRule ρ then p else rest) p? (.choice [.rule ρ]) := by
  intro s s' hs hopens
  have hρ : scriptTable.opens (.rule ρ) (kindsOf s.rest) = true := by
    rw [← hopens]
    exact Table.opens_congr (fun k => by simp) rfl
  rw [bind_run_ok (seesRule_run ρ s), hρ]
  exact h _ s' (hs.noteLeft _) hρ

theorem joinsMap {f : α → β} {g' : Option α → Parser (Option β)} (h : Meets p p? q)
    (hg : ∀ a, g' (some a) = Pure.pure (some (f a))) :
    Joins (do return some (f (← p))) (p? >>= g') q := by
  intro s s' hs ho
  refine (h s s' hs ho).bind fun a o hao => ?_
  subst hao
  rw [hg]
  exact Parallel.pure ⟨f a, rfl, rfl⟩

theorem joins (h : Meets p p? q) : Joins (do return some (← p)) p? q := by
  rw [← bind_pure p?]
  exact h.joinsMap fun _ => rfl

end Meets

namespace Joins

variable {p p' : Parser (Option α)} {test : Parser Bool}

theorem eq (h : Joins p p' q) (hs : Beside s s')
    (ho : scriptTable.opens q (kindsOf s.rest) = true) : Outcomes same Eq (p s) (p' s') :=
  (h s s' hs ho).imp fun _ _ ⟨_, ho, ho'⟩ => ho.trans ho'.symm

theorem map {f : α → β} (h : Joins p p' q) :
    Joins (do return (← p).map f) (do return (← p').map f) q := by
  intro s s' hs ho
  refine (h s s' hs ho).bind fun o o' hoo => ?_
  obtain ⟨a, rfl, rfl⟩ := hoo
  exact Parallel.pure ⟨f a, rfl, rfl⟩

theorem choice (h : Joins p p' q) : Joins p p' (.choice [q]) :=
  fun s s' hs ho => h s s' hs ((Table.opens_congr (fun k => by simp) rfl).trans ho)

/-- What is demanded where it was tested for. -/
theorem tested (h : Joins p p' q) (ht : Tests test q) :
    Joins (do if ← test then p else return none) p' q := by
  intro s s' hs ho
  obtain ⟨ks, hrun, -⟩ := ht s
  rw [bind_run_ok hrun, ho]
  exact h _ s' (hs.noteLeft _) ho

/-- A test and a demand are a parser of something that may be absent. -/
theorem mirrors (h : Joins p p' q) (ht : Tests test q) (ho : Opens n r p' q) :
    Mirrors (do if ← test then p else return none) p' := by
  intro s s' hs
  by_cases hq : scriptTable.opens q (kindsOf s.rest) = true
  · exact (h.tested ht).eq hs.1 hq
  · rw [Bool.not_eq_true] at hq
    obtain ⟨ks, hrun, hks⟩ := ht s
    obtain ⟨ls, hls, hskip⟩ := ho.skipped s' (hs.1.rest ▸ hq)
    rw [bind_run_ok hrun, hq, hskip]
    exact .ok rfl (same_note hs fun k => (hks hq k).trans (hls k).symm)

end Joins

theorem joins_ifSeen {p : Parser α} {p? : Parser (Option α)} (h : Meets p p? (.rule ρ)) :
    Joins (ifSeen ρ p) p? (.rule ρ) :=
  h.joins.tested (tests_seesRule ρ)

theorem mirrors_ifSeen {p : Parser α} {p? : Parser (Option α)} (h : Meets p p? (.rule ρ))
    (ho : Opens n r p? (.rule ρ)) : Mirrors (ifSeen ρ p) p? :=
  h.joins.mirrors (tests_seesRule ρ) ho

/-- A repetition that can begin goes through one round at least. -/
theorem many_beside {p p' : Parser (Option α)} (h : Mirrors p p') (hj : Joins p p' q)
    (ho : Opens n r p' q) (hr : r ≠ .stack) (hs : Beside s s')
    (hq : scriptTable.opens q (kindsOf s.rest) = true) :
    Outcomes same (fun as bs => as = bs ∧ bs ≠ []) (many p s) (many p' s') := by
  have hround : Outcomes same (Option.Rel Eq) (p s) (p' s') := by
    refine (hj s s' hs hq).imp fun o o' hoo => ?_
    obtain ⟨a, rfl, rfl⟩ := hoo
    exact .some rfl
  have hmany : Outcomes same (List.Forall₂ Eq) (many p s) (many p' s') :=
    h.rel.many_at hround (by rw [Cursor.ahead_eq, Cursor.ahead_eq, hs.rest])
  have htaken : Agrees n r (.atLeastOne q) (fun as => as ≠ []) 1 s' (many p' s') :=
    ho.many_taken hr (hs.rest ▸ hq)
  generalize many p s = res, many p' s' = res' at hmany htaken
  cases hmany with
  | error failure => exact .error failure
  | ok value cursor =>
    rw [List.forall₂_eq_eq_eq] at value
    cases htaken with
    | done hne => exact .ok ⟨value, hne⟩ cursor

variable (dead : (α : Type) → Rule → List Kind → Parser α)

/-- Where a token of a kind comes next, both sides take it. -/
theorem opening_beside {k : Kind} (hs : Beside s s')
    (ho : scriptTable.opens (.token k) (kindsOf s.rest) = true) :
    ∃ t s₁, opening dead ρ k s = .ok (t, s₁) ∧ take? k s' = .ok (some t, s₁) := by
  cases hrest : s.rest with
  | nil => simp [hrest, Table.opens] at ho
  | cons t rest =>
    rw [hrest, kindsOf_cons, Table.opens_cons, Table.mem_firstOf_token] at ho
    obtain ⟨s₁, hrun, hrun', -⟩ := takeAny_beside hs hrest (List.mem_singleton.2 ho)
    exact ⟨t, s₁, bind_run_ok hrun, hrun'⟩

/-- A rule that opens with a token of its own. -/
theorem meets_opening {k : Kind} {g : Token → Parser α} {g' : Option Token → Parser (Option α)}
    (hρ : ρ.lead = [k]) (hg : ∀ t, Parallel same (fun a o => o = some a) (g t) (g' (some t))) :
    Meets (opening dead ρ k >>= g) (take? k >>= g') (.rule ρ) := by
  intro s s' hs ho
  have htoken : scriptTable.opens (.token k) (kindsOf s.rest) = true :=
    (Table.opens_congr (fun j => by simp [firstOf_rule, hρ, Table.mem_firstOf_token]) rfl).trans ho
  obtain ⟨t, s₁, hrun, hrun'⟩ := opening_beside dead hs htoken
  rw [bind_run_ok hrun, bind_run_ok hrun']
  exact hg t s₁ s₁ (same_refl s₁)

/-- A token that may be absent, looked for on both sides. -/
theorem take?_beside {S : β → β' → Prop} {k : Kind} {g : Option Token → Parser β}
    {g' : Option Token → Parser β'} (hs : Beside s s')
    (hsome : ∀ t, Parallel same S (g (some t)) (g' (some t)))
    (hnone : scriptTable.opens (.token k) (kindsOf s.rest) = false →
      Outcomes same S (g none (s.note [k])) (g' none (s'.note [k]))) :
    Outcomes same S ((take? k >>= g) s) ((take? k >>= g') s') := by
  by_cases hk : ∀ j ∈ (kindsOf s.rest).head?, j ∉ [k]
  · rw [bind_run_ok (p := take? k) (takeAny_of_not_mem hk),
      bind_run_ok (p := take? k) (takeAny_of_not_mem (hs.rest ▸ hk))]
    exact hnone (Table.opens_eq_false.2 (by simpa using hk))
  · cases hrest : s.rest with
    | nil => simp [hrest] at hk
    | cons t rest =>
      have ht : t.kind ∈ [k] := by simpa [hrest] using hk
      obtain ⟨s₁, hrun, hrun', -⟩ := takeAny_beside hs hrest ht
      rw [bind_run_ok (p := take? k) hrun, bind_run_ok (p := take? k) hrun']
      exact hsome t s₁ s₁ (same_refl s₁)

/-- A choice of a token, looked for on both sides, and something else. -/
theorem joins_take? {k : Kind} {g g' : Option Token → Parser (Option β)}
    (hsome : ∀ t, Parallel same (fun o o' => ∃ b, o = some b ∧ o' = some b) (g (some t))
      (g' (some t)))
    (hnone : Joins (g none) (g' none) (.choice qs)) :
    Joins (take? k >>= g) (take? k >>= g') (.choice (.token k :: qs)) := by
  intro s s' hs ho
  exact take?_beside hs hsome fun hk =>
    hnone _ _ ((hs.noteLeft _).noteRight _) (opens_choice_tail ho hk)

end Committed

end BlockNotation
