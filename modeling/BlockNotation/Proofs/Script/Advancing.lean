import BlockNotation.Script.Parse

/-!
# Parsers that call themselves behind the tokens they have taken

A parser never goes back, and often it has to take a token (`Takes`). Two parsers that are built
alike from two others do the same at a cursor if those do the same from there on, and where they are
used only behind a token that was taken, it is enough that they do the same behind it (`AgreeFrom`).

A parser may be defined in terms of itself if it uses itself only in this way (`Guarded`): then the
equation has one solution, which is found by recursion on the number of tokens that are left
(`Guarded.eq_iff`). Repeating a parser is the simplest case (`Takes.many_iff`).
-/

namespace BlockNotation

namespace Cursor

/-- From `s` at least `least` tokens were taken. -/
def Leads (least : Nat) (s s' : Cursor) : Prop :=
  ∃ w, s.rest = w ++ s'.rest ∧ s'.index = s.index + w.length ∧ least ≤ w.length

namespace Leads

variable {s s' s'' : Cursor} {n m : Nat}

theorem refl (s : Cursor) : s.Leads 0 s := ⟨[], rfl, rfl, Nat.le_refl 0⟩

theorem note (s : Cursor) (ks : List Kind) : s.Leads 0 (s.note ks) := refl s

theorem trans (h : s.Leads n s') (h' : s'.Leads m s'') : s.Leads (n + m) s'' := by
  obtain ⟨w, hrest, hindex, hle⟩ := h
  obtain ⟨v, hrest', hindex', hle'⟩ := h'
  refine ⟨w ++ v, ?_, ?_, ?_⟩
  · rw [hrest, hrest', List.append_assoc]
  · rw [hindex', hindex, List.length_append, Nat.add_assoc]
  · rw [List.length_append]
    exact Nat.add_le_add hle hle'

theorem mono (hle : m ≤ n) (h : s.Leads n s') : s.Leads m s' := by
  obtain ⟨w, hrest, hindex, hn⟩ := h
  exact ⟨w, hrest, hindex, Nat.le_trans hle hn⟩

theorem index_le (h : s.Leads n s') : s.index + n ≤ s'.index := by
  obtain ⟨w, -, hindex, hn⟩ := h
  omega

theorem ahead_le (h : s.Leads n s') : s'.ahead + n ≤ s.ahead := by
  obtain ⟨w, hrest, -, hn⟩ := h
  rw [s'.ahead_eq, s.ahead_eq, hrest, List.length_append]
  omega

end Leads

end Cursor

namespace Parser

variable {α β : Type} {least : α → Nat} {lower : β → Nat} {p p' q : Parser α} {s : Cursor}
  {k n : Nat}

/-- The number of tokens that a parser takes at least where it gives something. -/
def given : Option α → Nat
  | some _ => 1
  | none => 0

/-- A parser that gives `a` has taken at least `least a` tokens. -/
def Takes (least : α → Nat) (p : Parser α) : Prop :=
  ∀ s a s', p s = .ok (a, s') → s.Leads (least a) s'

/-- Wherever at least `k` tokens were taken from `s`, two parsers do the same, and they take at
least `least a` more to give `a`. -/
def AgreeFrom (k : Nat) (s : Cursor) (least : α → Nat) (p p' : Parser α) : Prop :=
  ∀ s₁, s.Leads k s₁ → p s₁ = p' s₁ ∧ ∀ a s₂, p s₁ = .ok (a, s₂) → s₁.Leads (least a) s₂

/-! ## Combinators -/

namespace AgreeFrom

theorem mono (hle : n ≤ k) (h : AgreeFrom n s least p p') : AgreeFrom k s least p p' :=
  fun s₁ hs => h s₁ (hs.mono hle)

theorem weaken {fewer : α → Nat} (hle : ∀ a, fewer a ≤ least a) (h : AgreeFrom k s least p p') :
    AgreeFrom k s fewer p p' :=
  fun s₁ hs => ⟨(h s₁ hs).1, fun a s₂ ha => ((h s₁ hs).2 a s₂ ha).mono (hle a)⟩

theorem pure {a : α} (h : least a = 0) : AgreeFrom k s least (pure a) (pure a) := by
  intro s₁ _
  refine ⟨rfl, ?_⟩
  rintro _ _ ⟨⟩
  rw [h]
  exact .refl s₁

theorem fail {cause : Cause} : AgreeFrom k s least (fail cause) (fail cause) :=
  fun _ _ => ⟨rfl, nofun⟩

/-- What follows `p` is used only behind the tokens that `p` takes. -/
theorem bind {g g' : α → Parser β} (hp : AgreeFrom k s least p p')
    (hg : ∀ a, AgreeFrom (k + least a) s (fun b => lower b - least a) (g a) (g' a)) :
    AgreeFrom k s lower (p >>= g) (p' >>= g') := by
  intro s₁ hs
  obtain ⟨hsame, htakes⟩ := hp s₁ hs
  change (p s₁).bind _ = (p' s₁).bind _ ∧
    ∀ b s₃, (p s₁).bind (fun x => g x.1 x.2) = .ok (b, s₃) → s₁.Leads (lower b) s₃
  rw [← hsame]
  cases hrun : p s₁ with
  | error e => exact ⟨rfl, nofun⟩
  | ok x =>
    obtain ⟨a, s₂⟩ := x
    have hfirst := htakes a s₂ hrun
    obtain ⟨hsame', htakes'⟩ := hg a s₂ (hs.trans hfirst)
    refine ⟨hsame', fun b s₃ hb => (hfirst.trans (htakes' b s₃ hb)).mono ?_⟩
    exact Nat.sub_le_iff_le_add'.1 (Nat.le_refl _)

/-- A part that both have in common. -/
theorem after {g g' : α → Parser β} (hp : Takes least p)
    (hg : ∀ a, AgreeFrom (k + least a) s (fun b => lower b - least a) (g a) (g' a)) :
    AgreeFrom k s lower (p >>= g) (p >>= g') :=
  bind (fun s₁ _ => ⟨rfl, hp s₁⟩) hg

theorem many {p p' : Parser (Option α)} (h : AgreeFrom k s given p p') :
    AgreeFrom k s List.length (many p) (many p') := by
  intro s₁ hs
  induction hn : s₁.ahead using Nat.strongRecOn generalizing s₁ with
  | ind n ih =>
    subst hn
    obtain ⟨hsame, htakes⟩ := h s₁ hs
    rw [Parser.many, Parser.many, repetition, repetition, ← hsame]
    cases hrun : p s₁ with
    | error e => exact ⟨rfl, nofun⟩
    | ok x =>
      obtain ⟨_ | a, s₂⟩ := x
      · refine ⟨rfl, ?_⟩
        rintro _ _ ⟨⟩
        exact htakes none s₂ hrun
      · have hround := htakes (some a) s₂ hrun
        have hlt : s₂.ahead < s₁.ahead := hround.ahead_le
        obtain ⟨hlater, hcount⟩ := ih _ hlt s₂ ((hs.trans hround).mono (Nat.le_add_right k 1)) rfl
        rw [Parser.many, Parser.many] at hlater
        rw [Parser.many] at hcount
        simp only [if_pos hlt, ← hlater]
        refine ⟨trivial, fun as s₃ has => ?_⟩
        cases hrest : repetition Cursor.ahead p s₂ with
        | error e =>
          rw [hrest] at has
          cases has
        | ok y =>
          rw [hrest] at has
          cases has
          exact (hround.trans (hcount y.1 y.2 hrest)).mono (Nat.le_of_eq (Nat.add_comm _ 1))

end AgreeFrom

theorem Takes.agreeFrom (h : Takes least p) (k : Nat) (s : Cursor) : AgreeFrom k s least p p :=
  fun s₁ _ => ⟨rfl, h s₁⟩

theorem Takes.of_agreeFrom (h : ∀ s, AgreeFrom 0 s least p p) : Takes least p :=
  fun s => (h s s (.refl s)).2

/-! ## Single tokens -/

theorem takes_takeAny (kinds : List Kind) : Takes given (takeAny kinds) := by
  intro s o s' h
  obtain ⟨rest, ahead, heq, index, lastEnd, tried⟩ := s
  rcases rest with _ | ⟨t, rest⟩
  · cases h
    exact .note _ kinds
  · simp only [takeAny, Cursor.next?] at h
    split at h
    · cases h
      exact ⟨[t], rfl, rfl, Nat.le_refl 1⟩
    · cases h
      exact .note _ kinds

theorem takes_take? (kind : Kind) : Takes given (take? kind) := takes_takeAny [kind]

theorem takes_take (rule : Rule) (kind : Kind) : Takes (fun _ => 1) (take rule kind) := by
  refine .of_agreeFrom fun s => .after (takes_take? kind) fun token => ?_
  cases token with
  | some token => exact .pure rfl
  | none => exact .fail

theorem takes_sees (kind : Kind) : Takes (fun _ => 0) (sees kind) := by
  rintro s _ _ ⟨⟩
  exact .note s _

theorem takes_note (kinds : List Kind) : Takes (fun _ => 0) (note kinds) := by
  rintro s _ _ ⟨⟩
  exact .note s kinds

theorem takes_start : Takes (fun _ => 0) start := by
  rintro s _ _ ⟨⟩
  exact .refl s

theorem takes_lastEnd : Takes (fun _ => 0) lastEnd := by
  rintro s _ _ ⟨⟩
  exact .refl s

/-! ## Parsers defined in terms of themselves -/

/-- The parser that `F` makes of itself. It would fail if it were used where no fewer tokens are
left. -/
def fix (F : Parser α → Parser α) : Parser α := fun s =>
  F (fun s' => if s'.ahead < s.ahead then fix F s' else fail (.unexpected .code [] false) s') s
termination_by s => s.ahead

/-- What `F` makes of a parser uses it only behind a token that was taken, and takes itself at least
`least a` tokens to give `a` if that parser does. -/
def Guarded (least : α → Nat) (F : Parser α → Parser α) : Prop :=
  ∀ s p p', AgreeFrom 1 s least p p' → AgreeFrom 0 s least (F p) (F p')

namespace Guarded

variable {F : Parser α → Parser α}

/-- Two solutions are the same, one cursor after the other from the end. -/
theorem agree (hF : Guarded least F) (hp : p = F p) (hq : q = F q) (s : Cursor) :
    p s = q s ∧ ∀ a s', p s = .ok (a, s') → s.Leads (least a) s' := by
  induction hn : s.ahead using Nat.strongRecOn generalizing s with
  | ind n ih =>
    subst hn
    have hlater : AgreeFrom 1 s least p q := fun s₁ hs => ih _ hs.ahead_le s₁ rfl
    have hstep := hF s p q hlater s (.refl s)
    rwa [← hp, ← hq] at hstep

theorem fix_eq (hF : Guarded least F) : fix F = F (fix F) := by
  have hstep : ∀ s : Cursor, fix F s = F (fix F) s ∧
      ∀ a s', fix F s = .ok (a, s') → s.Leads (least a) s' := by
    intro s
    induction hn : s.ahead using Nat.strongRecOn generalizing s with
    | ind n ih =>
      subst hn
      rw [fix]
      refine hF s _ _ (fun s₁ hs => ?_) s (.refl s)
      have hlt : s₁.ahead < s.ahead := hs.ahead_le
      rw [if_pos hlt]
      exact ⟨rfl, (ih _ hlt s₁ rfl).2⟩
  exact funext fun s => (hstep s).1

/-- The equation of a guarded parser has one solution. -/
theorem eq_iff (hF : Guarded least F) : p = F p ↔ p = fix F := by
  constructor
  · exact fun hp => funext fun s => (hF.agree hp hF.fix_eq s).1
  · rintro rfl
    exact hF.fix_eq

theorem takes (hF : Guarded least F) : Takes least (fix F) :=
  fun s => (hF.agree hF.fix_eq hF.fix_eq s).2

end Guarded

/-! ## Loops -/

/-- One round of a loop, and what is left of it unless the round gives nothing. -/
def round (p : Parser (Option α)) (later : Parser (List α)) : Parser (List α) := do
  match ← p with
  | some a => return a :: (← later)
  | none => return []

theorem guarded_round {p : Parser (Option α)} (h : Takes given p) :
    Guarded List.length (round p) := by
  refine fun s later later' hlater => .after h fun o => ?_
  cases o with
  | none => exact .pure rfl
  | some a => exact hlater.bind fun as => .pure (by simp [given])

/-- Every round that does not end the loop takes a token, so that the loop is the only parser that
does a round and then itself again. -/
theorem Takes.many_iff {p : Parser (Option α)} (h : Takes given p) {loop : Parser (List α)} :
    loop = round p loop ↔ loop = many p := by
  have hloop : many p = round p (many p) := by
    funext s
    change _ = (p s).bind _
    rw [many, repetition]
    cases hrun : p s with
    | error e => rfl
    | ok x =>
      obtain ⟨_ | a, s'⟩ := x
      · rfl
      · have hlt : s'.ahead < s.ahead := (h s (some a) s' hrun).ahead_le
        simp only [if_pos hlt]
        change _ = (repetition Cursor.ahead p s').bind _
        cases repetition Cursor.ahead p s' <;> rfl
  constructor
  · exact fun hp => funext fun s => ((guarded_round h).agree hp hloop s).1
  · rintro rfl
    exact hloop

end Parser

end BlockNotation
