import BlockNotation.Proofs.Script.Following
import Mathlib.Data.List.Forall2

/-!
# Two parsers side by side

Two parsers run in parallel if from cursors that are alike both come to related values and to
cursors that are alike again, or both fail in like manner (`Parallel`). What is alike is chosen by
a `Likeness`, how values are related by a relation; the combinators of parsers keep it.
-/

namespace BlockNotation

theorem map_eq_of_rel {α α' β : Type} {g : α → β} {g' : α' → β} {o : Option α} {o' : Option α'}
    (h : Option.Rel (fun a b => g a = g' b) o o') : o.map g = o'.map g' := by
  cases h with
  | none => rfl
  | some h => exact congrArg some h

theorem map_eq_of_forall₂ {α α' β : Type} {g : α → β} {g' : α' → β} {as : List α} {bs : List α'}
    (h : List.Forall₂ (fun a b => g a = g' b) as bs) : as.map g = bs.map g' := by
  rwa [← List.forall₂_eq_eq_eq, List.forall₂_map_left_iff, List.forall₂_map_right_iff]

/-- When two cursors, and two failures, count as the same. -/
structure Likeness where
  cursor : Cursor → Cursor → Prop
  failure : Failure → Failure → Prop
  /-- As many tokens are left. -/
  ahead_eq : ∀ {s s'}, cursor s s' → s.ahead = s'.ahead
  /-- A parser that fails anyhow does so on both sides. -/
  fails : ∀ {s s'} (cause : Cause), cursor s s' →
    failure ⟨cause, s.index, s.rest.head?, s.nextSpan⟩ ⟨cause, s'.index, s'.rest.head?, s'.nextSpan⟩

/-- Two outcomes of the same kind, with values that `R` relates. -/
inductive Outcomes {α β : Type} (L : Likeness) (R : α → β → Prop) :
    Except Failure (α × Cursor) → Except Failure (β × Cursor) → Prop where
  | ok {a : α} {b : β} {s s' : Cursor} (value : R a b) (cursor : L.cursor s s') :
      Outcomes L R (.ok (a, s)) (.ok (b, s'))
  | error {f f' : Failure} (failure : L.failure f f') : Outcomes L R (.error f) (.error f')

variable {α α' β β' : Type} {L : Likeness} {R : α → α' → Prop} {S : β → β' → Prop}

theorem Outcomes.imp {R' : α → α' → Prop} {res : Except Failure (α × Cursor)}
    {res' : Except Failure (α' × Cursor)} (h : Outcomes L R res res')
    (hR : ∀ a b, R a b → R' a b) : Outcomes L R' res res' := by
  cases h with
  | ok value cursor => exact .ok (hR _ _ value) cursor
  | error failure => exact .error failure

/-- From cursors that are alike, both parsers have outcomes of the same kind. -/
def Parallel (L : Likeness) (R : α → α' → Prop) (p : Parser α) (q : Parser α') : Prop :=
  ∀ s s', L.cursor s s' → Outcomes L R (p s) (q s')

/-- Parsers that go on from outcomes of the same kind. -/
theorem Outcomes.bind {p : Parser α} {q : Parser α'} {g : α → Parser β} {k : α' → Parser β'}
    {s s' : Cursor} (h : Outcomes L R (p s) (q s'))
    (hg : ∀ a b, R a b → Parallel L S (g a) (k b)) :
    Outcomes L S ((p >>= g) s) ((q >>= k) s') := by
  change Outcomes L S ((p s).bind fun x => g x.1 x.2) ((q s').bind fun x => k x.1 x.2)
  generalize p s = res, q s' = res' at h
  cases h with
  | ok value cursor => exact hg _ _ value _ _ cursor
  | error failure => exact .error failure

namespace Parallel

theorem pure {a : α} {b : α'} (h : R a b) : Parallel L R (pure a) (pure b) :=
  fun _ _ hs => .ok h hs

theorem fail {cause : Cause} : Parallel L R (Parser.fail cause) (Parser.fail cause) :=
  fun _ _ hs => .error (L.fails cause hs)

theorem imp {p : Parser α} {q : Parser α'} {R' : α → α' → Prop} (h : Parallel L R p q)
    (hR : ∀ a b, R a b → R' a b) : Parallel L R' p q :=
  fun s s' hs => (h s s' hs).imp hR

theorem bind {p : Parser α} {q : Parser α'} {g : α → Parser β} {k : α' → Parser β'}
    (h : Parallel L R p q) (hg : ∀ a b, R a b → Parallel L S (g a) (k b)) :
    Parallel L S (p >>= g) (q >>= k) :=
  fun s s' hs => (h s s' hs).bind hg

/-- A parser of something that may be absent is absent on both sides or on none. -/
theorem cases {p : Parser (Option α)} {q : Parser (Option α')} {g : Option α → Parser β}
    {k : Option α' → Parser β'} (h : Parallel L (Option.Rel R) p q)
    (hsome : ∀ a b, R a b → Parallel L S (g (some a)) (k (some b)))
    (hnone : Parallel L S (g none) (k none)) : Parallel L S (p >>= g) (q >>= k) := by
  refine h.bind fun o o' ho => ?_
  cases ho with
  | none => exact hnone
  | some hab => exact hsome _ _ hab

theorem map {p : Parser (Option α)} {q : Parser (Option α')} {g : α → β} {k : α' → β'}
    (h : Parallel L (Option.Rel R) p q) (hg : ∀ a b, R a b → S (g a) (k b)) :
    Parallel L (Option.Rel S) (do return (← p).map g) (do return (← q).map k) :=
  h.cases (fun a b hab => .pure (.some (hg a b hab))) (.pure .none)

/-- A repetition whose first round is alike on both sides, as all later ones are. -/
theorem many_at {p : Parser (Option α)} {q : Parser (Option α')} (h : Parallel L (Option.Rel R) p q)
    {s s' : Cursor} (hround : Outcomes L (Option.Rel R) (p s) (q s')) (hs : s.ahead = s'.ahead) :
    Outcomes L (List.Forall₂ R) (Parser.many p s) (Parser.many q s') := by
  induction hn : s.ahead using Nat.strongRecOn generalizing s s' with
  | ind n ih =>
    subst hn
    unfold Parser.many
    rw [repetition, repetition]
    generalize p s = res, q s' = res' at hround
    cases hround with
    | error failure => exact .error failure
    | @ok o o' t t' value cursor =>
      cases value with
      | none => exact .ok .nil cursor
      | some hab =>
        simp only [← L.ahead_eq cursor, ← hs]
        by_cases hlt : t.ahead < s.ahead
        · rw [if_pos hlt, if_pos hlt]
          have hlater := ih _ hlt (h t t' cursor) (L.ahead_eq cursor) rfl
          unfold Parser.many at hlater
          generalize repetition Cursor.ahead p t = rest, repetition Cursor.ahead q t' = rest'
            at hlater
          cases hlater with
          | error failure => exact .error failure
          | ok value cursor => exact .ok (.cons hab value) cursor
        · rw [if_neg hlt, if_neg hlt]
          exact .ok (.cons hab .nil) cursor

theorem many {p : Parser (Option α)} {q : Parser (Option α')} (h : Parallel L (Option.Rel R) p q) :
    Parallel L (List.Forall₂ R) (Parser.many p) (Parser.many q) :=
  fun s s' hs => h.many_at (h s s' hs) (L.ahead_eq hs)

end Parallel

end BlockNotation
