/-!
# Sweeps

A sweep brings the items of a state up to date one after the other, each against what the items
before it have become. Rounds over all items are repeated until one changes nothing. That comes to
an end because an item that changes leaves less to change; where it ends, every item is up to date
(`refresh_settle`).
-/

namespace BlockNotation

/-- Items that can be brought up to date in a state. -/
structure Sweep (σ ι : Type) where
  items : List ι
  /-- Brings an item up to date with the state. -/
  refresh : σ → ι → σ
  /-- What every state on the way satisfies. -/
  Sound : σ → Prop
  /-- How much is left to change. -/
  left : σ → Nat
  sound_refresh : ∀ s i, Sound s → Sound (refresh s i)
  falls : ∀ s i, Sound s → refresh s i = s ∨ left (refresh s i) < left s

namespace Sweep

variable {σ ι : Type} (w : Sweep σ ι) {s : σ}

/-- Brings each item up to date, in order. -/
def round (s : σ) : σ := w.items.foldl w.refresh s

theorem foldl_induction {P : σ → Prop} (hP : ∀ s i, P s → P (w.refresh s i)) (is : List ι)
    (h : P s) : P (is.foldl w.refresh s) := by
  induction is generalizing s with
  | nil => exact h
  | cons i is ih => exact ih (hP s i h)

theorem sound_round (h : w.Sound s) : w.Sound (w.round s) :=
  w.foldl_induction w.sound_refresh w.items h

/-- Either no item changes the state, or there is less left to change after all of them. -/
theorem foldl_falls (is : List ι) (h : w.Sound s) :
    (is.foldl w.refresh s = s ∧ ∀ i ∈ is, w.refresh s i = s) ∨
      w.left (is.foldl w.refresh s) < w.left s := by
  induction is generalizing s with
  | nil => exact .inl ⟨rfl, by simp⟩
  | cons i is ih =>
    rw [List.foldl_cons]
    rcases w.falls s i h with hi | hi
    · rw [hi]
      exact (ih h).imp_left fun ⟨heq, his⟩ => ⟨heq, List.forall_mem_cons.2 ⟨hi, his⟩⟩
    · right
      rcases ih (w.sound_refresh s i h) with ⟨heq, -⟩ | hlt
      · rwa [heq]
      · exact Nat.lt_trans hlt hi

theorem left_round_lt (h : w.Sound s) (hne : w.round s ≠ s) : w.left (w.round s) < w.left s :=
  (w.foldl_falls w.items h).resolve_left fun hall => hne hall.1

theorem refresh_of_round (h : w.Sound s) (hs : w.round s = s) {i : ι} (hi : i ∈ w.items) :
    w.refresh s i = s := by
  rcases w.foldl_falls w.items h with ⟨-, hall⟩ | hlt
  · exact hall i hi
  · have heq : w.items.foldl w.refresh s = s := hs
    rw [heq] at hlt
    exact absurd hlt (Nat.lt_irrefl _)

section Settle

variable [DecidableEq σ]

/-- Repeats rounds until one changes nothing. -/
def settle (s : σ) (h : w.Sound s) : σ :=
  if w.round s = s then s else settle (w.round s) (w.sound_round h)
termination_by w.left s
decreasing_by exact w.left_round_lt h ‹_›

theorem settle_induction {P : σ → Prop} (hP : ∀ s i, P s → P (w.refresh s i)) (h : w.Sound s)
    (hs : P s) : P (w.settle s h) := by
  fun_induction settle w s h with
  | case1 s h heq => exact hs
  | case2 s h hne ih => exact ih (w.foldl_induction hP w.items hs)

theorem round_settle (h : w.Sound s) : w.round (w.settle s h) = w.settle s h := by
  fun_induction settle w s h with
  | case1 s h heq => exact heq
  | case2 s h hne ih => exact ih

theorem refresh_settle (h : w.Sound s) {i : ι} (hi : i ∈ w.items) :
    w.refresh (w.settle s h) i = w.settle s h :=
  w.refresh_of_round (w.settle_induction w.sound_refresh h h) (w.round_settle h) hi

end Settle

end Sweep

end BlockNotation
