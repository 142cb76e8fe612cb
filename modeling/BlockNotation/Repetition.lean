/-!
# Repetition of a step

A step of a computation over some state may give a value or find that there is nothing more to do.
Repeating it ends when it gives nothing, and also, whatever it gives, when it leaves no less to do
than before.
-/

namespace BlockNotation

/-- The values of a step repeated until it gives nothing. `size` measures what is left to do; a
round that does not lower it is the last. -/
def repetition {σ ε α : Type} (size : σ → Nat) (step : StateT σ (Except ε) (Option α)) :
    StateT σ (Except ε) (List α) := fun s =>
  match step s with
  | .error e => .error e
  | .ok (none, s') => .ok ([], s')
  | .ok (some a, s') =>
    if size s' < size s then
      match repetition size step s' with
      | .error e => .error e
      | .ok (as, s'') => .ok (a :: as, s'')
    else .ok ([a], s')
termination_by s => size s

end BlockNotation
