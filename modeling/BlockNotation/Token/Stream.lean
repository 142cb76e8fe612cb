import BlockNotation.Token.Lexeme

/-!
# The tokens of a source text

`tokenize` reads a text from left to right, skipping trivia and taking one lexeme after another.
It fails at the first point where neither stands. Labels may hold spaced comparison operators
while an angle bracket is open, so the reading carries the number of open ones; a closing bracket
without an opening one leaves that number at zero.
-/

namespace BlockNotation

/-- The number of open angle brackets after a token, given the number before it. -/
def angleDepth (depth : Nat) : Kind → Nat
  | .openAngle => depth + 1
  | .closeAngle => depth - 1
  | _ => depth

/-- Neither trivia nor a token begins at some point of the source. -/
structure LexicalError where
  place : Place
  /-- The source from that point to its end. -/
  remainder : String
deriving DecidableEq, Inhabited

/-- The tokens of the text `cs`, which begins at `place` inside `depth` open angle brackets. -/
def tokensFrom (depth : Nat) (place : Place) (cs : List Char) : Except LexicalError (List Token) :=
  if cs = [] then .ok []
  else
    match _ : triviaLength cs with
    | some n => tokensFrom depth (place.after (cs.take n)) (cs.drop n)
    | none =>
      match _ : lexeme (depth ≠ 0) cs with
      | none => .error ⟨place, String.ofList cs⟩
      | some (kind, n) =>
        (tokensFrom (angleDepth depth kind) (place.after (cs.take n)) (cs.drop n)).map
          (Token.ofText kind place (cs.take n) :: ·)
termination_by cs.length
decreasing_by
  · have := triviaLength_pos ‹_›
    have : cs.length ≠ 0 := by simpa using ‹¬cs = []›
    simp only [List.length_drop]
    omega
  · have := lexeme_pos ‹_›
    have : cs.length ≠ 0 := by simpa using ‹¬cs = []›
    simp only [List.length_drop]
    omega

/-- The tokens of a source text. -/
def tokenize (source : String) : Except LexicalError (List Token) :=
  tokensFrom 0 .origin source.toList

end BlockNotation
