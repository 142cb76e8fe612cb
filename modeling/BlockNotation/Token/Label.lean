/-!
# Labels

A label is free text: words of label units, joined by gaps of blanks. A unit is an escaped
character, a colon that is not followed by another, or any character that is neither structural
nor blank and does not open a comment. A label ends in front of a gap that is followed by a
standalone `end` or `else`. Inside angle brackets a `<` or `>` with gaps on both sides and label
text after it is part of the label, so that `<x > 5>` holds one label.

All lengths in this module count characters.
-/

namespace BlockNotation

/-- The characters that separate words without ending a line. -/
def isBlank (c : Char) : Bool := c = ' ' || c = '\t' || c = '\r'

/-- The characters that stand in a label only when escaped. -/
def isStructural (c : Char) : Bool :=
  ['\x7b', '\x7d', '(', ')', '<', '>', '[', ']', ';', '"', '#', '@', '|'].contains c

/-- Does a comment begin here? -/
def opensComment : List Char → Bool
  | '/' :: '/' :: _ => true
  | '/' :: '*' :: _ => true
  | _ => false

/-- The length of the label unit at the front of a text. -/
def unitLength : List Char → Option Nat
  | [] => none
  | '\\' :: rest => if rest.isEmpty then none else some 2
  | ':' :: rest => if rest.head? = some ':' then none else some 1
  | c :: rest =>
    if isBlank c || c = '\n' || isStructural c || opensComment (c :: rest) then none else some 1

/-- Does a label unit begin here? -/
def startsUnit (cs : List Char) : Bool := (unitLength cs).isSome

/-- The length of the longest run of label units at the front of a text. -/
def wordLength : List Char → Nat
  | [] => 0
  | ['\\'] => 0
  | '\\' :: _ :: rest => wordLength rest + 2
  | c :: rest => if startsUnit (c :: rest) then wordLength rest + 1 else 0

/-- The length of the run of blanks at the front of a text. -/
def gapLength (cs : List Char) : Nat := (cs.takeWhile isBlank).length

/-- The text after the run of blanks at its front. -/
def afterGap (cs : List Char) : List Char := cs.dropWhile isBlank

theorem gapLength_add_length_afterGap (cs : List Char) :
    gapLength cs + (afterGap cs).length = cs.length := by
  rw [gapLength, afterGap, ← List.length_append, List.takeWhile_append_dropWhile]

/-- Does a text begin with a word given in lower case, ignoring the case of ASCII letters? -/
def startsWithWord : List Char → List Char → Bool
  | _, [] => true
  | [], _ :: _ => false
  | c :: cs, w :: word => c.toLower = w && startsWithWord cs word

/-- Does a standalone `end` or `else` begin here? -/
def closesClause (cs : List Char) : Bool :=
  ["end".toList, "else".toList].any fun word =>
    startsWithWord cs word && !startsUnit (cs.drop word.length)

/-- Is this the operator of a comparison: `<` or `>`, then a gap, then more label text? -/
def startsOperator : List Char → Bool
  | [] => false
  | c :: rest =>
    (c = '<' || c = '>') && gapLength rest != 0 && startsUnit (afterGap rest) &&
      !closesClause (afterGap rest)

theorem wordLength_pos {cs : List Char} (h : startsUnit cs) : 0 < wordLength cs := by
  unfold startsUnit unitLength at h
  unfold wordLength
  split <;> simp_all [startsUnit, unitLength]

/-- How far a label goes on after a complete word. -/
def labelTail (operators : Bool) (cs : List Char) : Nat :=
  let next := afterGap cs
  if gapLength cs = 0 then 0
  else if closesClause next then 0
  else if startsUnit next then
    gapLength cs + wordLength next + labelTail operators (next.drop (wordLength next))
  else if operators && startsOperator next then
    gapLength cs + 1 + labelTail operators (next.drop 1)
  else 0
termination_by cs.length
decreasing_by
  all_goals
    have := gapLength_add_length_afterGap cs
    simp only [List.length_drop]
    omega

/-- The length of the label at the front of a text, if there is one. With `operators`, spaced
`<` and `>` may stand between its words. -/
def labelLength (operators : Bool) (cs : List Char) : Option Nat :=
  if startsUnit cs then
    let word := wordLength cs
    some (word + labelTail operators (cs.drop word))
  else none

theorem labelLength_pos {operators : Bool} {cs : List Char} {n : Nat}
    (h : labelLength operators cs = some n) : 0 < n := by
  unfold labelLength at h
  split at h
  · next hu =>
    have := wordLength_pos hu
    simp only [Option.some.injEq] at h
    omega
  · simp at h

end BlockNotation
