import BlockNotation.Token.Basic
import BlockNotation.Token.Label

/-!
# Lexemes and trivia

What can stand at one point of a source text. Trivia separates tokens and is skipped: blanks,
comments to the end of a line, and closed block comments. `lexeme` gives the kind and the length
of the token at the front of a text; the kinds are tried in a fixed order and the first that
matches wins.

All lengths count characters, and each is positive (`triviaLength_pos`, `lexeme_pos`).
-/

namespace BlockNotation

/-- The length of a text up to and including the first `*/`. -/
def commentLength : List Char → Option Nat
  | [] => none
  | '*' :: '/' :: _ => some 2
  | _ :: rest => (commentLength rest).map (· + 1)

/-- The length of the trivia at the front of a text. A block comment that is never closed is no
trivia, and neither is anything else. -/
def triviaLength (cs : List Char) : Option Nat :=
  if gapLength cs ≠ 0 then some (gapLength cs)
  else
    match cs with
    | '/' :: '/' :: rest => some ((rest.takeWhile (· ≠ '\n')).length + 2)
    | '/' :: '*' :: rest => (commentLength rest).map (· + 2)
    | _ => none

theorem triviaLength_pos {cs : List Char} {n : Nat} (h : triviaLength cs = some n) : 0 < n := by
  unfold triviaLength at h
  split at h
  · simp only [Option.some.injEq] at h; omega
  · split at h
    · simp only [Option.some.injEq] at h; omega
    · simp only [Option.map_eq_some_iff] at h
      obtain ⟨m, -, rfl⟩ := h
      omega
    · simp at h

/-- The length of a text up to and including its first unescaped `close`. A backslash escapes any
character but a line feed; in front of a line feed, or at the end, it leaves the text open. -/
def closedLength (close : Char) : List Char → Option Nat
  | [] => none
  | c :: rest =>
    if c = close then some 1
    else if c = '\\' then
      match rest with
      | [] => none
      | e :: rest => if e = '\n' then none else (closedLength close rest).map (· + 2)
    else (closedLength close rest).map (· + 1)

/-- The length of a text in brackets at the front: strings, choices and remarks. -/
def delimitedLength (opening closing : Char) : List Char → Option Nat
  | [] => none
  | c :: rest => if c = opening then (closedLength closing rest).map (· + 1) else none

/-- The length of the run of decimal digits at the front of a text. -/
def digitsLength (cs : List Char) : Nat := (cs.takeWhile Char.isDigit).length

/-- The length of a number without sign: digits, then perhaps a point and more digits. -/
def unsignedLength (cs : List Char) : Option Nat :=
  let whole := digitsLength cs
  if whole = 0 then none
  else
    match cs.drop whole with
    | '.' :: rest =>
      if digitsLength rest = 0 then some whole else some (whole + 1 + digitsLength rest)
    | _ => some whole

/-- The length of the number at the front of a text. -/
def numberLength : List Char → Option Nat
  | '-' :: rest => (unsignedLength rest).map (· + 1)
  | cs => unsignedLength cs

/-- Is this a hexadecimal digit? -/
def isHexDigit (c : Char) : Bool := c.isDigit || ('a' ≤ c.toLower && c.toLower ≤ 'f')

/-- The length of the colour at the front of a text: `#` with six hexadecimal digits, or with
three when there are not six. -/
def colorLength : List Char → Option Nat
  | '#' :: rest =>
    let digits := (rest.takeWhile isHexDigit).length
    if 6 ≤ digits then some 7 else if 3 ≤ digits then some 4 else none
  | _ => none

/-- The length of `repeat until` at the front of a text, whose words are parted by one or more
spaces and tabs. -/
def repeatUntilLength (cs : List Char) : Option Nat :=
  if startsWithWord cs "repeat".toList then
    let rest := cs.drop 6
    let gap := (rest.takeWhile fun c => c = ' ' || c = '\t').length
    if gap ≠ 0 && startsWithWord (rest.drop gap) "until".toList then some (6 + gap + 5) else none
  else none

/-- The length of a keyword's spelling at the front of a text. -/
def spellingLength (word : String) (cs : List Char) : Option Nat :=
  if startsWithWord cs word.toList then some word.length else none

/-- The keywords in the order in which they are tried, each with its spelling. -/
def keywordSpellings : List (Kind × (List Char → Option Nat)) :=
  [(.foreverWord, spellingLength "forever"), (.endWord, spellingLength "end"),
    (.repeatUntilWord, repeatUntilLength), (.repeatWord, spellingLength "repeat"),
    (.ifWord, spellingLength "if"), (.elseWord, spellingLength "else"),
    (.thenWord, spellingLength "then")]

/-- The first keyword whose spelling stands at the front of a text. -/
def keywordAt (cs : List Char) : Option (Kind × Nat) :=
  keywordSpellings.findSome? fun (kind, spelling) => (spelling cs).map (kind, ·)

/-- The keyword at the front of a text. With label text right after it, the keyword is only how a
longer label begins. -/
def keywordLexeme (operators : Bool) (cs : List Char) : Option (Kind × Nat) :=
  match keywordAt cs with
  | none => none
  | some (kind, n) =>
    if startsUnit (cs.drop n) then (labelLength operators cs).map (.label, ·) else some (kind, n)

/-- The length of the delimiter at the front of a text: a semicolon with the blanks and the line
feed that follow it, a semicolon alone, or a line feed. -/
def delimiterLength : List Char → Option Nat
  | ';' :: rest => some (if (afterGap rest).head? = some '\n' then gapLength rest + 2 else 1)
  | '\n' :: _ => some 1
  | _ => none

/-- The number at the front of a text, unless a label reads further: `10 steps`. -/
def numberLexeme (operators : Bool) (cs : List Char) : Option (Kind × Nat) :=
  (numberLength cs).map fun n =>
    match labelLength operators cs with
    | some m => if n < m then (.label, m) else (.numberLiteral, n)
    | none => (.numberLiteral, n)

/-- A bracket at the front of a text. -/
def bracketLexeme : List Char → Option (Kind × Nat)
  | '\x7b' :: _ => some (.openCurly, 1)
  | '\x7d' :: _ => some (.closeCurly, 1)
  | '(' :: _ => some (.openRound, 1)
  | ')' :: _ => some (.closeRound, 1)
  | '<' :: _ => some (.openAngle, 1)
  | '>' :: _ => some (.closeAngle, 1)
  | _ => none

/-- The length of the identifier at the front of a text. -/
def identifierLength : List Char → Option Nat
  | '@' :: rest =>
    let name := (rest.takeWhile fun c => c.isAlphanum || c = '_').length
    if name = 0 then none else some (name + 1)
  | _ => none

/-- The `::` that marks a modifier. -/
def markerLength : List Char → Option Nat
  | ':' :: ':' :: _ => some 2
  | _ => none

/-- Kind and length of the token at the front of a text. With `operators`, labels may hold spaced
`<` and `>`. -/
def lexeme (operators : Bool) (cs : List Char) : Option (Kind × Nat) :=
  (delimitedLength '|' '|' cs).map (.remark, ·)
    <|> (delimitedLength '"' '"' cs).map (.stringLiteral, ·)
    <|> numberLexeme operators cs
    <|> (colorLength cs).map (.colorLiteral, ·)
    <|> (delimitedLength '[' ']' cs).map (.choiceLiteral, ·)
    <|> keywordLexeme operators cs
    <|> (delimiterLength cs).map (.delimiter, ·)
    <|> (labelLength operators cs).map (.label, ·)
    <|> bracketLexeme cs
    <|> (markerLength cs).map (.doubleColon, ·)
    <|> (identifierLength cs).map (.identifier, ·)

/-! ## Every lexeme takes at least one character -/

theorem delimitedLength_pos {a b : Char} {cs : List Char} {n : Nat}
    (h : delimitedLength a b cs = some n) : 0 < n := by
  unfold delimitedLength at h
  split at h
  · simp at h
  · split at h
    · simp only [Option.map_eq_some_iff] at h
      obtain ⟨m, -, rfl⟩ := h
      omega
    · simp at h

theorem unsignedLength_pos {cs : List Char} {n : Nat} (h : unsignedLength cs = some n) :
    0 < n := by
  unfold unsignedLength at h
  grind

theorem numberLength_pos {cs : List Char} {n : Nat} (h : numberLength cs = some n) : 0 < n := by
  unfold numberLength at h
  split at h
  · simp only [Option.map_eq_some_iff] at h
    obtain ⟨m, -, rfl⟩ := h
    omega
  · exact unsignedLength_pos h

theorem colorLength_pos {cs : List Char} {n : Nat} (h : colorLength cs = some n) : 0 < n := by
  unfold colorLength at h
  grind

theorem repeatUntilLength_pos {cs : List Char} {n : Nat} (h : repeatUntilLength cs = some n) :
    0 < n := by
  unfold repeatUntilLength at h
  split at h
  · simp only [] at h
    split at h <;> simp only [Option.some.injEq, reduceCtorEq] at h
    omega
  · simp at h

theorem spellingLength_pos {word : String} {cs : List Char} {n : Nat} (hw : 0 < word.length)
    (h : spellingLength word cs = some n) : 0 < n := by
  unfold spellingLength at h
  grind

theorem keywordAt_pos {cs : List Char} {k : Kind} {n : Nat} (h : keywordAt cs = some (k, n)) :
    0 < n := by
  obtain ⟨⟨k', spelling⟩, hmem, hs⟩ := List.exists_of_findSome?_eq_some h
  simp only [Option.map_eq_some_iff, Prod.mk.injEq] at hs
  obtain ⟨m, hm, rfl, rfl⟩ := hs
  simp only [keywordSpellings, List.mem_cons, Prod.mk.injEq, List.not_mem_nil, or_false] at hmem
  rcases hmem with h | h | h | h | h | h | h <;> obtain ⟨-, rfl⟩ := h
  case inr.inr.inl => exact repeatUntilLength_pos hm
  all_goals exact spellingLength_pos (by decide) hm

theorem keywordLexeme_pos {operators : Bool} {cs : List Char} {k : Kind} {n : Nat}
    (h : keywordLexeme operators cs = some (k, n)) : 0 < n := by
  unfold keywordLexeme at h
  split at h
  · simp at h
  · next hk =>
    split at h
    · simp only [Option.map_eq_some_iff, Prod.mk.injEq] at h
      obtain ⟨m, hm, -, rfl⟩ := h
      exact labelLength_pos hm
    · simp only [Option.some.injEq, Prod.mk.injEq] at h
      obtain ⟨-, rfl⟩ := h
      exact keywordAt_pos hk

theorem delimiterLength_pos {cs : List Char} {n : Nat} (h : delimiterLength cs = some n) :
    0 < n := by
  unfold delimiterLength at h
  grind

theorem numberLexeme_pos {operators : Bool} {cs : List Char} {k : Kind} {n : Nat}
    (h : numberLexeme operators cs = some (k, n)) : 0 < n := by
  unfold numberLexeme at h
  simp only [Option.map_eq_some_iff] at h
  obtain ⟨m, hm, h⟩ := h
  have := numberLength_pos hm
  grind

theorem bracketLexeme_pos {cs : List Char} {k : Kind} {n : Nat}
    (h : bracketLexeme cs = some (k, n)) : 0 < n := by
  unfold bracketLexeme at h
  split at h <;> simp only [Option.some.injEq, Prod.mk.injEq, reduceCtorEq] at h <;> omega

theorem identifierLength_pos {cs : List Char} {n : Nat} (h : identifierLength cs = some n) :
    0 < n := by
  unfold identifierLength at h
  grind

theorem markerLength_pos {cs : List Char} {n : Nat} (h : markerLength cs = some n) : 0 < n := by
  unfold markerLength at h
  grind

theorem lexeme_pos {operators : Bool} {cs : List Char} {k : Kind} {n : Nat}
    (h : lexeme operators cs = some (k, n)) : 0 < n := by
  simp only [lexeme, Option.orElse_eq_orElse, Option.orElse_eq_or, Option.or_eq_some_iff,
    Option.map_eq_some_iff, Prod.mk.injEq] at h
  rcases h with ⟨m, hm, -, rfl⟩ | ⟨-, ⟨m, hm, -, rfl⟩ | ⟨-, hm | ⟨-, ⟨m, hm, -, rfl⟩ |
    ⟨-, ⟨m, hm, -, rfl⟩ | ⟨-, hm | ⟨-, ⟨m, hm, -, rfl⟩ | ⟨-, ⟨m, hm, -, rfl⟩ | ⟨-, hm |
    ⟨-, ⟨m, hm, -, rfl⟩ | ⟨-, m, hm, -, rfl⟩⟩⟩⟩⟩⟩⟩⟩⟩⟩
  · exact delimitedLength_pos hm
  · exact delimitedLength_pos hm
  · exact numberLexeme_pos hm
  · exact colorLength_pos hm
  · exact delimitedLength_pos hm
  · exact keywordLexeme_pos hm
  · exact delimiterLength_pos hm
  · exact labelLength_pos hm
  · exact bracketLexeme_pos hm
  · exact markerLength_pos hm
  · exact identifierLength_pos hm

end BlockNotation
