import BlockNotation.Proofs.Token.Lossless

/-!
# Where no token can be read

Reading a text stops where neither trivia nor a token begins. `Unreadable` lists the texts of which
this is so: brackets and comments that are never closed, a closing bracket of a choice without an
opening one, colours and names that break off, and a final backslash (`unreadable_iff`).

What begins at a point is decided by its first character. Where a label unit begins, the text is a
number, a keyword or a label, and can always be read; all else is in `markLexeme`.
-/

namespace BlockNotation

/-- An unescaped `close` is reached. A backslash escapes any character but a line feed; in front of
a line feed, or at the end, nothing is reached any more. -/
inductive Closes (close : Char) : List Char → Prop where
  | here {rest : List Char} : Closes close (close :: rest)
  | plain {c : Char} {rest : List Char} (hc : c ≠ '\\') (later : Closes close rest) :
      Closes close (c :: rest)
  | escaped {c : Char} {rest : List Char} (hc : c ≠ '\n') (later : Closes close rest) :
      Closes close ('\\' :: c :: rest)

/-- Neither trivia nor a token begins here. -/
inductive Unreadable : List Char → Prop where
  | string {rest : List Char} (h : ¬Closes '"' rest) : Unreadable ('"' :: rest)
  | remark {rest : List Char} (h : ¬Closes '|' rest) : Unreadable ('|' :: rest)
  | choice {rest : List Char} (h : ¬Closes ']' rest) : Unreadable ('[' :: rest)
  | closeChoice {rest : List Char} : Unreadable (']' :: rest)
  | color {rest : List Char} (h : (rest.takeWhile isHexDigit).length < 3) :
      Unreadable ('#' :: rest)
  | name {rest : List Char} (h : ∀ c ∈ rest.head?, ¬(c.isAlphanum ∨ c = '_')) :
      Unreadable ('@' :: rest)
  | comment {rest : List Char} (h : ¬['*', '/'] <:+: rest) : Unreadable ('/' :: '*' :: rest)
  | backslash : Unreadable ['\\']

theorem closedLength_here (close : Char) (rest : List Char) :
    closedLength close (close :: rest) = some 1 := by
  rw [closedLength.eq_def]
  simp

theorem closedLength_plain {close c : Char} (hc : c ≠ close) (hb : c ≠ '\\') (rest : List Char) :
    closedLength close (c :: rest) = (closedLength close rest).map (· + 1) := by
  rw [closedLength.eq_def]
  simp [hc, hb]

theorem closedLength_escaped {close c : Char} (hclose : close ≠ '\\') (hc : c ≠ '\n')
    (rest : List Char) :
    closedLength close ('\\' :: c :: rest) = (closedLength close rest).map (· + 2) := by
  rw [closedLength.eq_def]
  simp [hclose.symm, hc]

theorem closes_iff {close : Char} (hclose : close ≠ '\\') {cs : List Char} :
    Closes close cs ↔ (closedLength close cs).isSome := by
  constructor
  · intro h
    induction h with
    | here => simp [closedLength_here]
    | @plain c rest hc _ ih =>
      by_cases h : c = close
      · subst h; simp [closedLength_here]
      · simpa [closedLength_plain h hc] using ih
    | escaped hc _ ih => simpa [closedLength_escaped hclose hc] using ih
  · intro h
    fun_induction closedLength close cs with
    | case1 => cases h
    | case2 rest => exact .here
    | case3 => cases h
    | case4 => cases h
    | case5 c rest hc _ ih => exact .escaped hc (ih (by simpa using h))
    | case6 c rest _ hc ih => exact .plain hc (ih (by simpa using h))

theorem commentLength_eq_none_iff {cs : List Char} :
    commentLength cs = none ↔ ¬['*', '/'] <:+: cs := by
  fun_induction commentLength cs with
  | case1 => simp
  | case2 rest => simp [List.infix_cons_iff]
  | case3 c rest hnot ih =>
    rw [Option.map_eq_none_iff, ih, List.infix_cons_iff, not_or]
    refine ⟨fun h => ⟨?_, h⟩, And.right⟩
    intro hpre
    obtain ⟨rfl, tail, rfl⟩ := List.cons_prefix_cons.1 hpre
    exact hnot tail rfl rfl

/-! ## What begins with which character -/

theorem opensComment_cons (c : Char) (rest : List Char) : opensComment (c :: rest) =
    (c = '/' && (rest.head? = some '/' || rest.head? = some '*')) := by
  unfold opensComment
  rcases rest with _ | ⟨d, rest⟩ <;> grind

theorem startsUnit_cons (c : Char) (rest : List Char) : startsUnit (c :: rest) =
    if c = '\\' then !rest.isEmpty
    else if c = ':' then !decide (rest.head? = some ':')
    else !(isBlank c || c = '\n' || isStructural c || opensComment (c :: rest)) := by
  unfold startsUnit unitLength
  split
  · simp_all
  · grind
  · grind
  · grind

/-- The characters at which a label unit may fail to begin. -/
def unitBreakers : List Char :=
  ['\\', ':', '/', ']', ' ', '\t', '\r', '\x7b', '\x7d', '(', ')', '<', '>', '\n', '[', ';', '"',
    '#', '@', '|']

theorem startsUnit_of_not_mem {c : Char} (h : c ∉ unitBreakers) (rest : List Char) :
    startsUnit (c :: rest) := by
  simp only [unitBreakers, List.mem_cons, List.not_mem_nil, or_false, not_or] at h
  simp [startsUnit_cons, isBlank, isStructural, opensComment_cons, h]

theorem startsUnit_of_digitsLength {cs : List Char} (h : digitsLength cs ≠ 0) :
    startsUnit cs := by
  cases cs with
  | nil => exact absurd rfl h
  | cons c rest =>
    refine startsUnit_of_not_mem (fun hc => h ?_) rest
    have hdigit : ∀ d ∈ unitBreakers, d.isDigit = false := by simp [unitBreakers]
    simp [digitsLength, hdigit c hc]

theorem startsUnit_of_numberLength {cs : List Char} (h : numberLength cs ≠ none) :
    startsUnit cs := by
  unfold numberLength at h
  split at h
  · exact startsUnit_of_not_mem (by decide) _
  · refine startsUnit_of_digitsLength fun hzero => h ?_
    simp [unsignedLength, hzero]

theorem startsWithWord_cons {cs : List Char} {w : Char} {word : List Char}
    (h : startsWithWord cs (w :: word)) :
    ∃ c rest, cs = c :: rest ∧ c.toLower = w ∧ startsWithWord rest word := by
  cases cs with
  | nil => simp [startsWithWord] at h
  | cons c rest => exact ⟨c, rest, rfl, by simpa [startsWithWord] using h⟩

theorem startsUnit_of_startsWithWord {cs : List Char} {w : Char} {word : List Char}
    (hw : w.isLower) (h : startsWithWord cs (w :: word)) : startsUnit cs := by
  obtain ⟨c, rest, rfl, rfl, -⟩ := startsWithWord_cons h
  refine startsUnit_of_not_mem (fun hc => ?_) rest
  have hlower : ∀ d ∈ unitBreakers, d.toLower.isLower = false := by simp [unitBreakers]
  simp [hlower c hc] at hw

/-- The spellings of the keywords that are one word. -/
def keywordWords : List (List Char) :=
  [['f', 'o', 'r', 'e', 'v', 'e', 'r'], ['e', 'n', 'd'], ['r', 'e', 'p', 'e', 'a', 't'],
    ['i', 'f'], ['e', 'l', 's', 'e'], ['t', 'h', 'e', 'n']]

/-- The keyword of a kind, unless it consists of two words. -/
def wordOfKind : Kind → Option (List Char)
  | .foreverWord => some "forever".toList
  | .endWord => some "end".toList
  | .thenWord => some "then".toList
  | .repeatWord => some "repeat".toList
  | .ifWord => some "if".toList
  | .elseWord => some "else".toList
  | _ => none

/-- The keyword at the front of a text is spelled there. -/
theorem keywordAt_spells {cs : List Char} {k : Kind} {n : Nat} (h : keywordAt cs = some (k, n)) :
    (∃ word ∈ keywordWords, wordOfKind k = some word ∧ startsWithWord cs word ∧ n = word.length) ∨
      k = .repeatUntilWord ∧ repeatUntilLength cs = some n := by
  obtain ⟨⟨k', spelling⟩, hmem, hs⟩ := List.exists_of_findSome?_eq_some h
  simp only [Option.map_eq_some_iff, Prod.mk.injEq] at hs
  obtain ⟨m, hm, rfl, rfl⟩ := hs
  simp only [keywordSpellings, List.mem_cons, Prod.mk.injEq, List.not_mem_nil, or_false] at hmem
  rcases hmem with h | h | h | h | h | h | h <;> obtain ⟨rfl, rfl⟩ := h
  case inr.inr.inl => exact .inr ⟨rfl, hm⟩
  all_goals
    unfold spellingLength at hm
    split at hm
    · next hword =>
      exact .inl ⟨_, by decide, rfl, hword, (Option.some.inj hm).symm⟩
    · cases hm

theorem startsUnit_of_keywordAt {cs : List Char} (h : keywordAt cs ≠ none) :
    startsUnit cs := by
  obtain ⟨⟨k, n⟩, hk⟩ := Option.ne_none_iff_exists'.1 h
  rcases keywordAt_spells hk with ⟨word, hmem, -, hword, -⟩ | ⟨-, hn⟩
  · simp only [keywordWords, List.mem_cons, List.not_mem_nil, or_false] at hmem
    rcases hmem with rfl | rfl | rfl | rfl | rfl | rfl <;>
      exact startsUnit_of_startsWithWord (by decide) hword
  · unfold repeatUntilLength at hn
    split at hn
    · next hword => exact startsUnit_of_startsWithWord (w := 'r') (by decide) hword
    · cases hn

/-- A number, a keyword or a label. -/
def wordLexeme (operators : Bool) (cs : List Char) : Option (Kind × Nat) :=
  numberLexeme operators cs <|> keywordLexeme operators cs
    <|> (labelLength operators cs).map (.label, ·)

/-- A token that begins with a character no label begins with. -/
def markLexeme : List Char → Option (Kind × Nat)
  | '|' :: rest => (closedLength '|' rest).map fun n => (.remark, n + 1)
  | '"' :: rest => (closedLength '"' rest).map fun n => (.stringLiteral, n + 1)
  | '[' :: rest => (closedLength ']' rest).map fun n => (.choiceLiteral, n + 1)
  | '#' :: rest => (colorLength ('#' :: rest)).map (.colorLiteral, ·)
  | '@' :: rest => (identifierLength ('@' :: rest)).map (.identifier, ·)
  | ';' :: rest => (delimiterLength (';' :: rest)).map (.delimiter, ·)
  | '\n' :: _ => some (.delimiter, 1)
  | ':' :: ':' :: _ => some (.doubleColon, 2)
  | cs => bracketLexeme cs

theorem lexeme_of_startsUnit {operators : Bool} {cs : List Char} (h : startsUnit cs) :
    lexeme operators cs = wordLexeme operators cs := by
  cases cs with
  | nil => cases h
  | cons c rest =>
    have hc : c ∉ ['|', '"', '#', '[', ';', '\n'] := by
      intro hc
      have hstart : ∀ d ∈ ['|', '"', '#', '[', ';', '\n'], startsUnit (d :: rest) = false := by
        simp [startsUnit_cons, isBlank, isStructural]
      simp [hstart c hc] at h
    have hlabel : labelLength operators (c :: rest) = some _ := if_pos h
    simp only [List.mem_cons, List.not_mem_nil, or_false, not_or] at hc
    simp [lexeme, wordLexeme, delimitedLength, colorLength, delimiterLength, hc, hlabel]

theorem lexeme_of_not_startsUnit {operators : Bool} {cs : List Char} (h : ¬startsUnit cs) :
    lexeme operators cs = markLexeme cs := by
  have hnumber : numberLexeme operators cs = none := by
    rw [numberLexeme, Option.map_eq_none_iff]
    exact not_imp_comm.1 startsUnit_of_numberLength h
  have hkeyword : keywordLexeme operators cs = none := by
    rw [keywordLexeme, not_imp_comm.1 startsUnit_of_keywordAt h]
  have hlabel : labelLength operators cs = none := if_neg h
  rw [lexeme, hnumber, hkeyword, hlabel]
  unfold markLexeme
  split
  case h_9 =>
    cases cs <;>
      simp_all [delimitedLength, colorLength, delimiterLength, markerLength, identifierLength]
  all_goals simp [delimitedLength, colorLength, delimiterLength, bracketLexeme, markerLength,
    identifierLength, Function.comp_def]

/-! ## Unreadable texts -/

theorem not_startsUnit_of_lexeme {operators : Bool} {cs : List Char}
    (h : lexeme operators cs = none) : ¬startsUnit cs := by
  intro hstart
  have hlabel : labelLength operators cs = some _ := if_pos hstart
  simp [lexeme_of_startsUnit hstart, wordLexeme, hlabel] at h

theorem gapLength_cons (c : Char) (rest : List Char) :
    gapLength (c :: rest) = if isBlank c then gapLength rest + 1 else 0 := by
  unfold gapLength
  rw [List.takeWhile_cons]
  split <;> simp

theorem colorLength_eq_none_iff {rest : List Char} :
    colorLength ('#' :: rest) = none ↔ (rest.takeWhile isHexDigit).length < 3 := by
  unfold colorLength
  grind

theorem identifierLength_eq_none_iff {rest : List Char} : identifierLength ('@' :: rest) = none ↔
    ∀ c ∈ rest.head?, ¬(c.isAlphanum ∨ c = '_') := by
  cases rest with
  | nil => simp [identifierLength]
  | cons c rest =>
    by_cases hc : c.isAlphanum ∨ c = '_'
    · rcases hc with hc | rfl <;> simp [identifierLength, *]
    · rw [not_or] at hc
      simp [identifierLength, hc]

namespace Unreadable

variable {cs : List Char}

theorem not_startsUnit (h : Unreadable cs) : ¬startsUnit cs := by
  cases h <;> simp [startsUnit_cons, isBlank, isStructural, opensComment]

theorem triviaLength_eq_none (h : Unreadable cs) : triviaLength cs = none := by
  cases h
  case comment rest h => simp [triviaLength, gapLength_cons, isBlank, commentLength_eq_none_iff.2 h]
  all_goals simp [triviaLength, gapLength_cons, isBlank]

theorem markLexeme_eq_none (h : Unreadable cs) : markLexeme cs = none := by
  cases h
  case string h => simpa [markLexeme, closes_iff] using h
  case remark h => simpa [markLexeme, closes_iff] using h
  case choice h => simpa [markLexeme, closes_iff] using h
  case color h => rw [markLexeme, colorLength_eq_none_iff.2 h, Option.map_none]
  case name h => rw [markLexeme, identifierLength_eq_none_iff.2 h, Option.map_none]
  all_goals rfl

end Unreadable

/-- Where no label begins and none of the other marks, there is a bracket, a blank, a comment or
one of three unreadable texts. -/
theorem unreadable_of_bracketLexeme {c : Char} {rest : List Char}
    (hc : c ∈ ['\\', ':', '/', ']', ' ', '\t', '\r', '\x7b', '\x7d', '(', ')', '<', '>'])
    (hstart : ¬startsUnit (c :: rest)) (hmarker : c = ':' → rest.head? ≠ some ':')
    (htrivia : triviaLength (c :: rest) = none) (h : bracketLexeme (c :: rest) = none) :
    Unreadable (c :: rest) := by
  simp only [List.mem_cons, List.not_mem_nil, or_false] at hc
  rcases hc with rfl | rfl | rfl | rfl | hc
  · have hrest : rest = [] := by simpa [startsUnit_cons] using hstart
    subst hrest
    exact .backslash
  · simp [startsUnit_cons, hmarker] at hstart
  · have hcomment : opensComment ('/' :: rest) = true := by
      simpa [startsUnit_cons, isBlank, isStructural] using hstart
    unfold opensComment at hcomment
    split at hcomment
    · simp_all [triviaLength, gapLength_cons, isBlank]
    · next h =>
      obtain ⟨-, rfl⟩ := List.cons.inj h
      refine .comment (commentLength_eq_none_iff.1 ?_)
      simpa [triviaLength, gapLength_cons, isBlank] using htrivia
    · cases hcomment
  · exact .closeChoice
  · exfalso
    rcases hc with rfl | rfl | rfl | rfl | rfl | rfl | rfl | rfl | rfl <;>
      simp [triviaLength, gapLength_cons, isBlank, bracketLexeme] at htrivia h

/-- Neither trivia nor a token begins exactly at the unreadable texts. -/
theorem unreadable_iff (operators : Bool) {cs : List Char} (hne : cs ≠ []) :
    Unreadable cs ↔ triviaLength cs = none ∧ lexeme operators cs = none := by
  constructor
  · intro h
    exact ⟨h.triviaLength_eq_none,
      (lexeme_of_not_startsUnit h.not_startsUnit).trans h.markLexeme_eq_none⟩
  · rintro ⟨htrivia, hlexeme⟩
    have hstart := not_startsUnit_of_lexeme hlexeme
    rw [lexeme_of_not_startsUnit hstart] at hlexeme
    unfold markLexeme at hlexeme
    split at hlexeme
    · exact .remark (by simpa [closes_iff] using hlexeme)
    · exact .string (by simpa [closes_iff] using hlexeme)
    · exact .choice (by simpa [closes_iff] using hlexeme)
    · exact .color (colorLength_eq_none_iff.1 (Option.map_eq_none_iff.1 hlexeme))
    · exact .name (identifierLength_eq_none_iff.1 (Option.map_eq_none_iff.1 hlexeme))
    · cases hlexeme
    · cases hlexeme
    · cases hlexeme
    · cases cs with
      | nil => exact absurd rfl hne
      | cons c rest =>
        have hc := not_imp_comm.1 (startsUnit_of_not_mem · rest) hstart
        refine unreadable_of_bracketLexeme ?_ hstart ?_ htrivia hlexeme
        · simp_all [unitBreakers]
        · rintro rfl hhead
          obtain ⟨tail, rfl⟩ := List.head?_eq_some_iff.1 hhead
          simp_all

/-! ## The reading of a text, round by round -/

section Rounds

variable {depth : Nat} {place : Place} {cs : List Char}

theorem tokensFrom_of_trivia {n : Nat} (h : triviaLength cs = some n) :
    tokensFrom depth place cs = tokensFrom depth (place.after (cs.take n)) (cs.drop n) := by
  have hne : cs ≠ [] := by rintro rfl; cases h
  rw [tokensFrom, if_neg hne]
  split <;> simp_all

theorem tokensFrom_of_lexeme {k : Kind} {n : Nat} (htrivia : triviaLength cs = none)
    (h : lexeme (depth ≠ 0) cs = some (k, n)) : tokensFrom depth place cs =
      (tokensFrom (angleDepth depth k) (place.after (cs.take n)) (cs.drop n)).map
        (Token.ofText k place (cs.take n) :: ·) := by
  have hne : cs ≠ [] := by rintro rfl; cases h
  rw [tokensFrom, if_neg hne]
  split
  · simp_all
  · split <;> simp_all

theorem tokensFrom_of_unreadable (h : Unreadable cs) :
    tokensFrom depth place cs = .error ⟨place, String.ofList cs⟩ := by
  have hne : cs ≠ [] := by rintro rfl; cases h
  obtain ⟨htrivia, hlexeme⟩ := (unreadable_iff (depth ≠ 0) hne).1 h
  rw [tokensFrom, if_neg hne]
  split
  · simp_all
  · split <;> simp_all

end Rounds

/-- A point at which the reading of a text stands. -/
structure Stand where
  /-- The number of open angle brackets. -/
  depth : Nat
  place : Place
  /-- What is still to be read. -/
  rest : List Char

namespace Stand

/-- The stand behind the next `n` characters. -/
def pass (s : Stand) (n depth : Nat) : Stand :=
  ⟨depth, s.place.after (s.rest.take n), s.rest.drop n⟩

/-- Reading comes from one stand to another in rounds that each skip trivia or take a token; `ts`
are the tokens taken. -/
inductive Reaches : Stand → List Token → Stand → Prop where
  | here {s : Stand} : Reaches s [] s
  | skip {s s' : Stand} {n : Nat} {ts : List Token} (trivia : triviaLength s.rest = some n)
      (later : Reaches (s.pass n s.depth) ts s') : Reaches s ts s'
  | take {s s' : Stand} {k : Kind} {n : Nat} {ts : List Token}
      (trivia : triviaLength s.rest = none) (token : lexeme (s.depth ≠ 0) s.rest = some (k, n))
      (later : Reaches (s.pass n (angleDepth s.depth k)) ts s') :
      Reaches s (Token.ofText k s.place (s.rest.take n) :: ts) s'

namespace Reaches

variable {s s' : Stand} {ts : List Token}

theorem suffix (h : Reaches s ts s') :
    ∃ passed, s.rest = passed ++ s'.rest ∧ s'.place = s.place.after passed := by
  induction h with
  | here => exact ⟨[], rfl, rfl⟩
  | @skip s s' n ts _ _ ih | @take s s' k n ts _ _ _ ih =>
    obtain ⟨passed, hrest, hplace⟩ := ih
    refine ⟨s.rest.take n ++ passed, ?_, ?_⟩
    · rw [List.append_assoc, ← hrest, pass, List.take_append_drop]
    · rw [Place.after_append, hplace, pass]

theorem length_le (h : Reaches s ts s') : s'.rest.length ≤ s.rest.length := by
  obtain ⟨passed, hrest, -⟩ := h.suffix
  simp [hrest]

/-- What is read from a stand is read from every stand before it, behind the tokens taken so far. -/
theorem tokensFrom_eq (h : Reaches s ts s') : tokensFrom s.depth s.place s.rest =
    (tokensFrom s'.depth s'.place s'.rest).map (ts ++ ·) := by
  induction h with
  | @here s => cases tokensFrom s.depth s.place s.rest <;> rfl
  | skip trivia _ ih =>
    rw [tokensFrom_of_trivia trivia]
    exact ih
  | @take s s' k n ts trivia token _ ih =>
    rw [tokensFrom_of_lexeme trivia token]
    refine (congrArg _ ih).trans ?_
    cases tokensFrom s'.depth s'.place s'.rest <;> rfl

end Reaches

/-- A reading that fails comes to stand at a text where nothing begins. -/
theorem reaches_of_error {depth : Nat} {place : Place} {cs : List Char} {e : LexicalError}
    (h : tokensFrom depth place cs = .error e) :
    ∃ ts s, Reaches ⟨depth, place, cs⟩ ts s ∧ Unreadable s.rest ∧
      e = ⟨s.place, String.ofList s.rest⟩ := by
  fun_induction tokensFrom depth place cs with
  | case1 => cases h
  | case2 depth place cs hne n hn ih =>
    obtain ⟨ts, s, hs, he⟩ := ih h
    exact ⟨ts, s, .skip hn hs, he⟩
  | case3 depth place cs hne hn hk =>
    cases h
    exact ⟨[], _, .here, (unreadable_iff _ hne).2 ⟨hn, hk⟩, rfl⟩
  | case4 depth place cs hne hn k n hk ih =>
    cases hrun : tokensFrom (angleDepth depth k) (place.after (cs.take n)) (cs.drop n) with
    | ok later => rw [hrun] at h; cases h
    | error e' =>
      rw [hrun] at h
      cases h
      obtain ⟨ts, s, hs, he⟩ := ih hrun
      exact ⟨_, s, .take hn hk hs, he⟩

end Stand

end BlockNotation
