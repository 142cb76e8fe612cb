import BlockNotation.Proofs.Token.Replacing

/-!
# Tokens set apart

What separates the tokens of a source has no part in where they begin and end: the texts of the
tokens with an empty comment between them are read as the same tokens (`tokenize_separated`).
-/

namespace BlockNotation

/-- An empty comment between spaces. -/
def separator : List Char := " /**/ ".toList

theorem tokensFrom_separator {depth : Nat} {place : Place} (cs : List Char) :
    tokensFrom depth place (separator ++ cs) = tokensFrom depth (place.after separator) cs := by
  have hcomment : triviaLength ('/' :: '*' :: '*' :: '/' :: ' ' :: cs) = some 4 := by
    have hlength : commentLength ('*' :: '/' :: ' ' :: cs) = some 2 := by rw [commentLength]
    rw [triviaLength, if_neg (by simp [gapLength_cons, isBlank])]
    simp only [hlength, Option.map_some]
  change tokensFrom depth place (' ' :: '/' :: '*' :: '*' :: '/' :: ' ' :: cs) = _
  rw [tokensFrom_of_blank (by decide), tokensFrom_of_trivia hcomment]
  exact tokensFrom_of_blank (by decide) cs

theorem afterGap_separator (cs : List Char) :
    afterGap (separator ++ cs) = '/' :: '*' :: '*' :: '/' :: ' ' :: cs := rfl

theorem breaks_separator (cs : List Char) : Breaks (separator ++ cs) where
  head := by
    have hhead : (separator ++ cs).head? = some ' ' := rfl
    simp [hhead, isBlank]
  next := by simp [afterGap_separator, startsUnit_cons, isBlank, isStructural, opensComment]
  operator := by simp [afterGap_separator]

/-- What follows the first of some texts that are set apart. -/
def separated : List (List Char) → List Char
  | [] => []
  | x :: xs => separator ++ separator.intercalate (x :: xs)

theorem intercalate_cons (x : List Char) (xs : List (List Char)) :
    separator.intercalate (x :: xs) = x ++ separated xs := by
  cases xs with
  | nil => simp [separated]
  | cons y ys => rw [List.intercalate_cons_cons, separated, List.append_assoc]

theorem breaks_separated (xs : List (List Char)) : Breaks (separated xs) := by
  cases xs with
  | nil => exact .nil
  | cons x xs => exact breaks_separator _

theorem head?_separated (xs : List (List Char)) : (afterGap (separated xs)).head? ≠ some '\n' := by
  cases xs with
  | nil => simp [separated, afterGap]
  | cons x xs => simp [separated, afterGap_separator]

theorem tokensFrom_separated (depth : Nat) (place : Place) (xs : List (List Char)) :
    ∃ place', tokensFrom depth place (separated xs) =
      tokensFrom depth place' (separator.intercalate xs) := by
  cases xs with
  | nil => exact ⟨place, rfl⟩
  | cons x xs => exact ⟨_, tokensFrom_separator _⟩

/-- Reading the tokens of a text set apart gives them back, wherever they now stand. -/
theorem tokensFrom_intercalate {depth : Nat} {place : Place} {cs : List Char} {ts : List Token}
    (h : Scans depth place cs ts) (place' : Place) :
    ∃ us, tokensFrom depth place' (separator.intercalate (ts.map (·.text.toList))) = .ok us ∧
      us.map Token.kind = ts.map Token.kind ∧ us.map Token.text = ts.map Token.text := by
  induction h generalizing place' with
  | done => exact ⟨[], tokensFrom_nil _ _, rfl, rfl⟩
  | skip _ _ ih => exact ih place'
  | @take depth place x r k ts token _ ih =>
    -- the token is the same in front of a break, so that the others follow behind the break
    have hbreaks := breaks_separated (ts.map (·.text.toList))
    have htoken := lexeme_replace (hbreaks.replaces _ _) (fun _ => head?_separated _) token
    obtain ⟨place'', hskip⟩ := tokensFrom_separated (angleDepth depth k) (place'.after x)
      (ts.map (·.text.toList))
    obtain ⟨us, hus, hkinds, htexts⟩ := ih place''
    have htext : (Token.ofText k place x).text.toList = x := String.toList_ofList
    refine ⟨Token.ofText k place' x :: us, ?_, ?_, ?_⟩
    · rw [List.map_cons, intercalate_cons, htext, tokensFrom_append htoken, hskip, hus]
      rfl
    · rw [List.map_cons, List.map_cons, hkinds]
      rfl
    · rw [List.map_cons, List.map_cons, htexts]
      rfl

/-- The texts of the tokens of a source, with an empty comment between spaces from each to the next,
are read as tokens of the same kinds and with the same texts. -/
theorem tokenize_separated {source : String} {ts : List Token} (h : tokenize source = .ok ts) :
    ∃ us, tokenize (" /**/ ".intercalate (ts.map Token.text)) = .ok us ∧
      us.map Token.kind = ts.map Token.kind ∧ us.map Token.text = ts.map Token.text := by
  obtain ⟨us, hus, hsame⟩ := tokensFrom_intercalate (tokensFrom_ok_iff.1 h) .origin
  refine ⟨us, ?_, hsame⟩
  rw [tokenize, String.toList_intercalate, List.map_map]
  exact hus

/-- A number, a label that begins with a keyword, and a comparison in angle brackets: each looks at
what follows. -/
theorem tokenize_separated_comparison : ∃ ts, tokenize "5;endless<x > 5>" = .ok ts ∧
    ts.map Token.text = ["5", ";", "endless", "<", "x > 5", ">"] ∧
    ∃ us, tokenize (" /**/ ".intercalate ["5", ";", "endless", "<", "x > 5", ">"]) = .ok us ∧
      us.map Token.kind = ts.map Token.kind := by
  have h : ((tokenize "5;endless<x > 5>").toOption.any fun ts =>
      ts.map Token.text = ["5", ";", "endless", "<", "x > 5", ">"]) = true := by decide +kernel
  cases hts : tokenize "5;endless<x > 5>" with
  | error e => rw [hts] at h; cases h
  | ok ts =>
    rw [hts] at h
    have htexts : ts.map Token.text = ["5", ";", "endless", "<", "x > 5", ">"] :=
      of_decide_eq_true h
    obtain ⟨us, hus, hkinds, -⟩ := tokenize_separated hts
    rw [htexts] at hus
    exact ⟨ts, rfl, htexts, us, hus, hkinds⟩

end BlockNotation
