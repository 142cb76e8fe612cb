import BlockNotation.Text.CasedTable
import BlockNotation.Text.CaseTable

/-!
# Upper and lower case

Full case mappings of texts. One character may become several, and a capital sigma becomes a final
sigma at the end of a word: when the nearest character before it that is not looked past is a cased
letter, and the nearest one after it is not.
-/

namespace BlockNotation

/-- The lower case of a character on its own. -/
def lowerChar (c : Char) : List Char :=
  if c = 'İ' then ['i', '\u0307']
  else
    match lowerRanges.image? c.toNat with
    | some n => [Char.ofNat n]
    | none => [c]

/-- The upper case of a character. -/
def upperChar (c : Char) : List Char :=
  match upperExpansions.lookup c.toNat with
  | some ns => ns.map Char.ofNat
  | none =>
    match upperRanges.image? c.toNat with
    | some n => [Char.ofNat n]
    | none => [c]

/-- Is the nearest character that is not looked past a cased letter? -/
def meetsCased (cs : List Char) : Bool :=
  match cs.dropWhile caseIgnorableRanges.holds with
  | [] => false
  | c :: _ => casedRanges.holds c

/-- The lower case of a text that follows `before`, which is given in reverse. -/
def lowerAfter (before : List Char) : List Char → List Char
  | [] => []
  | c :: cs =>
    (if c = 'Σ' then [if meetsCased before && !meetsCased cs then 'ς' else 'σ']
      else lowerChar c) ++ lowerAfter (c :: before) cs

/-- A text in lower case. -/
def lowercase (s : String) : String := String.ofList (lowerAfter [] s.toList)

/-- A text in upper case. -/
def uppercase (s : String) : String := String.ofList (s.toList.flatMap upperChar)

/-- A text with its ASCII letters in upper case and all else unchanged. -/
def asciiUppercase (s : String) : String := String.ofList (s.toList.map Char.toUpper)

end BlockNotation
