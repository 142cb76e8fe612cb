import BlockNotation.Text.EscapedTable

/-!
# Quoted texts

A quoted text stands between double quotes on one line. Quotes and backslashes are escaped by a
backslash, a few controls have a letter of their own, and every other character that would not be
seen is written as its number in hexadecimal.
-/

namespace BlockNotation

/-- A character as it stands in a quoted text. -/
def quoteChar (c : Char) : List Char :=
  match c with
  | '"' => ['\\', '"']
  | '\\' => ['\\', '\\']
  | '\n' => ['\\', 'n']
  | '\r' => ['\\', 'r']
  | '\t' => ['\\', 't']
  | '\x00' => ['\\', '0']
  | c =>
    if escapedRanges.holds c then
      ['\\', 'u', '\x7b'] ++ Nat.toDigits 16 c.toNat ++ ['\x7d']
    else [c]

/-- A text in quotes. -/
def quote (s : String) : String :=
  String.ofList ('"' :: s.toList.flatMap quoteChar ++ ['"'])

end BlockNotation
