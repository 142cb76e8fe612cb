/-!
# Kinds of token

The notation has twenty-two kinds of token. Two families group some of them: literals stand for
values, keywords open, divide and close control structures. Sets of kinds are listed in the order
of `Kind.all`; `Kind.sorted` brings any list of kinds into that form.
-/

namespace BlockNotation

/-- What sort of thing a token is. -/
inductive Kind where
  /-- A remark, `|...|`. -/
  | remark
  | stringLiteral
  | numberLiteral
  | colorLiteral
  | choiceLiteral
  | foreverWord
  | endWord
  | thenWord
  | repeatWord
  | repeatUntilWord
  | ifWord
  | elseWord
  /-- A separator of blocks: a semicolon, a line break, or the first followed by the second. -/
  | delimiter
  /-- Free text. -/
  | label
  | openCurly
  | closeCurly
  | openRound
  | closeRound
  | openAngle
  | closeAngle
  | doubleColon
  /-- An identifier, `@name`. -/
  | identifier
deriving DecidableEq, Inhabited

/-- A group of kinds that grammar rules may name as a whole. -/
inductive Family where
  | literal
  | keyword
deriving DecidableEq, Inhabited

namespace Kind

/-- Every kind, in the order in which sets of kinds are listed. -/
def all : List Kind :=
  [.remark, .stringLiteral, .numberLiteral, .colorLiteral, .choiceLiteral, .foreverWord, .endWord,
    .thenWord, .repeatWord, .repeatUntilWord, .ifWord, .elseWord, .delimiter, .label, .openCurly,
    .closeCurly, .openRound, .closeRound, .openAngle, .closeAngle, .doubleColon, .identifier]

@[simp] theorem mem_all (k : Kind) : k ∈ all := by cases k <;> decide

/-- The name a token listing shows. -/
def name : Kind → String
  | .remark => "Comment"
  | .stringLiteral => "StringLiteral"
  | .numberLiteral => "NumberLiteral"
  | .colorLiteral => "ColorLiteral"
  | .choiceLiteral => "ChoiceLiteral"
  | .foreverWord => "Forever"
  | .endWord => "End"
  | .thenWord => "Then"
  | .repeatWord => "Repeat"
  | .repeatUntilWord => "RepeatUntil"
  | .ifWord => "If"
  | .elseWord => "Else"
  | .delimiter => "Delimiter"
  | .label => "Label"
  | .openCurly => "LCurly"
  | .closeCurly => "RCurly"
  | .openRound => "LRound"
  | .closeRound => "RRound"
  | .openAngle => "LAngle"
  | .closeAngle => "RAngle"
  | .doubleColon => "DoubleColon"
  | .identifier => "Id"

/-- How a message speaks of a token of this kind. -/
def describe : Kind → String
  | .remark => "remark `|...|`"
  | .stringLiteral => "string literal"
  | .numberLiteral => "number literal"
  | .colorLiteral => "color literal"
  | .choiceLiteral => "choice literal"
  | .foreverWord => "`forever`"
  | .endWord => "`end`"
  | .thenWord => "`then`"
  | .repeatWord => "`repeat`"
  | .repeatUntilWord => "`repeat until`"
  | .ifWord => "`if`"
  | .elseWord => "`else`"
  | .delimiter => "delimiter"
  | .label => "label"
  | .openCurly => "`\x7b`"
  | .closeCurly => "`\x7d`"
  | .openRound => "`(`"
  | .closeRound => "`)`"
  | .openAngle => "`<`"
  | .closeAngle => "`>`"
  | .doubleColon => "`::`"
  | .identifier => "identifier `@...`"

/-- The families a kind belongs to. -/
def families : Kind → List Family
  | .stringLiteral | .numberLiteral | .colorLiteral | .choiceLiteral => [.literal]
  | .foreverWord | .endWord | .thenWord | .repeatWord | .repeatUntilWord | .ifWord | .elseWord =>
    [.keyword]
  | _ => []

def belongsTo (k : Kind) (f : Family) : Bool := k.families.contains f

/-- The kinds of a list without repetition, in the order of `Kind.all`. -/
def sorted (ks : List Kind) : List Kind := all.filter (ks.contains ·)

@[simp] theorem mem_sorted {k : Kind} {ks : List Kind} : k ∈ sorted ks ↔ k ∈ ks := by
  simp [sorted]

theorem sorted_congr {ks ls : List Kind} (h : ∀ k, k ∈ ks ↔ k ∈ ls) :
    sorted ks = sorted ls := by
  unfold sorted
  congr 1
  funext k
  simp [h]

end Kind

namespace Family

def name : Family → String
  | .literal => "Literal"
  | .keyword => "Keyword"

/-- The members of a family. -/
def kinds : Family → List Kind
  | .literal => [.stringLiteral, .numberLiteral, .colorLiteral, .choiceLiteral]
  | .keyword =>
    [.foreverWord, .endWord, .thenWord, .repeatWord, .repeatUntilWord, .ifWord, .elseWord]

theorem mem_kinds {f : Family} {k : Kind} : k ∈ f.kinds ↔ k.belongsTo f := by
  cases f <;> cases k <;> decide

end Family

end BlockNotation
