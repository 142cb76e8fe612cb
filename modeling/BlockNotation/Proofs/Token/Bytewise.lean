import BlockNotation.Proofs.Token.Bytes
import BlockNotation.Proofs.Token.LongestLabel

/-!
# Reading by bytes

A second way to read tokens, which knows a text only by byte offsets (`Bytewise`): its lengths are
numbers of bytes, it counts bytes where only ASCII characters matter, and to look further it cuts
the text at an offset it has computed. Cutting out of range or inside of a character fails, and so
does a loop that gets no further. None of this ever happens, and the tokens are those that reading
by characters gives (`bytewise_safe`).
-/

namespace BlockNotation

namespace Bytewise

/-! ## Trivia -/

/-- The offset of the first place at which a pattern stands in a text. -/
def find (pattern : List Char) : List Char → Option Nat
  | [] => if pattern.isEmpty then some 0 else none
  | c :: cs =>
    if pattern.isPrefixOf (c :: cs) then some 0 else (find pattern cs).map (· + c.utf8Size)

/-- The length of the trivia at the front of a text. -/
def trivia (cs : List Char) : Except ByteFault (Option Nat) :=
  let gap := countWhile isBlank cs
  if gap > 0 then return some gap
  else if ['/', '/'].isPrefixOf cs then return some ((find ['\n'] cs).getD (byteSize cs))
  else if ['/', '*'].isPrefixOf cs then
    return (find ['*', '/'] (← fromByte 2 cs)).map (· + 4)
  else return none

/-! ## Texts in brackets, numbers, colours, delimiters and names -/

/-- The offset behind the first unescaped `closing`, in a text that begins at offset `start`. -/
def closedFrom (closing : Char) : Nat → List Char → Option Nat
  | _, [] => none
  | start, c :: rest =>
    if c = closing then some (start + c.utf8Size)
    else if c = '\\' then
      match rest with
      | [] => none
      | e :: rest =>
        if e = '\n' then none else closedFrom closing (start + c.utf8Size + e.utf8Size) rest
    else closedFrom closing (start + c.utf8Size) rest

def delimited (opening closing : Char) : List Char → Option Nat
  | [] => none
  | c :: rest => if c = opening then closedFrom closing c.utf8Size rest else none

/-- The number of digits among bytes from some byte on. -/
def digitsFrom (start : Nat) (bytes : List UInt8) : Except ByteFault Nat :=
  if start ≤ bytes.length then
    return ((bytes.drop start).takeWhile (isAsciiByte Char.isDigit)).length
  else throw .beyondEnd

/-- The offset at which a number without sign ends that begins at some byte. -/
def unsignedFrom (start : Nat) (bytes : List UInt8) : Except ByteFault (Option Nat) := do
  let digits ← digitsFrom start bytes
  if digits = 0 then return none
  else
    let stop := start + digits
    if bytes[stop]? = some 46 then
      let fraction ← digitsFrom (stop + 1) bytes
      return some (if fraction > 0 then stop + 1 + fraction else stop)
    else return some stop

def number (cs : List Char) : Except ByteFault (Option Nat) :=
  unsignedFrom (if (bytesOf cs).head? = some 45 then 1 else 0) (bytesOf cs)

def color : List Char → Option Nat
  | '#' :: rest =>
    let digits := countWhile isHexDigit rest
    if digits ≥ 6 then some 7 else if digits ≥ 3 then some 4 else none
  | _ => none

def delimiter : List Char → Except ByteFault (Option Nat)
  | ';' :: rest => do
    let gap := countWhile isBlank rest
    return some (if (← fromByte gap rest).head? = some '\n' then gap + 2 else 1)
  | '\n' :: _ => return some 1
  | _ => return none

def identifier : List Char → Option Nat
  | '@' :: rest =>
    let name := countWhile (fun c => c.isAlphanum || c = '_') rest
    if name > 0 then some (name + 1) else none
  | _ => none

/-! ## Labels -/

/-- Does a text begin with a word given in lower case? A cut that is not possible says no. -/
def startsWith (cs word : List Char) : Bool :=
  match splitAtByte cs (byteSize word) with
  | .ok (front, _) => front.map Char.toLower = word
  | .error _ => false

def unit : List Char → Except ByteFault (Option Nat)
  | [] => return none
  | '\\' :: rest => return rest.head?.map fun escaped => 1 + escaped.utf8Size
  | ':' :: rest => do
    return if (← fromByte 1 (':' :: rest)).head? = some ':' then none else some 1
  | c :: rest =>
    return if isBlank c || c = '\n' || isStructural c || opensComment (c :: rest) then none
      else some c.utf8Size

def closes (cs : List Char) : Except ByteFault Bool :=
  ["end".toList, "else".toList].anyM fun word =>
    if startsWith cs word then
      return (← unit (← fromByte (byteSize word) cs)).isNone
    else return false

/-- The length of the operator of a comparison. -/
def operator (cs : List Char) : Except ByteFault (Option Nat) :=
  if cs.head? = some '<' ∨ cs.head? = some '>' then do
    let gap := countWhile isBlank (← fromByte 1 cs)
    if gap = 0 then return none
    else
      let next ← fromByte (1 + gap) cs
      if (← unit next).isSome then return if ← closes next then none else some 1 else return none
  else return none

/-- The offset at which a run of units ends that goes on at some offset. -/
def units (cs : List Char) : Nat → Except ByteFault Nat :=
  rounds id (byteSize cs) fun stop => do
    match ← unit (← fromByte stop cs) with
    | some n => return .inl (stop + n)
    | none => return .inr stop

/-- Completes the word that goes on at some offset. Then the label goes on behind a gap, with the
first unit of another word or with an operator, or it ends. -/
def labelRound (operators : Bool) (cs : List Char) (start : Nat) :
    Except ByteFault (Nat ⊕ Nat) := do
  let stop ← units cs start
  let gap := countWhile isBlank (← fromByte stop cs)
  if gap = 0 then return .inr stop
  else
    let next ← fromByte (stop + gap) cs
    if ← closes next then return .inr stop
    else
      match ← unit next with
      | some n => return .inl (stop + gap + n)
      | none =>
        if operators then
          match ← operator next with
          | some n => return .inl (stop + gap + n)
          | none => return .inr stop
        else return .inr stop

/-- The offset at which a label ends that goes on at some offset. -/
def labelEnd (operators : Bool) (cs : List Char) : Nat → Except ByteFault Nat :=
  rounds id (byteSize cs) (labelRound operators cs)

def label (operators : Bool) (cs : List Char) : Except ByteFault (Option Nat) := do
  match ← unit cs with
  | some first => return some (← labelEnd operators cs first)
  | none => return none

/-! ## Keywords -/

def repeatUntil (cs : List Char) : Except ByteFault (Option Nat) :=
  if startsWith cs "repeat".toList then do
    let gap := countWhile (fun c => c = ' ' || c = '\t') (← fromByte 6 cs)
    if gap = 0 then return none
    else
      let rest ← fromByte (6 + gap) cs
      return if startsWith rest "until".toList then some (6 + gap + 5) else none
  else return none

def spelling (word : String) (cs : List Char) : Except ByteFault (Option Nat) :=
  return if startsWith cs word.toList then some word.utf8ByteSize else none

def spellings : List (Kind × (List Char → Except ByteFault (Option Nat))) :=
  [(.foreverWord, spelling "forever"), (.endWord, spelling "end"),
    (.repeatUntilWord, repeatUntil), (.repeatWord, spelling "repeat"), (.ifWord, spelling "if"),
    (.elseWord, spelling "else"), (.thenWord, spelling "then")]

/-- The first keyword whose spelling stands at the front of a text. -/
def spelled (cs : List Char) : Except ByteFault (Option (Kind × Nat)) :=
  spellings.findSomeM? fun (kind, spelling) => return (← spelling cs).map (kind, ·)

def keyword (operators : Bool) (cs : List Char) : Except ByteFault (Option (Kind × Nat)) := do
  match ← spelled cs with
  | some (kind, n) =>
    if (← unit (← fromByte n cs)).isSome then return (← label operators cs).map (.label, ·)
    else return some (kind, n)
  | none => return none

/-! ## Tokens -/

def numberOrLabel (operators : Bool) (cs : List Char) : Except ByteFault (Option (Kind × Nat)) := do
  match ← number cs with
  | some n =>
    match ← label operators cs with
    | some m => return some (if m > n then (.label, m) else (.numberLiteral, n))
    | none => return some (.numberLiteral, n)
  | none => return none

/-- The readers of tokens in the order in which they are tried. -/
def readers (operators : Bool) : List (List Char → Except ByteFault (Option (Kind × Nat))) :=
  [fun cs => return (delimited '|' '|' cs).map (.remark, ·),
    fun cs => return (delimited '"' '"' cs).map (.stringLiteral, ·),
    numberOrLabel operators,
    fun cs => return (color cs).map (.colorLiteral, ·),
    fun cs => return (delimited '[' ']' cs).map (.choiceLiteral, ·),
    keyword operators,
    fun cs => return (← delimiter cs).map (.delimiter, ·),
    fun cs => return (← label operators cs).map (.label, ·),
    fun cs => return bracketLexeme cs,
    fun cs => return (markerLength cs).map (.doubleColon, ·),
    fun cs => return (identifier cs).map (.identifier, ·)]

/-- Kind and length of the token at the front of a text. -/
def token (operators : Bool) (cs : List Char) : Except ByteFault (Option (Kind × Nat)) :=
  (readers operators).findSomeM? fun reader => reader cs

/-! ## Sources -/

/-- How far a source was read. -/
structure State where
  place : Place
  /-- The number of open angle brackets. -/
  depth : Nat
  tokens : List Token

/-- The state behind the next `n` bytes of a source. -/
def State.pass (source : List Char) (n : Nat) (s : State) : Except ByteFault State := do
  let text ← sliceBytes s.place.offset (s.place.offset + n) source
  return { s with place := ⟨s.place.offset + n, (s.place.after text).position⟩ }

/-- The state behind a token of `n` bytes. -/
def State.take (source : List Char) (kind : Kind) (n : Nat) (s : State) :
    Except ByteFault State := do
  let text ← sliceBytes s.place.offset (s.place.offset + n) source
  let t : Token :=
    { kind := kind
      text := String.ofList text
      span := ⟨s.place.offset, s.place.offset + n⟩
      position := s.place.position
      lineBreaks := text.count '\n' }
  State.pass source n { s with depth := angleDepth s.depth kind, tokens := s.tokens ++ [t] }

/-- Skips trivia or takes a token; ends with the source, or where neither stands. -/
def round (source : List Char) (s : State) :
    Except ByteFault (State ⊕ Except LexicalError (List Token)) :=
  if s.place.offset < byteSize source then do
    let rest ← fromByte s.place.offset source
    match ← trivia rest with
    | some n => return .inl (← s.pass source n)
    | none =>
      match ← token (s.depth > 0) rest with
      | some (kind, n) => return .inl (← s.take source kind n)
      | none => return .inr (.error ⟨s.place, String.ofList rest⟩)
  else return .inr (.ok s.tokens)

/-- The tokens of a source, or the error at which reading ends. -/
def tokens (source : String) : Except ByteFault (Except LexicalError (List Token)) :=
  rounds (·.place.offset) (byteSize source.toList) (round source.toList) ⟨.origin, 0, []⟩

end Bytewise

end BlockNotation
