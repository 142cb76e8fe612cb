/-!
# Sizes and places in a text

A place in a source text is a byte offset together with a line and a column. Offsets count UTF-8
bytes, columns count characters, and a line feed alone starts a new line.
-/

namespace BlockNotation

/-- The number of bytes a text takes in UTF-8. -/
def byteSize : List Char → Nat
  | [] => 0
  | c :: cs => c.utf8Size + byteSize cs

@[simp] theorem byteSize_nil : byteSize [] = 0 := rfl

@[simp] theorem byteSize_cons (c : Char) (cs : List Char) :
    byteSize (c :: cs) = c.utf8Size + byteSize cs := rfl

@[simp] theorem byteSize_append (cs ds : List Char) :
    byteSize (cs ++ ds) = byteSize cs + byteSize ds := by
  induction cs with
  | nil => simp
  | cons c cs ih => simp [ih, Nat.add_assoc]

/-- Line and column of a character, both counted from one. -/
structure Position where
  line : Nat
  column : Nat
deriving DecidableEq, Inhabited

/-- A point of the source text: how many bytes lie before it, and where a reader finds it. -/
structure Place where
  offset : Nat
  position : Position
deriving DecidableEq, Inhabited

namespace Place

/-- Where a text begins. -/
def origin : Place := ⟨0, ⟨1, 1⟩⟩

/-- The place right after a character that stands at `p`. -/
def step (p : Place) (c : Char) : Place where
  offset := p.offset + c.utf8Size
  position :=
    if c = '\n' then ⟨p.position.line + 1, 1⟩ else ⟨p.position.line, p.position.column + 1⟩

/-- The place right after a text that begins at `p`. -/
def after (p : Place) (cs : List Char) : Place := cs.foldl step p

@[simp] theorem after_nil (p : Place) : p.after [] = p := rfl

@[simp] theorem after_cons (p : Place) (c : Char) (cs : List Char) :
    p.after (c :: cs) = (p.step c).after cs := rfl

theorem after_append (p : Place) (cs ds : List Char) :
    p.after (cs ++ ds) = (p.after cs).after ds := by simp [after]

theorem offset_after (p : Place) (cs : List Char) :
    (p.after cs).offset = p.offset + byteSize cs := by
  induction cs generalizing p with
  | nil => simp
  | cons c cs ih => simp [ih, step]; omega

end Place

/-- Line feeds among the characters that start before a byte offset. -/
def lineFeedsBefore : List Char → Nat → Nat
  | [], _ => 0
  | c :: cs, offset =>
    if offset = 0 then 0
    else (if c = '\n' then 1 else 0) + lineFeedsBefore cs (offset - c.utf8Size)

/-- The line, counted from one, that holds a byte offset of the source. An offset past the end
is on the last line. -/
def lineOfOffset (source : String) (offset : Nat) : Nat :=
  1 + lineFeedsBefore source.toList offset

/-- The lines of a text, without their ends. A line ends at a line feed, and a carriage return
right before that line feed belongs to the end too. Nothing follows a final line feed. -/
def lines (cs : List Char) : List (List Char) :=
  go [] cs
where
  /-- The lines of a text whose first line continues `line`, given in reverse. -/
  go (line : List Char) : List Char → List (List Char)
    | [] => if line.isEmpty then [] else [line.reverse]
    | '\n' :: cs =>
      (match line with
        | '\r' :: kept => kept.reverse
        | kept => kept.reverse) :: go [] cs
    | c :: cs => go (c :: line) cs

end BlockNotation
