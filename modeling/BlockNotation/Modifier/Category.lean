import BlockNotation.Text.Casing

/-!
# Block categories

The palette category that a modifier can place a block in. Categories are named in upper case;
any name that is not built in is a category of its own.
-/

namespace BlockNotation

inductive Category where
  | motion
  | looks
  | sound
  | events
  | control
  | sensing
  | operators
  | variables
  | myBlock
  | pen
  | extension
  /-- A category that is not built in. -/
  | custom (name : String)
deriving DecidableEq, Inhabited

namespace Category

def name : Category → String
  | .motion => "MOTION"
  | .looks => "LOOKS"
  | .sound => "SOUND"
  | .events => "EVENTS"
  | .control => "CONTROL"
  | .sensing => "SENSING"
  | .operators => "OPERATORS"
  | .variables => "VARIABLES"
  | .myBlock => "MYBLOCK"
  | .pen => "PEN"
  | .extension => "EXTENSION"
  | .custom name => name

def builtin : List Category :=
  [.motion, .looks, .sound, .events, .control, .sensing, .operators, .variables, .myBlock, .pen,
    .extension]

/-- The category of a name, whatever the case of its ASCII letters. -/
def ofName (text : String) : Category :=
  let upper := asciiUppercase text
  (builtin.find? (·.name = upper)).getD (.custom upper)

def isCustom : Category → Bool
  | .custom _ => true
  | _ => false

end Category

end BlockNotation
