import BlockNotation.Modifier.Classification

/-!
# Classifiers

A classifier looks at the label of a modifier in lower case. If one of its matchers or tests accepts
the label, it sets its key to its category.
-/

namespace BlockNotation

/-- A test of a label in lower case. -/
inductive Matcher where
  | exact (word : String)
  | beginning (word : String)
  | ending (word : String)
  /-- The words `my block`, `my blocks`, `myblocks` and the like. -/
  | myBlock
deriving DecidableEq, Inhabited

/-- Does a label begin with `my`, then any number of spaces and tabs, then `block`? -/
def isMyBlock (text : String) : Bool :=
  match text.toList with
  | 'm' :: 'y' :: rest =>
    "block".toList.isPrefixOf (rest.dropWhile fun c => c = ' ' || c = '\t')
  | _ => false

def Matcher.accepts (text : String) : Matcher → Bool
  | .exact word => text = word
  | .beginning word => word.toList.isPrefixOf text.toList
  | .ending word => word.toList.isSuffixOf text.toList
  | .myBlock => isMyBlock text

structure Classifier where
  name : String
  key : String
  category : Category
  /-- Does the classifier also mark the block as a list? -/
  list : Bool
  matchers : List Matcher
  /-- Tests of whoever declares the classifier. They stand apart from the matchers because it makes
  no difference which of several tests accepts a label. -/
  tests : List (String → Bool)
deriving Inhabited

namespace Classifier

/-- A classifier of the category key with no matchers yet. -/
def ofCategory (name : String) (category : Category) : Classifier where
  name := name
  key := categoryKey
  category := category
  list := false
  matchers := []
  tests := []

def withKey (c : Classifier) (key : String) : Classifier := { c with key }

def marksList (c : Classifier) : Classifier := { c with list := true }

def withMatcher (c : Classifier) (m : Matcher) : Classifier :=
  { c with matchers := c.matchers ++ [m] }

def withTest (c : Classifier) (test : String → Bool) : Classifier :=
  { c with tests := c.tests ++ [test] }

/-! Words are put in lower case, as the labels are. -/

def matchingExactly (c : Classifier) (word : String) : Classifier :=
  c.withMatcher (.exact (lowercase word))

def matchingBeginning (c : Classifier) (word : String) : Classifier :=
  c.withMatcher (.beginning (lowercase word))

def matchingEnding (c : Classifier) (word : String) : Classifier :=
  c.withMatcher (.ending (lowercase word))

/-- Does a matcher or a test accept a label in lower case? -/
def accepts (c : Classifier) (text : String) : Bool :=
  c.matchers.any (·.accepts text) || c.tests.any (· text)

/-- The built-in classifiers, in the order in which they are asked. -/
def builtin : List Classifier :=
  [((ofCategory "list" .variables).marksList).matchingEnding "list",
    (((ofCategory "myblock" .myBlock).matchingExactly "local").withMatcher .myBlock).matchingExactly
      "custom-arg",
    ["user-defined", "custom", "variable", "variables"].foldl matchingExactly
      (ofCategory "variable" .variables)]

end Classifier

end BlockNotation
