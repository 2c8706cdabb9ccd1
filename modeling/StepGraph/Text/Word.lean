import StepGraph.Text.Category.Letter
import StepGraph.Text.Category.Mark
import StepGraph.Text.Category.Recent
import StepGraph.Text.Category.Sign

/-!
Characters that make up words and identifiers. Words follow version 16 of Unicode, identifiers
version 18.
-/
set_option autoImplicit false

namespace StepGraph.Text

/-- A letter, mark, decimal digit, connector or joiner: what a word of any script goes on with. -/
def isWord (c : Char) : Bool :=
  c.isAlphanum || c == '_' ||
    (128 ≤ c.toNat && (isLetter c || isMark c || isDecimalDigit c || isConnector c ||
      isCircledLetter c || isJoiner c))

/-- An ASCII letter or the underscore: what a name segment starts with. -/
def isInitial (c : Char) : Bool := c.isAlpha || c == '_'

def isIdentifierStart (c : Char) : Bool :=
  isLetter c || isRecentLetter c || c == '$' || c == '_'

def isIdentifierPart (c : Char) : Bool :=
  isIdentifierStart c || isAccent c || isDecimalDigit c || isRecentSign c || isConnector c ||
    isJoiner c

end StepGraph.Text
