import StepGraph.Fault
import StepGraph.Text.Blank
import StepGraph.Text.Word

/-! Selectors of elements: `*`, `a.b`, `a.b.*` and `a.b.**`. -/
set_option autoImplicit false

namespace StepGraph

inductive Selector where
  /-- `*` selects the names without ancestors. -/
  | topLevel
  | element (name : Name)
  | children (name : Name)
  | descendants (name : Name)
  deriving DecidableEq

namespace Selector

/-- The element that must be known where the selector adds to a view. -/
def anchor? : Selector → Option Name
  | .topLevel => none
  | .element n | .children n | .descendants n => some n

def selects : Selector → Name → Bool
  | .topLevel, n => n.depth == 0
  | .element a, n => a == n
  | .children a, n => a.isParentOf n
  | .descendants a, n => a.isAncestorOf n

def isSegment : List Char → Bool
  | [] => false
  | c :: cs => Text.isInitial c && cs.all fun c => Text.isWord c || c == '-'

def isPlainName (cs : List Char) : Bool := (Text.pieces Name.isDot cs).all isSegment

def split (cs : List Char) : List Char × (Name → Selector) :=
  match cs.reverse with
  | '*' :: '*' :: '.' :: front => (front.reverse, .descendants)
  | '*' :: '.' :: front => (front.reverse, .children)
  | _ => (cs, .element)

def ofChars? (cs : List Char) : Option Selector :=
  if cs = ['*'] then some .topLevel
  else
    let (name, make) := split cs
    if isPlainName name then some (make (Name.ofChars name)) else none

/-- Blanks around the expression do not count. -/
def parse (expression : String) : Except Fault Selector :=
  match ofChars? (Text.trim expression).toList with
  | some s => .ok s
  | none => .error (.invalidSelector (Text.trim expression))

def parseAll (expressions : List String) : Except Fault (List Selector) := expressions.mapM parse

end Selector

end StepGraph
