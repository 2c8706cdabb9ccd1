import StepGraph.Text.Pieces

/-!
Dotted names. Every part of a name before one of its dots names an ancestor, so the hierarchy of
elements can be read off their names.
-/
set_option autoImplicit false

namespace StepGraph

/-- Any text is a name; two dots in a row enclose an empty segment. -/
structure Name where
  text : String
  deriving DecidableEq, Inhabited

namespace Name

def chars (n : Name) : List Char := n.text.toList

def ofChars (cs : List Char) : Name := ⟨String.ofList cs⟩

@[simp] theorem chars_ofChars (cs : List Char) : (ofChars cs).chars = cs := by
  simp [chars, ofChars]

@[simp] theorem ofChars_chars (n : Name) : ofChars n.chars = n := by
  simp [chars, ofChars]

theorem chars_inj {a b : Name} : a.chars = b.chars ↔ a = b :=
  ⟨fun h => by rw [← ofChars_chars a, h, ofChars_chars], fun h => h ▸ rfl⟩

def isDot (c : Char) : Bool := c == '.'

def beforeLastDot : List Char → Option (List Char)
  | [] => none
  | c :: cs => match beforeLastDot cs with
    | some front => some (c :: front)
    | none => if isDot c then some [] else none

def beforeDots : List Char → List (List Char)
  | [] => []
  | c :: cs => (beforeDots cs).map (c :: ·) ++ if isDot c then [[]] else []

def depth (n : Name) : Nat := n.chars.countP isDot

def parent (n : Name) : Option Name := (beforeLastDot n.chars).map ofChars

def ancestors (n : Name) : List Name := (beforeDots n.chars).map ofChars

/-- The first name and a dot begin the second. -/
def isAncestorOf (a b : Name) : Bool := (a.chars ++ ['.']).isPrefixOf b.chars

def isSameOrAncestorOf (a b : Name) : Bool := a == b || a.isAncestorOf b

def isParentOf (a b : Name) : Bool := b.parent == some a

def segments (n : Name) : List (List Char) := Text.pieces isDot n.chars

def lastSegment (n : Name) : String := String.ofList (n.segments.getLast?.getD [])

/-- The name that the leading segments shared by both parents make up, if there are any. -/
def commonAncestor (a b : Name) : Option Name := do
  let p ← a.parent
  let q ← b.parent
  let shared := ((p.segments.zip q.segments).takeWhile fun s => s.1 == s.2).map Prod.fst
  if shared.isEmpty then none else some (ofChars (Text.joinWith '.' shared))

end Name

end StepGraph
