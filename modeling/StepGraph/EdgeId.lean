import StepGraph.Text.Pieces

/-!
Ids of computed steps and of the edges drawn for them: `step-` and decimal segments, each of two
digits at least, with a dot between neighbours.
-/
set_option autoImplicit false

namespace StepGraph

/-- An id that was read may be any text; `parse?` tells the ids of steps apart. -/
structure EdgeId where
  text : String
  deriving DecidableEq, Inhabited

namespace EdgeId

def lead : List Char := ['s', 't', 'e', 'p', '-']

/-- Dots divide parallel levels and colons alternate ones. -/
def isSeparator (c : Char) : Bool := c == '.' || c == ':'

def chars (id : EdgeId) : List Char := id.text.toList

def ofChars (cs : List Char) : EdgeId := ⟨String.ofList cs⟩

@[simp] theorem chars_ofChars (cs : List Char) : (ofChars cs).chars = cs := by
  simp [chars, ofChars]

/-- A number in at least two digits. -/
def segmentChars (n : Nat) : List Char := (Nat.toDigits 10 n).leftpad 2 '0'

def ofSegments (root : Nat) (nested : List Nat) : EdgeId :=
  ofChars (lead ++ segmentChars root ++ nested.flatMap fun n => '.' :: segmentChars n)

def cut? (front cs : List Char) : Option (List Char) :=
  if front.isPrefixOf cs then some (cs.drop front.length) else none

/-- Accepts the lead followed by a segment of digits, whatever stands after it. -/
def parse? (value : String) : Option EdgeId :=
  match cut? lead value.toList with
  | none => none
  | some rest =>
    let first := rest.takeWhile (!isSeparator ·)
    if !first.isEmpty && first.all Char.isDigit then some ⟨value⟩ else none

def isId (value : String) : Bool := (parse? value).isSome

/-- A segment that fits 32 bits; it may bear a plus sign. -/
def segment? (cs : List Char) : Option Nat :=
  let digits := match cs with
    | '+' :: ds => ds
    | ds => ds
  let n := Nat.ofDigitChars 10 digits 0
  if !digits.isEmpty && digits.all Char.isDigit && n < UInt32.size then some n else none

def readSegments : List (List Char) → List Nat
  | [] => []
  | p :: ps => match segment? p with
    | some n => n :: readSegments ps
    | none => []

/-- The rest after `n` bytes, unless they end inside a character or past the end. -/
def dropBytes : Nat → List Char → Option (List Char)
  | 0, cs => some cs
  | _ + 1, [] => none
  | n + 1, c :: cs => if c.utf8Size ≤ n + 1 then dropBytes (n + 1 - c.utf8Size) cs else none

def segments? (id : EdgeId) : Option (List Nat) :=
  (dropBytes 5 id.chars).map fun rest => readSegments (Text.pieces isSeparator rest)

def continuesWith (separator : Char) (value : String) (block : Nat) : Bool :=
  (lead ++ segmentChars block ++ [separator]).isPrefixOf value.toList

def isInParallel (value : String) (block : Nat) : Bool := continuesWith '.' value block

def isInAlternate (value : String) (block : Nat) : Bool := continuesWith ':' value block

end EdgeId

end StepGraph
