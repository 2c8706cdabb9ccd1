import StepGraph.Json.Strict
import StepGraph.Text.Blank
import StepGraph.Text.Word

/-!
The relaxed notation of documents: comments, trailing commas, bare keys, single quotes, more escapes
and more numbers. Nesting is not limited.
-/
set_option autoImplicit false

namespace StepGraph.Json

def isLineEnd (c : Char) : Bool := c == '\n' || c == '\r' || c == '\u2028' || c == '\u2029'

/-- Every blank but the next-line control, and the byte order mark. -/
def isRelaxedBlank (c : Char) : Bool := (Text.isBlank c && c != '\u0085') || c == '\ufeff'

inductive Gap where
  | blanks
  | lineComment
  /-- A block comment that began at `start`. -/
  | blockComment (start : List Char)

/-- Drops blanks and comments; a block comment without an end is left standing. -/
def Gap.skip : Gap → List Char → List Char
  | blanks, '/' :: '*' :: cs => skip (blockComment ('/' :: '*' :: cs)) cs
  | blanks, '/' :: '/' :: cs => skip lineComment cs
  | blanks, c :: cs => if isRelaxedBlank c then skip blanks cs else c :: cs
  | lineComment, c :: cs => skip (if isLineEnd c then blanks else lineComment) cs
  | blockComment _, '*' :: '/' :: cs => skip blanks cs
  | blockComment start, _ :: cs => skip (blockComment start) cs
  | blockComment start, [] => start
  | _, [] => []

def dropContinuations : List Char → List Char
  | '\\' :: '\r' :: '\n' :: cs => dropContinuations cs
  | '\\' :: c :: cs => if isLineEnd c then dropContinuations cs else '\\' :: c :: cs
  | cs => cs

/-- The character of a single escape; any character but a digit, `x` and `u` may be escaped. -/
def relaxedEscape (c : Char) : Option Char :=
  match c with
  | 'b' => some '\x08'
  | 'f' => some '\x0c'
  | 'n' => some '\n'
  | 'r' => some '\r'
  | 't' => some '\t'
  | 'v' => some '\x0b'
  | '0' => some '\x00'
  | c => if c.isDigit || c == 'x' || c == 'u' then none else some c

/-- The relaxed notation sets the bit of U+10000 where the strict one adds it, so that surrogate
pairs reach only the planes of odd number. -/
def relaxedPoint (bits : Nat) : Nat := bits ||| 0x10000

def readRelaxedEscape : List Char → Option (List Char × List Char)
  | 'u' :: cs =>
    (readUnit relaxedPoint (unitMark ∘ dropContinuations) cs).map fun (c, rest) => ([c], rest)
  | 'x' :: a :: b :: cs => (hexValue? 0 [a, b]).map fun n => ([Char.ofNat n], cs)
  | '\r' :: '\n' :: cs => some ([], cs)
  | c :: cs => if isLineEnd c then some ([], cs) else (relaxedEscape c).map ([·], cs)
  | [] => none

def readRelaxedString : List Char → Option (String × List Char)
  | c :: cs =>
    if c = '"' || c = '\'' then
      readQuoted c (!isLineEnd ·) readRelaxedEscape cs
    else none
  | [] => none

def unescapeIdentifier (accepts : Char → Bool) :
    Nat → List Char → List Char → Option (List Char)
  | 0, _, _ => none
  | _ + 1, acc, [] => some acc.reverse
  | fuel + 1, acc, '\\' :: cs => do
    let (c, rest) ← readUnit relaxedPoint unitMark (← after? ['u'] cs)
    unescapeIdentifier Text.isIdentifierPart fuel (c :: acc) rest
  | fuel + 1, acc, c :: cs =>
    if accepts c then unescapeIdentifier Text.isIdentifierPart fuel (c :: acc) cs else none

/-- An identifier ends where no further part and no backslash follows. -/
def readIdentifier (cs : List Char) : Option (String × List Char) := do
  let (body, rest) := cs.span fun c => c == '\\' || Text.isIdentifierPart c
  if body.isEmpty then none
  else
    let content ← unescapeIdentifier Text.isIdentifierStart (body.length + 1) [] body
    some (String.ofList content, rest)

def readKey (cs : List Char) : Option (String × List Char) :=
  match readIdentifier cs with
  | some found => some found
  | none => readRelaxedString cs

/-- Hexadecimal integers fit 32 bits and bear no sign. -/
def readHexInteger (cs : List Char) : Option (Json × List Char) :=
  let (digits, rest) := cs.span fun c => (hexDigit? c).isSome
  match digits, hexValue? 0 digits with
  | _ :: _, some n => if n < UInt32.size then some (.int n, rest) else none
  | _, _ => none

/-- A number after its sign; a value that is not finite counts as absent. -/
def readUnsigned (negative : Bool) (cs : List Char) : Option (Json × List Char) :=
  match after? "Infinity".toList cs with
  | some rest => some (.null, rest)
  | none => match after? "NaN".toList cs with
    | some rest => some (.null, rest)
    | none => do
      let (n, rest) ← Numeral.read negative cs
      n.relaxed?.map (·, rest)

def readRelaxedNumber : List Char → Option (Json × List Char)
  | '0' :: 'x' :: cs | '0' :: 'X' :: cs => readHexInteger cs
  | '-' :: cs => readUnsigned true cs
  | '+' :: cs => do
    let (n, rest) ← Numeral.read false cs
    n.relaxed?.map (·, rest)
  | cs => readUnsigned false cs

def relaxed : Dialect where
  skip := Gap.blanks.skip
  string := readRelaxedString
  key := readKey
  number := readRelaxedNumber
  trailingComma := true
  levels? := none

end StepGraph.Json
