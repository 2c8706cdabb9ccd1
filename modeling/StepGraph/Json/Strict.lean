import StepGraph.Json.Dialect

/-! The strict notation of documents. -/
set_option autoImplicit false

namespace StepGraph.Json

def isStrictBlank (c : Char) : Bool := c == ' ' || c == '\n' || c == '\r' || c == '\t'

def hexDigit? (c : Char) : Option Nat :=
  if '0' ≤ c && c ≤ '9' then some (c.toNat - '0'.toNat)
  else if 'a' ≤ c && c ≤ 'f' then some (c.toNat - 'a'.toNat + 10)
  else if 'A' ≤ c && c ≤ 'F' then some (c.toNat - 'A'.toNat + 10)
  else none

def hexValue? : Nat → List Char → Option Nat
  | value, [] => some value
  | value, c :: cs => (hexDigit? c).bind fun d => hexValue? (16 * value + d) cs

def readHex4 : List Char → Option (Nat × List Char)
  | a :: b :: c :: d :: rest => (hexValue? 0 [a, b, c, d]).map (·, rest)
  | _ => none

def isLead (unit : Nat) : Bool := 0xd800 ≤ unit && unit < 0xdc00

def isTrail (unit : Nat) : Bool := 0xdc00 ≤ unit && unit < 0xe000

def pairBits (lead trail : Nat) : Nat := (lead - 0xd800) * 0x400 + (trail - 0xdc00)

/-- The character of a four digit escape. Surrogates come in pairs; `toTrail` leads from the first
to the digits of the second, and `point` gives the code point beyond U+FFFF for the bits of both. -/
def readUnit (point : Nat → Nat) (toTrail : List Char → Option (List Char)) (cs : List Char) :
    Option (Char × List Char) := do
  let (unit, rest) ← readHex4 cs
  if isLead unit then
    let (trail, rest) ← readHex4 (← toTrail rest)
    if isTrail trail then some (Char.ofNat (point (pairBits unit trail)), rest) else none
  else if isTrail unit then none
  else some (Char.ofNat unit, rest)

/-- The strict notation counts the characters beyond U+FFFF from there. -/
def strictPoint (bits : Nat) : Nat := bits + 0x10000

def unitMark : List Char → Option (List Char) := after? ['\\', 'u']

def strictEscape : Char → Option Char
  | '"' => some '"'
  | '\\' => some '\\'
  | '/' => some '/'
  | 'b' => some '\x08'
  | 'f' => some '\x0c'
  | 'n' => some '\n'
  | 'r' => some '\r'
  | 't' => some '\t'
  | _ => none

def readStrictEscape : List Char → Option (List Char × List Char)
  | [] => none
  | c :: cs =>
    if c = 'u' then (readUnit strictPoint unitMark cs).map fun (c, rest) => ([c], rest)
    else (strictEscape c).map ([·], cs)

/-- Control characters must be escaped. -/
def isStrictPlain (c : Char) : Bool := 0x20 ≤ c.toNat

def readStrictString : List Char → Option (String × List Char)
  | '"' :: cs => readQuoted '"' isStrictPlain readStrictEscape cs
  | _ => none

def readSigned (cs : List Char) : Option (Numeral × List Char) :=
  match cs with
  | '-' :: rest => Numeral.read true rest
  | rest => Numeral.read false rest

def readStrictNumber (cs : List Char) : Option (Json × List Char) := do
  let (n, rest) ← readSigned cs
  if n.isFull then n.strict?.map (·, rest) else none

/-- Values nest at most 127 deep. -/
def strict : Dialect where
  skip := List.dropWhile isStrictBlank
  string := readStrictString
  key := readStrictString
  number := readStrictNumber
  trailingComma := false
  levels? := some 127

def skipEscape : List Char → Option (List Char × List Char)
  | [] => none
  | c :: cs =>
    if c = 'u' then (readHex4 cs).map fun (_, rest) => ([], rest)
    else (strictEscape c).map ([·], cs)

def skipString : List Char → Option (String × List Char)
  | '"' :: cs => readQuoted '"' isStrictPlain skipEscape cs
  | _ => none

def skipNumber (cs : List Char) : Option (Json × List Char) := do
  let (n, rest) ← readSigned cs
  if n.isFull then some (n.toDecimal, rest) else none

/-- The strict notation where only the form of a value counts: what is read is thrown away, so that
neither range nor depth nor single surrogates matter. -/
def formOnly : Dialect :=
  { strict with string := skipString, key := skipString, number := skipNumber, levels? := none }

end StepGraph.Json
