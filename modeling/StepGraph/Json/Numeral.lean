import StepGraph.Json.Basic

/-!
Written numbers and the values they stand for. The strict notation keeps integers of 64 bits with or
without a sign and scales anything else in binary64 arithmetic; the relaxed notation keeps signed
integers of 64 bits and rounds anything else once. Neither admits a number that rounds to infinity.
-/
set_option autoImplicit false

namespace StepGraph.Json

structure Numeral where
  negative : Bool
  whole : List Char
  fraction? : Option (List Char)
  exponent? : Option Int

/-- The first magnitude that rounds to infinity in binary64. -/
def binary64Limit : Nat := Nat.pow 2 1024 - Nat.pow 2 970

/-- The nearest integer of 53 significant bits; a tie goes to the even one. -/
def round53 (n : Nat) : Nat :=
  let unit := Nat.pow 2 (n.log2 + 1 - 53)
  let quotient := n / unit
  let rest := 2 * (n % unit)
  let up := unit < rest || (rest == unit && quotient % 2 == 1)
  (if up then quotient + 1 else quotient) * unit

namespace Numeral

def isInteger (n : Numeral) : Bool := n.fraction?.isNone && n.exponent?.isNone

def fraction (n : Numeral) : List Char := n.fraction?.getD []

def mantissa (n : Numeral) : Nat := Nat.ofDigitChars 10 (n.whole ++ n.fraction) 0

def exponent (n : Numeral) : Int := n.exponent?.getD 0 - n.fraction.length

def signed (n : Numeral) (magnitude : Nat) : Int :=
  if n.negative then -(magnitude : Int) else magnitude

def toDecimal (n : Numeral) : Json := .decimal (n.signed n.mantissa) n.exponent

def takeWhole (value : Nat) : List Char → Nat × Nat
  | [] => (value, 0)
  | c :: cs =>
    let next := Nat.ofDigitChars 10 [c] value
    if next < UInt64.size then takeWhole next cs else (value, cs.length + 1)

def takeFraction (value : Nat) : List Char → Nat × Nat
  | [] => (value, 0)
  | c :: cs =>
    let next := Nat.ofDigitChars 10 [c] value
    if next < UInt64.size then
      let (final, taken) := takeFraction next cs
      (final, taken + 1)
    else (value, 0)

/-- Scaling the leading digits by a power of ten stays finite: both factors are rounded first. -/
def scalesFinite (n : Numeral) : Bool :=
  let (whole, dropped) := takeWhole 0 n.whole
  let (significand, taken) := takeFraction whole n.fraction
  let scale : Int := n.exponent?.getD 0 + dropped - taken
  significand == 0 || scale < 0 ||
    (scale ≤ 308 && round53 significand * round53 (Nat.pow 10 scale.toNat) < binary64Limit)

def roundsFinite (n : Numeral) : Bool :=
  n.mantissa == 0 ||
    (if 0 ≤ n.exponent then
      n.exponent ≤ 308 && n.mantissa * Nat.pow 10 n.exponent.toNat < binary64Limit
    else
      (n.whole ++ n.fraction).length ≤ n.exponent.natAbs ||
        n.mantissa < binary64Limit * Nat.pow 10 n.exponent.natAbs)

/-- The value in the strict notation. A negative zero is no integer. -/
def strict? (n : Numeral) : Option Json :=
  let m := n.mantissa
  if n.isInteger && n.negative && 0 < m && Int64.minValue.toInt ≤ -(m : Int) then
    some (.int (-(m : Int)))
  else if n.isInteger && !n.negative && m < UInt64.size then some (.int m)
  else if n.scalesFinite then some n.toDecimal
  else none

def relaxed? (n : Numeral) : Option Json :=
  let m := n.signed n.mantissa
  if n.isInteger then
    if Int64.minValue.toInt ≤ m && m ≤ Int64.maxValue.toInt then some (.int m) else none
  else if n.roundsFinite then some n.toDecimal
  else none

def readExponent : List Char → Option (Option Int × List Char)
  | c :: cs =>
    if c == 'e' || c == 'E' then
      let (negative, rest) := match cs with
        | '+' :: r => (false, r)
        | '-' :: r => (true, r)
        | r => (false, r)
      let (digits, rest) := rest.span Char.isDigit
      if digits.isEmpty then none
      else
        let magnitude : Int := Nat.ofDigitChars 10 digits 0
        some (some (if negative then -magnitude else magnitude), rest)
    else some (none, c :: cs)
  | [] => some (none, [])

/-- Reads a number after its sign. No superfluous zero may lead, and a digit must be there. -/
def read (negative : Bool) (cs : List Char) : Option (Numeral × List Char) := do
  let (whole, rest) := cs.span Char.isDigit
  let (fraction?, rest) := match rest with
    | '.' :: r =>
      let (digits, r) := r.span Char.isDigit
      (some digits, r)
    | r => (none, r)
  if 1 < whole.length && whole.head? == some '0' then none
  else if whole.isEmpty && (fraction?.getD []).isEmpty then none
  else
    let (exponent?, rest) ← readExponent rest
    some (⟨negative, whole, fraction?, exponent?⟩, rest)

def isFull (n : Numeral) : Bool := !n.whole.isEmpty && n.fraction? != some []

end Numeral

end StepGraph.Json
