import StepGraph.Json.Numeral

/-!
One reader for every notation of documents. A `Dialect` says what may stand between values, how
strings, keys and numbers are written and how deep values may be nested.
-/
set_option autoImplicit false

namespace StepGraph.Json

/-- Every part takes the characters left and gives back the rest. -/
structure Dialect where
  /-- Drops what may stand between two tokens. -/
  skip : List Char → List Char
  string : List Char → Option (String × List Char)
  key : List Char → Option (String × List Char)
  number : List Char → Option (Json × List Char)
  trailingComma : Bool
  /-- Levels of nesting, if they are limited. -/
  levels? : Option Nat

def after? : List Char → List Char → Option (List Char)
  | [], cs => some cs
  | w :: ws, c :: cs => if w = c then after? ws cs else none
  | _ :: _, [] => none

def deeper : Option Nat → Option (Option Nat)
  | none => some none
  | some 0 => none
  | some (n + 1) => some (some n)

def readWord (cs : List Char) : Option (Json × List Char) :=
  match after? "null".toList cs with
  | some rest => some (.null, rest)
  | none => match after? "true".toList cs with
    | some rest => some (.bool true, rest)
    | none => (after? "false".toList cs).map (Json.bool false, ·)

/-- Cuts a string at its closing quote. What stands after a backslash closes nothing. `acc` holds
what was passed, last first. -/
def cutQuoted (close : Char) (acc : List Char) : List Char → Option (List Char × List Char)
  | '\\' :: c :: cs => cutQuoted close (c :: '\\' :: acc) cs
  | c :: cs => if c = close then some (acc.reverse, cs) else cutQuoted close (c :: acc) cs
  | [] => none

def unescape (plain : Char → Bool) (escape : List Char → Option (List Char × List Char)) :
    Nat → List Char → List Char → Option (List Char)
  | 0, _, _ => none
  | _ + 1, acc, [] => some acc.reverse
  | fuel + 1, acc, c :: cs =>
    if c = '\\' then
      match escape cs with
      | some (s, rest) => unescape plain escape fuel (s.reverse ++ acc) rest
      | none => none
    else if plain c then unescape plain escape fuel (c :: acc) cs
    else none

def readQuoted (close : Char) (plain : Char → Bool)
    (escape : List Char → Option (List Char × List Char)) (cs : List Char) :
    Option (String × List Char) := do
  let (body, rest) ← cutQuoted close [] cs
  let content ← unescape plain escape (body.length + 1) [] body
  some (String.ofList content, rest)

namespace Dialect

mutual

def valueFuel (d : Dialect) : Nat → Option Nat → List Char → Option (Json × List Char)
  | 0, _, _ => none
  | fuel + 1, levels?, cs =>
    match cs with
    | '[' :: rest => do
      let inner ← deeper levels?
      match d.skip rest with
      | ']' :: rest => some (.array [], rest)
      | rest => d.itemsFuel fuel inner [] rest
    | '\x7b' :: rest => do
      let inner ← deeper levels?
      match d.skip rest with
      | '\x7d' :: rest => some (.object [], rest)
      | rest => d.fieldsFuel fuel inner [] rest
    | cs => match readWord cs with
      | some found => some found
      | none => match d.string cs with
        | some (s, rest) => some (.string s, rest)
        | none => d.number cs

def itemsFuel (d : Dialect) :
    Nat → Option Nat → List Json → List Char → Option (Json × List Char)
  | 0, _, _, _ => none
  | fuel + 1, levels?, acc, cs =>
    match d.valueFuel fuel levels? cs with
    | none => none
    | some (j, rest) => match d.skip rest with
      | ']' :: rest => some (.array (j :: acc).reverse, rest)
      | ',' :: rest => match d.trailingComma, d.skip rest with
        | true, ']' :: rest => some (.array (j :: acc).reverse, rest)
        | _, rest => d.itemsFuel fuel levels? (j :: acc) rest
      | _ => none

/-- Fields after a brace or a comma. Of two fields with one key the last holds. -/
def fieldsFuel (d : Dialect) :
    Nat → Option Nat → List (String × Json) → List Char → Option (Json × List Char)
  | 0, _, _, _ => none
  | fuel + 1, levels?, acc, cs =>
    match d.key cs with
    | none => none
    | some (key, rest) => match d.skip rest with
      | ':' :: rest => match d.valueFuel fuel levels? (d.skip rest) with
        | none => none
        | some (j, rest) => match d.skip rest with
          | '\x7d' :: rest => some (.object (setField key j acc), rest)
          | ',' :: rest => match d.trailingComma, d.skip rest with
            | true, '\x7d' :: rest => some (.object (setField key j acc), rest)
            | _, rest => d.fieldsFuel fuel levels? (setField key j acc) rest
          | _ => none
      | _ => none

end

/-- Reads one value; two units of fuel a character are enough. -/
def value (d : Dialect) (cs : List Char) : Option (Json × List Char) :=
  d.valueFuel (2 * cs.length + 2) d.levels? cs

def ends (d : Dialect) (cs : List Char) : Bool := (d.skip cs).isEmpty

def read (d : Dialect) (text : String) : Option Json := do
  let (j, rest) ← d.value (d.skip text.toList)
  if d.ends rest then some j else none

end Dialect

end StepGraph.Json
