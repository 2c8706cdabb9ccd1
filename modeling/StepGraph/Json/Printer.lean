import StepGraph.Json.Basic

/-! Documents as text: on one line, or indented by two blanks a level. -/
set_option autoImplicit false

namespace StepGraph.Json

/-- Quotes, backslashes and control characters are escaped, all else stands for itself. -/
def escapeChar (c : Char) : List Char :=
  if c = '"' then ['\\', '"']
  else if c = '\\' then ['\\', '\\']
  else if c = '\n' then ['\\', 'n']
  else if c = '\r' then ['\\', 'r']
  else if c = '\t' then ['\\', 't']
  else if c.toNat = 8 then ['\\', 'b']
  else if c.toNat = 12 then ['\\', 'f']
  else if c.toNat < 32 then
    ['\\', 'u', '0', '0', Nat.digitChar (c.toNat / 16), Nat.digitChar (c.toNat % 16)]
  else [c]

def quote (s : String) : String := "\"" ++ String.ofList (s.toList.flatMap escapeChar) ++ "\""

def intText : Int → String
  | .ofNat n => n.repr
  | .negSucc n => "-" ++ (n + 1).repr

mutual

def compact : Json → String
  | .null => "null"
  | .bool b => if b then "true" else "false"
  | .int n => intText n
  | .decimal m e => intText m ++ "e" ++ intText e
  | .string s => quote s
  | .array items => "[" ++ compactItems items ++ "]"
  | .object fields => "\x7b" ++ compactFields fields ++ "\x7d"

def compactItems : List Json → String
  | [] => ""
  | j :: rest => compact j ++ (if rest.isEmpty then "" else ",") ++ compactItems rest

def compactFields : List (String × Json) → String
  | [] => ""
  | (k, j) :: rest =>
    quote k ++ ":" ++ compact j ++ (if rest.isEmpty then "" else ",") ++ compactFields rest

end

def newline (level : Nat) : String := "\n" ++ String.ofList (List.replicate (2 * level) ' ')

mutual

/-- The value with one item or field a line; empty arrays and objects stay on their line. -/
def indented (level : Nat) : Json → String
  | .array items =>
    if items.isEmpty then "[]"
    else "[" ++ indentedItems (level + 1) items ++ newline level ++ "]"
  | .object fields =>
    if fields.isEmpty then "\x7b\x7d"
    else "\x7b" ++ indentedFields (level + 1) fields ++ newline level ++ "\x7d"
  | j => compact j

def indentedItems (level : Nat) : List Json → String
  | [] => ""
  | j :: rest =>
    newline level ++ indented level j ++ (if rest.isEmpty then "" else ",") ++
      indentedItems level rest

def indentedFields (level : Nat) : List (String × Json) → String
  | [] => ""
  | (k, j) :: rest =>
    newline level ++ quote k ++ ": " ++ indented level j ++
      (if rest.isEmpty then "" else ",") ++ indentedFields level rest

end

def render (pretty : Bool) (j : Json) : String := if pretty then indented 0 j else compact j

end StepGraph.Json
