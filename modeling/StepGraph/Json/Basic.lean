/-! The values a document is made of. Fields of an object keep their order. -/
set_option autoImplicit false

namespace StepGraph

/-- A number that is written with a fraction or an exponent, or that fits no integer of 64 bits,
is kept as `mantissa * 10 ^ exponent`. -/
inductive Json where
  | null
  | bool (value : Bool)
  | int (value : Int)
  | decimal (mantissa exponent : Int)
  | string (value : String)
  | array (items : List Json)
  | object (fields : List (String × Json))
  deriving Inhabited

namespace Json

/-- Fields with `key` bound to `value`: a field of that name keeps its place. -/
def setField (key : String) (value : Json) : List (String × Json) → List (String × Json)
  | [] => [(key, value)]
  | (k, v) :: rest => if k = key then (key, value) :: rest else (k, v) :: setField key value rest

@[simp] theorem lookup_setField_self (key : String) (value : Json)
    (fields : List (String × Json)) : (setField key value fields).lookup key = some value := by
  induction fields with
  | nil => simp [setField]
  | cons f rest ih =>
    obtain ⟨k, v⟩ := f
    by_cases h : k = key
    · simp [setField, h]
    · have h' : (key == k) = false := by simpa using Ne.symm h
      simp [setField, h, List.lookup_cons, h', ih]

def nat (n : Nat) : Json := .int n

def orNull {α : Type} (encode : α → Json) : Option α → Json
  | none => .null
  | some a => encode a

def list {α : Type} (encode : α → Json) (items : List α) : Json := .array (items.map encode)

def strings (items : List String) : Json := list .string items

def fieldIf {α : Type} (key : String) (encode : α → Json) : Option α → List (String × Json)
  | none => []
  | some a => [(key, encode a)]

mutual

def depth : Json → Nat
  | .array items => depthItems items + 1
  | .object fields => depthFields fields + 1
  | _ => 0

def depthItems : List Json → Nat
  | [] => 0
  | j :: rest => max (depth j) (depthItems rest)

def depthFields : List (String × Json) → Nat
  | [] => 0
  | (_, j) :: rest => max (depth j) (depthFields rest)

end

end Json

end StepGraph
