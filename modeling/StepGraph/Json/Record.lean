import StepGraph.Json.Basic

/-!
Records read from a value. A record is an object with its fields in any order, unknown ones among
them, or an array with the fields in the order in which they are asked for.
-/
set_option autoImplicit false

namespace StepGraph

namespace Json

def bool? : Json → Option Bool
  | .bool b => some b
  | _ => none

def string? : Json → Option String
  | .string s => some s
  | _ => none

def nat? : Json → Option Nat
  | .int (.ofNat n) => some n
  | _ => none

def byte? (j : Json) : Option UInt8 :=
  j.nat?.bind fun n => if n < 256 then some (.ofNat n) else none

def list? {α : Type} (decode : Json → Option α) : Json → Option (List α)
  | .array items => items.mapM decode
  | _ => none

def strings? : Json → Option (List String) := list? string?

/-- Null stands for an absent value. -/
def optional? {α : Type} (decode : Json → Option α) : Json → Option (Option α)
  | .null => some none
  | j => (decode j).map some

/-- The alternative that a value names, with its content if it is written as an object. -/
def alternative? : Json → Option (String × Option Json)
  | .string name => some (name, none)
  | .object [(name, content)] => some (name, some content)
  | _ => none

def name? (j : Json) : Option String :=
  match j.alternative? with
  | some (name, none) | some (name, some .null) => some name
  | _ => none

end Json

inductive Row where
  | named (fields : List (String × Json))
  | listed (items : List Json)

inductive Slot where
  | given (value : Json)
  /-- The object has no field of this name. -/
  | missing
  /-- The array has no more items. -/
  | ended

def Row.next (key : String) : Row → Slot × Row
  | .named fields => match fields.lookup key with
    | some j => (.given j, .named fields)
    | none => (.missing, .named fields)
  | .listed [] => (.ended, .listed [])
  | .listed (j :: items) => (.given j, .listed items)

abbrev Record (α : Type) := StateT Row Option α

namespace Record

variable {α : Type}

def required (key : String) (decode : Json → Option α) : Record α := fun row =>
  match row.next key with
  | (.given j, row) => (decode j).map (·, row)
  | _ => none

/-- A field that an object may leave out. An array must hold it. -/
def nullable (key : String) (decode : Json → Option α) : Record (Option α) := fun row =>
  match row.next key with
  | (.given j, row) => (j.optional? decode).map (·, row)
  | (.missing, row) => some (none, row)
  | (.ended, _) => none

def defaulted (key : String) (default : α) (decode : Json → Option α) : Record α := fun row =>
  match row.next key with
  | (.given j, row) => (decode j).map (·, row)
  | (_, row) => some (default, row)

def omissible (key : String) (decode : Json → Option α) : Record (Option α) :=
  defaulted key none (Json.optional? decode)

@[simp] theorem pure_apply (a : α) (row : Row) : (pure a : Record α) row = some (a, row) := rfl

@[simp] theorem bind_apply {β : Type} (r : Record α) (f : α → Record β) (row : Row) :
    (r >>= f) row = (r row).bind fun p => f p.1 p.2 := by
  show StateT.bind r f row = _
  simp only [StateT.bind]
  cases r row <;> rfl

@[simp] theorem map_apply {β : Type} (f : α → β) (r : Record α) (row : Row) :
    (f <$> r) row = (r row).map fun p => (f p.1, p.2) := by
  show StateT.map f r row = _
  simp only [StateT.map]
  cases r row <;> rfl

@[simp] theorem required_named (key : String) (decode : Json → Option α)
    (fields : List (String × Json)) :
    required key decode (.named fields) =
      ((fields.lookup key).bind decode).map (·, .named fields) := by
  simp only [required, Row.next]
  cases fields.lookup key <;> rfl

@[simp] theorem nullable_named (key : String) (decode : Json → Option α)
    (fields : List (String × Json)) :
    nullable key decode (.named fields) =
      ((fields.lookup key).elim (some none) (·.optional? decode)).map (·, .named fields) := by
  simp only [nullable, Row.next]
  cases fields.lookup key <;> rfl

@[simp] theorem defaulted_named (key : String) (default : α) (decode : Json → Option α)
    (fields : List (String × Json)) :
    defaulted key default decode (.named fields) =
      ((fields.lookup key).elim (some default) decode).map (·, .named fields) := by
  simp only [defaulted, Row.next]
  cases fields.lookup key <;> rfl

/-- Reads a whole value; an array must have no items left. -/
def read (record : Record α) : Json → Option α
  | .object fields => (record (.named fields)).map Prod.fst
  | .array items => match record (.listed items) with
    | some (a, .listed []) => some a
    | _ => none
  | _ => none

end Record

end StepGraph
