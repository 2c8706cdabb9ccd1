import StepGraph.Json.Record

/-!
Values that are read back as they were written. A reader that restores what is written for items and
reads nothing from null restores lists and absent values, too. A record takes its parts from the
fields of an object one by one, so it is enough to say what the object holds under each key.
-/
set_option autoImplicit false

namespace StepGraph

namespace Json

variable {α : Type}

/-- The reader gives back whatever the writer writes, and nothing for null, which stands for an
absent value. -/
structure Restores (decode : Json → Option α) (encode : α → Json) : Prop where
  decode_encode : ∀ a, decode (encode a) = some a
  decode_null : decode .null = none

section

variable {decode : Json → Option α} {encode : α → Json}

theorem list?_list {items : List α} (h : ∀ a ∈ items, decode (encode a) = some a) :
    list? decode (list encode items) = some items := by
  rw [list, list?, List.mapM_map]
  induction items with
  | nil => rfl
  | cons a items ih =>
    rw [List.forall_mem_cons] at h
    rw [List.mapM_cons, ih h.2, Function.comp_apply, h.1]
    rfl

theorem Restores.list (h : Restores decode encode) : Restores (list? decode) (list encode) where
  decode_encode _ := list?_list fun a _ => h.decode_encode a
  decode_null := rfl

theorem Restores.optional?_encode (h : Restores decode encode) (a : α) :
    optional? decode (encode a) = some (some a) := by
  have ha := h.decode_encode a
  unfold optional?
  split
  · rename_i hnull
    rw [hnull, h.decode_null] at ha
    cases ha
  · rw [ha, Option.map_some]

theorem Restores.optional?_orNull (h : Restores decode encode) (o : Option α) :
    optional? decode (orNull encode o) = some o := by
  cases o with
  | none => rfl
  | some a => exact h.optional?_encode a

@[simp] theorem lookup_fieldIf (key k : String) (encode : α → Json) (o : Option α) :
    (fieldIf key encode o).lookup k = if k = key then o.map encode else none := by
  cases o with
  | none => simp [fieldIf]
  | some a =>
    by_cases h : k = key
    · simp [fieldIf, h]
    · have hne : (k == key) = false := by simpa using h
      simp [fieldIf, h, List.lookup_cons, hne]

end

theorem restores_string : Restores string? .string := ⟨fun _ => rfl, rfl⟩

theorem restores_bool : Restores bool? .bool := ⟨fun _ => rfl, rfl⟩

theorem restores_nat : Restores nat? nat := ⟨fun _ => rfl, rfl⟩

theorem restores_byte : Restores byte? fun b : UInt8 => nat b.toNat where
  decode_encode b := by simp [byte?, nat?, nat, b.toNat_lt]
  decode_null := rfl

theorem restores_strings : Restores strings? strings := restores_string.list

end Json

namespace Record

open Json

variable {α β : Type} {fields : List (String × Json)}

def Takes (r : Record α) (fields : List (String × Json)) (a : α) : Prop :=
  r (.named fields) = some (a, .named fields)

theorem Takes.read_object {r : Record α} {a : α} (h : r.Takes fields a) :
    r.read (.object fields) = some a := by
  rw [read, h, Option.map_some]

theorem takes_pure (a : α) : (pure a : Record α).Takes fields a := rfl

theorem Takes.bind {r : Record α} {f : α → Record β} {a : α} {b : β} (hr : r.Takes fields a)
    (hf : (f a).Takes fields b) : (r >>= f).Takes fields b := by
  rw [Takes, bind_apply, hr, Option.bind_some]
  exact hf

section

variable {key : String} {decode : Json → Option α} {encode : α → Json}

theorem takes_required_of {j : Json} {a : α} (hkey : fields.lookup key = some j)
    (hj : decode j = some a) : (required key decode).Takes fields a := by
  rw [Takes, required_named, hkey, Option.bind_some, hj, Option.map_some]

theorem takes_required (h : Restores decode encode) {a : α}
    (hkey : fields.lookup key = some (encode a)) : (required key decode).Takes fields a :=
  takes_required_of hkey (h.decode_encode a)

theorem takes_nullable (h : Restores decode encode) {o : Option α}
    (hkey : fields.lookup key = some (orNull encode o)) :
    (nullable key decode).Takes fields o := by
  rw [Takes, nullable_named, hkey, Option.elim_some, h.optional?_orNull, Option.map_some]

theorem takes_defaulted (h : Restores decode encode) {default a : α}
    (hkey : fields.lookup key = some (encode a)) :
    (defaulted key default decode).Takes fields a := by
  rw [Takes, defaulted_named, hkey, Option.elim_some, h.decode_encode, Option.map_some]

/-- A field that is left out where there is nothing to write. -/
theorem takes_nullable_if (h : Restores decode encode) {o : Option α}
    (hkey : fields.lookup key = o.map encode) : (nullable key decode).Takes fields o := by
  rw [Takes, nullable_named, hkey]
  cases o with
  | none => rfl
  | some a => rw [Option.map_some, Option.elim_some, h.optional?_encode, Option.map_some]

/-- The two readers differ on arrays only. -/
theorem Takes.omissible {o : Option α} (h : (nullable key decode).Takes fields o) :
    (omissible key decode).Takes fields o := by
  rw [Takes, nullable_named] at h
  rw [Takes, Record.omissible, defaulted_named, h]

end

end Record

end StepGraph
