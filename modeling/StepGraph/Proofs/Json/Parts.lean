import StepGraph.Json.Record

/-!
What a record takes from where in a document. The fields of an object are found by their keys and
the items of an array by their places, one for each field that was asked for before. So a triple of
a reader says from which place it reads to which, and what holds of its result.
-/
set_option autoImplicit false

namespace StepGraph

def Slot.value? : Slot → Option Json
  | .given j => some j
  | _ => none

namespace Json

def part? (key : String) (index : Nat) : Json → Option Json
  | .object fields => fields.lookup key
  | .array items => items[index]?
  | _ => none

def items : Json → List Json
  | .array items => items
  | _ => []

def itemsAt (key : String) (index : Nat) (j : Json) : List Json :=
  ((j.part? key index).map items).getD []

def row? (index : Nat) : Json → Option Row
  | .object fields => some (.named fields)
  | .array items => some (.listed (items.drop index))
  | _ => none

theorem next_of_row? {j : Json} {index : Nat} {row : Row} (h : j.row? index = some row)
    (key : String) : j.row? (index + 1) = some (row.next key).2 ∧
      (row.next key).1.value? = j.part? key index := by
  cases j with
  | object fields =>
    cases h
    rw [Row.next, part?]
    cases fields.lookup key <;> exact ⟨rfl, rfl⟩
  | array items =>
    cases h
    rw [row?, part?, ← List.tail_drop, ← List.head?_drop]
    cases items.drop index <;> exact ⟨rfl, rfl⟩
  | _ => cases h

section

variable {α β : Type} {decode : Json → Option α} {j : Json}

/-- What is listed for each item read can be listed for each item of the document. -/
theorem flatMap_of_list? {f : α → List β} {g : Json → List β}
    (hitem : ∀ i a, decode i = some a → f a = g i) {as : List α} (h : list? decode j = some as) :
    as.flatMap f = j.items.flatMap g := by
  cases j with
  | array items =>
    rw [list?] at h
    rw [Json.items]
    induction items generalizing as with
    | nil =>
      cases h
      rfl
    | cons i rest ih =>
      rw [List.mapM_cons] at h
      obtain ⟨a, ha, h⟩ := Option.bind_eq_some_iff.mp h
      obtain ⟨more, hmore, h⟩ := Option.bind_eq_some_iff.mp h
      cases h
      rw [List.flatMap_cons, List.flatMap_cons, hitem i a ha, ih hmore]
  | _ => cases h

theorem flatMap_of_optional? {f : α → List β} {g : Json → List β}
    (hitem : ∀ i a, decode i = some a → f a = g i) {o : Option (List α)}
    (h : optional? (list? decode) j = some o) : (o.getD []).flatMap f = j.items.flatMap g := by
  unfold optional? at h
  split at h
  · cases h
    rfl
  · obtain ⟨as, has, rfl⟩ := Option.map_eq_some_iff.mp h
    exact flatMap_of_list? hitem has

end

end Json

namespace Record

open Json

variable {α β : Type} {j : Json}

/-- From place `m` of the document the reader goes to place `n`, and what it reads is in `P`. -/
def Yields (r : Record α) (j : Json) (m n : Nat) (P : α → Prop) : Prop :=
  ∀ row a after, j.row? m = some row → r row = some (a, after) → j.row? n = some after ∧ P a

theorem Yields.bind {r : Record α} {f : α → Record β} {m k n : Nat} {P : α → Prop} {Q : β → Prop}
    (hr : r.Yields j m k P) (hf : ∀ a, P a → (f a).Yields j k n Q) : (r >>= f).Yields j m n Q := by
  intro row b after hrow h
  rw [bind_apply, Option.bind_eq_some_iff] at h
  obtain ⟨⟨a, mid⟩, ha, hb⟩ := h
  obtain ⟨hmid, hp⟩ := hr row a mid hrow ha
  exact hf a hp mid b after hmid hb

theorem yields_pure {n : Nat} {P : α → Prop} {a : α} (h : P a) :
    (pure a : Record α).Yields j n n P := by
  intro row b after hrow heq
  cases heq
  exact ⟨hrow, h⟩

theorem Yields.read {r : Record α} {n : Nat} {P : α → Prop} (hr : r.Yields j 0 n P) {a : α}
    (h : r.read j = some a) : P a := by
  cases j with
  | object fields =>
    obtain ⟨⟨b, after⟩, hb, rfl⟩ := Option.map_eq_some_iff.mp h
    exact (hr _ b after rfl hb).2
  | array items =>
    rw [Record.read] at h
    split at h
    · rename_i b hb
      cases h
      exact (hr _ a _ rfl hb).2
    · cases h
  | _ => cases h

section

variable {key : String} {decode : Json → Option α} {n : Nat}

/-- A reader of one field. -/
theorem yields_of_next (key : String) {r : Record α} (f : Slot → Option α) {P : α → Prop}
    (hr : ∀ row, r row = (f (row.next key).1).map (·, (row.next key).2))
    (hf : ∀ slot a, slot.value? = j.part? key n → f slot = some a → P a) :
    r.Yields j n (n + 1) P := by
  intro row a after hrow h
  obtain ⟨hnext, hvalue⟩ := next_of_row? hrow key
  rw [hr] at h
  obtain ⟨b, hb, heq⟩ := Option.map_eq_some_iff.mp h
  cases heq
  exact ⟨hnext, hf _ a hvalue hb⟩

theorem yields_required : (required key decode).Yields j n (n + 1) fun a =>
    (j.part? key n).bind decode = some a := by
  refine yields_of_next key (fun slot => slot.value?.bind decode) (fun row => ?_) ?_
  · rw [required]
    rcases row.next key with ⟨slot, after⟩
    cases slot <;> rfl
  · intro slot a hslot ha
    rw [← hslot]
    exact ha

/-- A field that an object leaves out is read like null. -/
theorem yields_nullable : (nullable key decode).Yields j n (n + 1) fun o =>
    ((j.part? key n).getD .null).optional? decode = some o := by
  refine yields_of_next key (fun slot => match slot with
    | .ended => none
    | slot => (slot.value?.getD .null).optional? decode) (fun row => ?_) ?_
  · rw [nullable]
    rcases row.next key with ⟨slot, after⟩
    cases slot <;> rfl
  · intro slot o hslot ho
    rw [← hslot]
    cases slot with
    | ended => cases ho
    | _ => exact ho

theorem yields_omissible : (omissible key decode).Yields j n (n + 1) fun o =>
    ((j.part? key n).getD .null).optional? decode = some o := by
  refine yields_of_next key (fun slot => (slot.value?.getD .null).optional? decode)
    (fun row => ?_) ?_
  · rw [omissible, defaulted]
    rcases row.next key with ⟨slot, after⟩
    cases slot <;> rfl
  · intro slot o hslot ho
    rw [← hslot]
    exact ho

end

end Record

end StepGraph
