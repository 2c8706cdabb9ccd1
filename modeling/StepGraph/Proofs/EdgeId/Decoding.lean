import StepGraph.Journal
import StepGraph.Proofs.EdgeId.Segments

/-!
Ids told apart again. Whatever numbers an id was made of, it is recognised, and its segments are
these numbers as far as they fit 32 bits; no other numbers make the same id. It lies inside a block
if it begins with its number and goes on after it.
-/
set_option autoImplicit false

namespace StepGraph

namespace EdgeId

/-- Digits have no plus sign in front of them. -/
theorem segment?_of_digits {cs : List Char} (hne : cs ≠ []) (h : ∀ c ∈ cs, c.isDigit = true) :
    segment? cs =
      if Nat.ofDigitChars 10 cs 0 < UInt32.size then some (Nat.ofDigitChars 10 cs 0) else none := by
  have hall : cs.all Char.isDigit = true := List.all_eq_true.mpr h
  have hplus : '+' ∉ cs := fun hc => absurd (h '+' hc) (by decide)
  have hempty : cs.isEmpty = false := by simpa using hne
  rw [segment?]
  · simp [hempty, hall]
  · intro ds hcs
    simp [hcs] at hplus

theorem segment?_segmentChars (n : Nat) :
    segment? (segmentChars n) = if n < UInt32.size then some n else none := by
  rw [segment?_of_digits (segmentChars_ne_nil n) fun c hc => isDigit_of_mem_segmentChars hc,
    ofDigitChars_segmentChars]

theorem readSegments_map (ns : List Nat) :
    readSegments (ns.map segmentChars) = ns.takeWhile (· < UInt32.size) := by
  induction ns with
  | nil => rfl
  | cons n ns ih =>
    rw [List.map_cons, readSegments, segment?_segmentChars, List.takeWhile_cons]
    by_cases hn : n < UInt32.size
    · simp [hn, ih]
    · simp [hn]

theorem segments?_ofSegments (root : Nat) (nested : List Nat) : (ofSegments root nested).segments? =
    some ((root :: nested).takeWhile (· < UInt32.size)) := by
  have hlead : dropBytes 5 (lead ++ body root nested) = some (body root nested) :=
    dropBytes_eq_some_iff.mpr ⟨lead, rfl, rfl⟩
  rw [segments?, chars_ofSegments, hlead, Option.map_some, pieces_body, readSegments_map]

/-- The id is recognised as it is, and it tells what it was made of. -/
structure Decodes (id : EdgeId) (root : Nat) (nested : List Nat) : Prop where
  parse : parse? id.text = some id
  segments : id.segments? = some ((root :: nested).takeWhile (· < UInt32.size))
  inParallel : ∀ block, isInParallel id.text block = true ↔ root = block ∧ nested ≠ []
  inAlternate : ∀ block, isInAlternate id.text block = false

theorem decodes_ofSegments (root : Nat) (nested : List Nat) :
    (ofSegments root nested).Decodes root nested where
  parse := parse?_ofSegments root nested
  segments := segments?_ofSegments root nested
  inParallel := isInParallel_ofSegments root nested
  inAlternate := isInAlternate_ofSegments root nested

end EdgeId

def Journal.nestedAt (j : Journal) (position : Nat) : List Nat :=
  if j.levels = [] then [] else (j.levels.map (·.index)).reverse ++ [position]

theorem Journal.idAt_eq (root : Nat) (j : Journal) (position : Nat) :
    j.idAt root position = .ofSegments root (j.nestedAt position) := by
  rw [idAt, nestedAt, isIdle]
  cases j.levels <;> rfl

/-- Ids are made of any numbers at all, whether outside of forks or at some position inside of them.
Each of them decodes as its numbers, and no others make the same id. -/
theorem ids_decode :
    (∀ root nested, (EdgeId.ofSegments root nested).Decodes root nested) ∧
    (∀ root nested root' nested', EdgeId.ofSegments root nested = .ofSegments root' nested' ↔
      root = root' ∧ nested = nested') ∧
    ∀ root (j : Journal), (j.nextId root).Decodes root (j.nestedAt j.nextPosition) ∧
      ∀ position, (j.idAt root position).Decodes root (j.nestedAt position) := by
  have hat (root : Nat) (j : Journal) (position : Nat) :
      (j.idAt root position).Decodes root (j.nestedAt position) := by
    rw [j.idAt_eq]
    exact EdgeId.decodes_ofSegments root _
  exact ⟨EdgeId.decodes_ofSegments, fun _ _ _ _ => EdgeId.ofSegments_inj,
    fun root j => ⟨hat root j j.nextPosition, hat root j⟩⟩

/-- The first number after the root does not fit 32 bits, so the last one is not told. -/
example : (EdgeId.ofSegments 7 [4294967296, 120]).text = "step-07.4294967296.120" ∧
    (EdgeId.ofSegments 7 [4294967296, 120]).segments? = some [7] := by decide +kernel

end StepGraph
