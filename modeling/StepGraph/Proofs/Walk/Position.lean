import Mathlib.Data.List.Nodup
import StepGraph.Proofs.EdgeId.Segments
import StepGraph.Walk

/-!
The search for a free position. Inside a fork different positions make different ids, so of one more
position than there are ids given out one is free, and the search ends at the first one that is.
-/
set_option autoImplicit false

namespace StepGraph

/-- The id at `position` is not taken, and every one from `start` up to it is. -/
structure IsFirstFree (taken : List EdgeId) (idAt : Nat → EdgeId) (start position : Nat) :
    Prop where
  le : start ≤ position
  free : idAt position ∉ taken
  below : ∀ q, start ≤ q → q < position → idAt q ∈ taken

section

variable (taken : EdgeId → Bool) (idAt : Nat → EdgeId)

theorem le_freePosition (fuel position : Nat) :
    position ≤ freePosition taken idAt fuel position := by
  induction fuel generalizing position with
  | zero => exact Nat.le_refl position
  | succ fuel ih =>
    have h := ih (position + 1)
    rw [freePosition]
    split <;> omega

theorem taken_of_lt_freePosition (fuel position q : Nat) (hq : position ≤ q)
    (hlt : q < freePosition taken idAt fuel position) : taken (idAt q) = true := by
  induction fuel generalizing position with
  | zero =>
    rw [freePosition] at hlt
    omega
  | succ fuel ih =>
    rw [freePosition] at hlt
    split at hlt
    · rename_i ht
      rcases Nat.eq_or_lt_of_le hq with rfl | hq
      · exact ht
      · exact ih (position + 1) hq hlt
    · omega

/-- Only a search that used up its fuel ends at an id that is taken. -/
theorem freePosition_eq_of_taken (fuel position : Nat)
    (h : taken (idAt (freePosition taken idAt fuel position)) = true) :
    freePosition taken idAt fuel position = position + fuel := by
  induction fuel generalizing position with
  | zero => rfl
  | succ fuel ih =>
    rw [freePosition] at h ⊢
    split
    · rename_i ht
      rw [if_pos ht] at h
      rw [ih (position + 1) h]
      omega
    · rename_i ht
      rw [if_neg ht] at h
      exact absurd h ht

end

theorem isFirstFree_freePosition {ids : List EdgeId} {taken : EdgeId → Bool} {idAt : Nat → EdgeId}
    (htaken : ∀ id, taken id = true ↔ id ∈ ids) (hinj : ∀ p q, idAt p = idAt q → p = q)
    (start : Nat) : IsFirstFree ids idAt start (freePosition taken idAt ids.length start) := by
  refine ⟨le_freePosition _ _ _ _, fun hmem => ?_, fun q hq hlt => ?_⟩
  · have hend := freePosition_eq_of_taken taken idAt _ start ((htaken _).mpr hmem)
    have hall : (List.range' start (ids.length + 1)).map idAt ⊆ ids := by
      intro id hid
      obtain ⟨q, hq, rfl⟩ := List.mem_map.mp hid
      rw [List.mem_range'_1] at hq
      rcases Nat.lt_or_ge q (start + ids.length) with hlt | hge
      · exact (htaken _).mp (taken_of_lt_freePosition taken idAt ids.length start q hq.1 (by omega))
      · have hqe : q = freePosition taken idAt ids.length start := by omega
        exact hqe ▸ hmem
    have hnodup : ((List.range' start (ids.length + 1)).map idAt).Nodup :=
      List.Nodup.map (fun p q => hinj p q) List.nodup_range'
    have hlen := hnodup.length_le_of_subset hall
    rw [List.length_map, List.length_range'] at hlen
    omega
  · exact (htaken _).mp (taken_of_lt_freePosition taken idAt _ start q hq hlt)

namespace Journal

variable {j k : Journal}

theorem idAt_congr (h : j.levels = k.levels) (root : Nat) : j.idAt root = k.idAt root := by
  funext position
  rw [idAt, idAt, isIdle, isIdle, h]

theorem trailAt_congr (h : j.levels = k.levels) : j.trailAt = k.trailAt := by
  funext position
  rw [trailAt, trailAt, h]

theorem nextPosition_congr (h : j.levels = k.levels) : j.nextPosition = k.nextPosition := by
  rw [nextPosition, nextPosition, h]

theorem idAt_injective (hj : j.levels ≠ []) {root p q : Nat} (h : j.idAt root p = j.idAt root q) :
    p = q := by
  simpa [idAt, isIdle, hj, EdgeId.ofSegments_inj] using h

end Journal

namespace Walk

variable {α : Type}

theorem isTaken_iff (w : Walk α) (id : EdgeId) :
    w.isTaken id = true ↔ id ∈ w.placed.map (·.id) := by
  simp [isTaken]

theorem isFirstFree_position (w : Walk α) (root : Nat) (hw : w.journal.levels ≠ []) :
    IsFirstFree (w.placed.map (·.id)) (w.journal.idAt root) w.journal.nextPosition
      (w.position root) := by
  rw [position, ← List.length_map (·.id)]
  exact isFirstFree_freePosition w.isTaken_iff (fun _ _ => Journal.idAt_injective hw) _

end Walk

end StepGraph
