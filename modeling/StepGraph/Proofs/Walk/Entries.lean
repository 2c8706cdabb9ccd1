import Mathlib.Algebra.Ring.Nat
import StepGraph.Proofs.Step
import StepGraph.Proofs.Walk.FlatNumbers

/-!
The top-level entries of a view with their root numbers. An entry begins where the one before it
ended, in both numberings; the flat one uses every root number in turn, and its ids increase.
-/
set_option autoImplicit false

namespace StepGraph

def View.rootAt (v : View) (k : Nat) : Nat := 1 + ((v.steps.take k).map Step.roots).sum

def View.entries (v : View) : List (Nat × Step) :=
  v.steps.zipIdx.map fun (s, k) => (v.rootAt k, s)

def withRoots (root : Nat) : List Step → List (Nat × Step)
  | [] => []
  | s :: rest => (root, s) :: withRoots (root + s.roots) rest

theorem withRoots_eq (root : Nat) (steps : List Step) : withRoots root steps =
    steps.zipIdx.map fun (s, k) => (root + ((steps.take k).map Step.roots).sum, s) := by
  induction steps generalizing root with
  | nil => rfl
  | cons s rest ih =>
    rw [withRoots, ih, List.zipIdx_cons, List.zipIdx_succ]
    simp [Nat.add_assoc]

theorem View.entries_eq (v : View) : v.entries = withRoots 1 v.steps :=
  (withRoots_eq 1 v.steps).symm

theorem flatNumbers_eq (root : Nat) (steps : List Step) : flatNumbers root steps =
    (withRoots root steps).flatMap fun (root, e) => e.flatNumbers root := by
  induction steps generalizing root with
  | nil => rfl
  | cons s rest ih => rw [flatNumbers, ih, withRoots, List.flatMap_cons]

/-- The ids that a flat numbering gives an entry: one after the other to the members of a chain, and
below the one of a fork to what it stands for. -/
def Step.flatIds (root : Nat) : Step → List EdgeId
  | .single _ => [.ofSegments root []]
  | .chain c => (List.range' root c.members.length).map (.ofSegments · [])
  | .fork f paths =>
    (List.range' 1 (Step.fork f paths).interactions.length).map (.ofSegments root [·])

def View.flatIds (v : View) : List EdgeId := v.entries.flatMap fun (root, s) => s.flatIds root

theorem Step.id_flatNumbers (root : Nat) (s : Step) :
    (s.flatNumbers root).map (·.id) = s.flatIds root := by
  cases s with
  | single i => rfl
  | chain c =>
    rw [Step.flatNumbers, Step.flatIds, ← List.zipIdx_map_snd, List.map_map, List.map_map]
    rfl
  | fork f paths =>
    rw [Step.flatNumbers, Step.flatIds, ← List.zipIdx_map_snd, List.map_map, List.map_map]
    rfl

theorem id_flatNumbers (root : Nat) (steps : List Step) : (flatNumbers root steps).map (·.id) =
    (withRoots root steps).flatMap fun (root, s) => s.flatIds root := by
  rw [flatNumbers_eq, List.map_flatMap]
  exact List.flatMap_congr fun x _ => x.2.id_flatNumbers x.1

theorem View.id_flatNumbers (v : View) : (flatNumbers 1 v.steps).map (·.id) = v.flatIds := by
  rw [View.flatIds, View.entries_eq, StepGraph.id_flatNumbers]

theorem Step.exists_root_iff (root : Nat) (s : Step) (r : Nat) :
    (∃ id ∈ s.flatIds root, id.numbers.head? = some r) ↔ root ≤ r ∧ r < root + s.roots := by
  cases s with
  | single i =>
    simp only [Step.flatIds, Step.roots, List.mem_singleton, exists_eq_left,
      EdgeId.numbers_ofSegments, List.head?_cons, Option.some.injEq]
    omega
  | chain c =>
    simp [Step.flatIds, Step.roots, EdgeId.numbers_ofSegments, List.mem_range'_1]
  | fork f paths =>
    simp only [Step.flatIds, Step.roots, Step.isVoid, List.mem_map, List.mem_range'_1,
      List.isEmpty_iff_length_eq_zero]
    constructor
    · rintro ⟨_, ⟨n, hn, rfl⟩, hr⟩
      rw [EdgeId.numbers_ofSegments, List.head?_cons, Option.some.injEq] at hr
      rw [if_neg (by omega)]
      omega
    · intro hr
      split at hr
      · omega
      · refine ⟨_, ⟨1, by omega, rfl⟩, ?_⟩
        rw [EdgeId.numbers_ofSegments, List.head?_cons, Option.some.injEq]
        omega

theorem exists_root_iff (root : Nat) (steps : List Step) (r : Nat) :
    (∃ id ∈ (withRoots root steps).flatMap fun (root, s) => s.flatIds root,
      id.numbers.head? = some r) ↔ root ≤ r ∧ r < root + (steps.map Step.roots).sum := by
  induction steps generalizing root with
  | nil =>
    simp only [withRoots, List.flatMap_nil, List.not_mem_nil, false_and, exists_false, List.map_nil,
      List.sum_nil, false_iff]
    omega
  | cons s rest ih =>
    simp only [withRoots, List.flatMap_cons, List.mem_append, or_and_right, exists_or, ih,
      s.exists_root_iff, List.map_cons, List.sum_cons]
    omega

/-- No root number is left out, and none is used beyond the last entry. -/
theorem View.exists_root_iff (v : View) (r : Nat) :
    (∃ id ∈ v.flatIds, id.numbers.head? = some r) ↔
      1 ≤ r ∧ r ≤ (v.steps.map Step.roots).sum := by
  rw [View.flatIds, View.entries_eq, StepGraph.exists_root_iff]
  omega

theorem Step.pairwise_flatIds (root : Nat) (s : Step) :
    (s.flatIds root).Pairwise fun a b => a.numbers < b.numbers := by
  cases s with
  | single i => exact List.pairwise_singleton _ _
  | chain c =>
    rw [Step.flatIds, List.pairwise_map]
    refine List.Pairwise.imp (fun h => ?_) List.pairwise_lt_range'
    rw [EdgeId.numbers_ofSegments, EdgeId.numbers_ofSegments]
    exact List.Lex.rel h
  | fork f paths =>
    rw [Step.flatIds, List.pairwise_map]
    refine List.Pairwise.imp (fun h => ?_) List.pairwise_lt_range'
    rw [EdgeId.numbers_ofSegments, EdgeId.numbers_ofSegments]
    exact List.Lex.cons (List.Lex.rel h)

theorem pairwise_flatNumbers (root : Nat) (steps : List Step) :
    (flatNumbers root steps).Pairwise fun p q => p.id.numbers < q.id.numbers := by
  induction steps generalizing root with
  | nil => exact List.Pairwise.nil
  | cons s rest ih =>
    have hs := s.pairwise_flatIds root
    rw [← s.id_flatNumbers, List.pairwise_map] at hs
    rw [flatNumbers, List.pairwise_append]
    refine ⟨hs, ih _, fun p hp q hq => ?_⟩
    obtain ⟨r, nested, hpid, _, hlt⟩ := s.id_of_mem_flatNumbers hp
    obtain ⟨r', nested', hqid, hle⟩ := id_of_mem_flatNumbers rest hq
    rw [hpid, hqid, EdgeId.numbers_ofSegments, EdgeId.numbers_ofSegments]
    exact List.Lex.rel (by omega)

/-- Read as numbers, the flat ids stand in lexicographic order. -/
theorem View.pairwise_flatIds (v : View) :
    (v.flatIds.map EdgeId.numbers).Pairwise (· < ·) := by
  rw [← v.id_flatNumbers, List.map_map, List.pairwise_map]
  exact pairwise_flatNumbers 1 v.steps

/-- Ids of an entry that starts at `root`: outside of forks those of the root numbers that it takes,
inside all of them below the same one. -/
def Step.HasIds (root : Nat) (ids : List EdgeId) : Step → Prop
  | .single _ => ids = [.ofSegments root []]
  | .chain c => ids = (List.range' root c.members.length).map (.ofSegments · [])
  | .fork _ _ => ∀ id ∈ ids, ∃ nested, nested ≠ [] ∧ id = .ofSegments root nested

theorem Step.hasIds_flatIds (root : Nat) (s : Step) : s.HasIds root (s.flatIds root) := by
  cases s with
  | single i => rfl
  | chain c => rfl
  | fork f paths =>
    intro id hid
    obtain ⟨n, _, rfl⟩ := List.mem_map.mp hid
    exact ⟨[n], List.cons_ne_nil n [], rfl⟩

theorem Step.HasIds.isInParallel_iff {root : Nat} {s : Step} {ids : List EdgeId}
    (h : s.HasIds root ids) {id : EdgeId} (hid : id ∈ ids) (block : Nat) :
    EdgeId.isInParallel id.text block = true ↔ (∃ f paths, s = .fork f paths) ∧ root = block := by
  cases s with
  | single i =>
    obtain rfl := List.mem_singleton.mp (h ▸ hid)
    simp [EdgeId.isInParallel_ofSegments]
  | chain c =>
    rw [HasIds] at h
    rw [h] at hid
    obtain ⟨n, _, rfl⟩ := List.mem_map.mp hid
    simp [EdgeId.isInParallel_ofSegments]
  | fork f paths =>
    obtain ⟨nested, hne, rfl⟩ := h id hid
    simp [EdgeId.isInParallel_ofSegments, hne]

theorem Step.HasIds.isInAlternate_eq_false {root : Nat} {s : Step} {ids : List EdgeId}
    (h : s.HasIds root ids) {id : EdgeId} (hid : id ∈ ids) (block : Nat) :
    EdgeId.isInAlternate id.text block = false := by
  obtain ⟨r, nested, rfl⟩ : ∃ r nested, id = .ofSegments r nested := by
    cases s with
    | single i => exact ⟨root, [], List.mem_singleton.mp (h ▸ hid)⟩
    | chain c =>
      rw [HasIds] at h
      rw [h] at hid
      obtain ⟨n, _, rfl⟩ := List.mem_map.mp hid
      exact ⟨n, [], rfl⟩
    | fork f paths =>
      obtain ⟨nested, _, rfl⟩ := h id hid
      exact ⟨root, nested, rfl⟩
  exact EdgeId.isInAlternate_ofSegments r nested block

end StepGraph
