import StepGraph.Proofs.EdgeId.Segments
import StepGraph.Proofs.Walk.Sites

/-!
The flat numbering. An entry uses the root numbers from its first one up to that of the next entry,
so no two steps get one id.
-/
set_option autoImplicit false

namespace StepGraph

theorem Step.id_of_mem_flatNumbers {root : Nat} (s : Step) {p : Placed Interaction}
    (h : p ∈ s.flatNumbers root) :
    ∃ r nested, p.id = .ofSegments r nested ∧ root ≤ r ∧ r < root + s.roots := by
  cases s with
  | single i =>
    rw [Step.flatNumbers, List.mem_singleton] at h
    exact ⟨root, [], by rw [h], Nat.le_refl root, by simp [Step.roots]⟩
  | chain c =>
    rw [Step.flatNumbers, List.mem_map] at h
    obtain ⟨⟨i, n⟩, hm, rfl⟩ := h
    have hn := List.mem_zipIdx hm
    exact ⟨n, [], rfl, hn.1, hn.2.1⟩
  | fork f paths =>
    rw [Step.flatNumbers, List.mem_map] at h
    obtain ⟨⟨i, n⟩, hm, rfl⟩ := h
    have hv : (Step.fork f paths).isVoid = false := by
      rw [Step.isVoid, List.isEmpty_eq_false_iff]
      intro he
      simp [he] at hm
    exact ⟨root, [n], rfl, Nat.le_refl root, by simp [Step.roots, hv]⟩

theorem id_of_mem_flatNumbers {root : Nat} (steps : List Step) {p : Placed Interaction}
    (h : p ∈ flatNumbers root steps) : ∃ r nested, p.id = .ofSegments r nested ∧ root ≤ r := by
  induction steps generalizing root with
  | nil => simp [flatNumbers] at h
  | cons s rest ih =>
    rw [flatNumbers, List.mem_append] at h
    rcases h with h | h
    · obtain ⟨r, nested, hid, hle, _⟩ := s.id_of_mem_flatNumbers h
      exact ⟨r, nested, hid, hle⟩
    · obtain ⟨r, nested, hid, hle⟩ := ih h
      exact ⟨r, nested, hid, by omega⟩

theorem Step.flatNumbers_nodup (root : Nat) (s : Step) :
    ((s.flatNumbers root).map (·.id)).Nodup := by
  cases s with
  | single i => simp [Step.flatNumbers]
  | chain c =>
    rw [Step.flatNumbers, List.map_map, List.Nodup, List.pairwise_map]
    exact (pairwise_zipIdx root c.members).imp fun hlt he =>
      Nat.ne_of_lt hlt (EdgeId.ofSegments_inj.mp he).1
  | fork f paths =>
    rw [Step.flatNumbers, List.map_map, List.Nodup, List.pairwise_map]
    refine (pairwise_zipIdx 1 (Step.fork f paths).interactions).imp fun hlt he => ?_
    exact Nat.ne_of_lt hlt (by simpa using (EdgeId.ofSegments_inj.mp he).2)

theorem flatNumbers_nodup (root : Nat) (steps : List Step) :
    ((flatNumbers root steps).map (·.id)).Nodup := by
  induction steps generalizing root with
  | nil => simp [flatNumbers]
  | cons s rest ih =>
    rw [flatNumbers, List.map_append, List.nodup_append]
    refine ⟨s.flatNumbers_nodup root, ih _, fun a ha b hb hab => ?_⟩
    obtain ⟨p, hp, rfl⟩ := List.mem_map.mp ha
    obtain ⟨q, hq, rfl⟩ := List.mem_map.mp hb
    obtain ⟨r, nested, hpid, _, hlt⟩ := s.id_of_mem_flatNumbers hp
    obtain ⟨r', nested', hqid, hle⟩ := id_of_mem_flatNumbers rest hq
    rw [hpid, hqid, EdgeId.ofSegments_inj] at hab
    omega

end StepGraph
