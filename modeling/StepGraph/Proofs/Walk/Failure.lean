import StepGraph.Drawing
import StepGraph.Proofs.Outcome
import StepGraph.Proofs.Walk.Sites

/-!
How a walk fails. Its fault is that of the first step met that cannot be resolved; a walk through
steps that can all be resolved does not fail.
-/
set_option autoImplicit false

namespace StepGraph

variable {α : Type}

def firstFault (resolve : Interaction → Except Fault α) (steps : List Interaction) :
    Option Fault := steps.findSome? fun i => faultOf (resolve i)

theorem firstFault_eq_none_iff {resolve : Interaction → Except Fault α}
    {steps : List Interaction} :
    firstFault resolve steps = none ↔ ∀ i ∈ steps, ∃ a, resolve i = .ok a := by
  rw [firstFault, List.findSome?_eq_none_iff]
  refine forall₂_congr fun i _ => ?_
  cases resolve i <;> simp [faultOf]

namespace Walk

variable (resolve : Interaction → Except Fault α)

theorem failure_visit (w : Walk α) (v : Nat × Visit) :
    (w.visit resolve v).failure =
      w.failure.or (v.2.met?.bind fun i => faultOf (resolve i)) := by
  obtain ⟨root, v⟩ := v
  cases v with
  | enter f p n => simp [visit]
  | meet i =>
    cases hf : w.failure with
    | some fault => simp [visit, meet, hf]
    | none => cases hr : resolve i <;> simp [visit, meet, place, hf, hr, faultOf]
  | leave => simp [visit]

theorem failure_of_failure_visit {w : Walk α} {v : Nat × Visit}
    (h : (w.visit resolve v).failure = none) : w.failure = none := by
  rw [failure_visit, Option.or_eq_none_iff] at h
  exact h.1

theorem failure_run (visits : List (Nat × Visit)) (w : Walk α) :
    (run resolve visits w).failure =
      w.failure.or (firstFault resolve (visits.filterMap (·.2.met?))) := by
  induction visits generalizing w with
  | nil => simp [firstFault]
  | cons v visits ih =>
    rw [run_cons, ih, failure_visit, Option.or_assoc, List.filterMap_cons]
    cases hv : v.2.met? with
    | none => simp
    | some i => cases hr : resolve i <;> simp [firstFault, hr, faultOf]

theorem failure_of_failure_run {visits : List (Nat × Visit)} {w : Walk α}
    (h : (run resolve visits w).failure = none) : w.failure = none := by
  rw [failure_run, Option.or_eq_none_iff] at h
  exact h.1

end Walk

theorem Scene.failure_walk (s : Scene) (v : View) :
    (s.walk v.steps).failure = firstFault s.resolve (v.sites.map (·.step)) := by
  rw [walk, Walk.failure_run, filterMap_rootVisits 1 0]
  rfl

end StepGraph
