import Mathlib.Data.List.Basic
import Mathlib.Data.List.Perm.Basic
import StepGraph.Proofs.Walk.Sites

/-!
Trees of steps taken apart. What is said of a fork follows from what is said of the steps in its
paths; which path holds a step matters to its place alone.
-/
set_option autoImplicit false

namespace StepGraph

def innerSteps (paths : List (Path × List Step)) : List Step := paths.flatMap (·.2)

@[simp] theorem innerSteps_nil : innerSteps [] = [] := rfl

@[simp] theorem innerSteps_cons (p : Path × List Step) (rest : List (Path × List Step)) :
    innerSteps (p :: rest) = p.2 ++ innerSteps rest := List.flatMap_cons

/-- A fork has a property if all steps in its paths have it. -/
@[elab_as_elim]
theorem Step.inductOn {motive : Step → Prop} (s : Step) (single : ∀ i, motive (.single i))
    (chain : ∀ c, motive (.chain c))
    (fork : ∀ f paths, (∀ s ∈ innerSteps paths, motive s) → motive (.fork f paths)) : motive s := by
  refine @Step.rec motive (fun paths => ∀ s ∈ innerSteps paths, motive s)
    (fun p => ∀ s ∈ p.2, motive s) (fun steps => ∀ s ∈ steps, motive s) single chain fork
    ?_ ?_ ?_ ?_ ?_ s
  · exact List.forall_mem_nil _
  · intro p rest hp hrest
    rw [innerSteps_cons, List.forall_mem_append]
    exact ⟨hp, hrest⟩
  · exact fun _ _ hsteps => hsteps
  · exact List.forall_mem_nil _
  · exact fun _ _ hs hrest => List.forall_mem_cons.mpr ⟨hs, hrest⟩

mutual

def Step.forks : Step → List (Fork × List (Path × List Step))
  | .single _ => []
  | .chain _ => []
  | .fork f paths => (f, paths) :: pathForks paths

def pathForks : List (Path × List Step) → List (Fork × List (Path × List Step))
  | [] => []
  | (_, steps) :: rest => stepForks steps ++ pathForks rest

def stepForks : List Step → List (Fork × List (Path × List Step))
  | [] => []
  | s :: rest => s.forks ++ stepForks rest

end

def View.forks (v : View) : List (Fork × List (Path × List Step)) := stepForks v.steps

@[simp] theorem stepForks_eq_flatMap (steps : List Step) :
    stepForks steps = steps.flatMap Step.forks := by
  induction steps with
  | nil => rfl
  | cons s rest ih => rw [stepForks, ih, List.flatMap_cons]

theorem pathForks_eq (paths : List (Path × List Step)) :
    pathForks paths = (innerSteps paths).flatMap Step.forks := by
  induction paths with
  | nil => rfl
  | cons p rest ih => simp [pathForks, ih]

theorem Step.forks_fork (f : Fork) (paths : List (Path × List Step)) :
    (Step.fork f paths).forks = (f, paths) :: (innerSteps paths).flatMap Step.forks := by
  rw [Step.forks, pathForks_eq]

theorem Step.interactions_fork (f : Fork) (paths : List (Path × List Step)) :
    (Step.fork f paths).interactions = if f.lanes.isEmpty
      then (innerSteps paths).flatMap Step.interactions else headsFirst f.lanes := by
  rw [Step.interactions, pathInteractions_eq_flatMap, innerSteps, List.flatMap_assoc]
  simp only [stepInteractions_eq_flatMap]

/-- The relation holds of wholes if it holds of their parts. -/
structure IsAdditive (R : List Interaction → List Interaction → Prop) : Prop where
  refl : ∀ l, R l l
  append : ∀ {a b c d : List Interaction}, R a b → R c d → R (a ++ c) (b ++ d)

theorem isAdditive_eq : IsAdditive Eq where
  refl _ := rfl
  append h k := by rw [h, k]

theorem isAdditive_perm : IsAdditive List.Perm where
  refl := List.Perm.refl
  append := List.Perm.append

theorem IsAdditive.flatMap {R : List Interaction → List Interaction → Prop} (hR : IsAdditive R)
    {steps : List Step} {f g : Step → List Interaction} (h : ∀ s ∈ steps, R (f s) (g s)) :
    R (steps.flatMap f) (steps.flatMap g) := by
  induction steps with
  | nil => exact hR.refl []
  | cons s rest ih =>
    rw [List.forall_mem_cons] at h
    rw [List.flatMap_cons, List.flatMap_cons]
    exact hR.append h.1 (ih h.2)

def Step.met (s : Step) : List Interaction := s.visits.filterMap Visit.met?

theorem filterMap_stepVisits_eq (steps : List Step) :
    (stepVisits steps).filterMap Visit.met? = steps.flatMap Step.met := by
  induction steps with
  | nil => rfl
  | cons s rest ih => simp [stepVisits, ih, Step.met]

theorem filterMap_pathVisits_eq (f : Fork) (n : Nat) (paths : List (Path × List Step)) :
    (pathVisits f n paths).filterMap Visit.met? = (innerSteps paths).flatMap Step.met := by
  induction paths generalizing n with
  | nil => rfl
  | cons p rest ih => simp [pathVisits, List.filterMap_cons, filterMap_stepVisits_eq, ih]

@[simp] theorem Step.met_single (i : Interaction) : (Step.single i).met = [i] := rfl

@[simp] theorem Step.met_chain (c : Chain) : (Step.chain c).met = c.members := by
  simp [Step.met, Step.visits, List.filterMap_map, Function.comp_def]

theorem Step.met_fork (f : Fork) (paths : List (Path × List Step)) :
    (Step.fork f paths).met =
      if (Step.fork f paths).isVoid then [] else (innerSteps paths).flatMap Step.met := by
  rw [Step.met, Step.visits]
  split
  · rfl
  · exact filterMap_pathVisits_eq f 1 paths

theorem Step.met_rootVisits (root : Nat) (s : Step) :
    (s.rootVisits root).filterMap (·.2.met?) = s.met := by
  cases s with
  | single i => rfl
  | chain c => simp [Step.rootVisits, List.filterMap_map, Function.comp_def]
  | fork f paths => simp [Step.rootVisits, Step.met, List.filterMap_map]

theorem View.met_sites (v : View) : v.sites.map (·.step) = v.steps.flatMap Step.met := by
  rw [sites, ← filterMap_rootVisits]
  generalize 1 = root
  induction v.steps generalizing root with
  | nil => rfl
  | cons s rest ih =>
    rw [rootVisits, List.filterMap_append, s.met_rootVisits, ih, List.flatMap_cons]

/-- If the fork has lanes, its paths are those that stand for them. -/
def HasLanePaths (x : Fork × List (Path × List Step)) : Prop :=
  x.1.lanes ≠ [] → ∃ id, x.2 = (flatFork id x.1.lanes).2

@[simp] theorem Lane.interactions_toStep (lane : Lane) :
    lane.toStep.interactions = lane.interactions := by
  cases lane <;> rfl

theorem innerSteps_lanePaths (id : String) (n : Nat) (lanes : List Lane) :
    innerSteps (lanePaths id n lanes) = lanes.map Lane.toStep := by
  induction lanes generalizing n with
  | nil => rfl
  | cons lane rest ih => simp [lanePaths, ih]

theorem headsFirst_perm (lanes : List Lane) :
    (headsFirst lanes).Perm (lanes.flatMap (·.interactions)) := by
  have h := List.flatMap_append_perm lanes (·.interactions.take 1) (·.interactions.drop 1)
  simpa only [headsFirst, List.take_append_drop] using h

theorem Lane.met_toStep (lane : Lane) : lane.toStep.met = lane.interactions := by
  cases lane with
  | single i => rfl
  | chain c => exact Step.met_chain c

end StepGraph
