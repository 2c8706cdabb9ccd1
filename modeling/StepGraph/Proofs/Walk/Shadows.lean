import StepGraph.Proofs.Step

/-!
Walks without shadows. Where every parallel block with lanes has the paths that its lanes stand for,
taking the shadows away leaves the walk through the steps as it was: the same forks are passed by,
and neither the ids that a walk gives out nor its journal tell whether a fork had a shadow.
-/
set_option autoImplicit false

namespace StepGraph

def Fork.unshadowed (f : Fork) : Fork := { f with shadow := none }

@[simp] theorem Fork.lanes_unshadowed (f : Fork) : f.unshadowed.lanes = [] := by
  cases h : f.kind <;> simp [lanes, unshadowed, h]

mutual

def Step.unshadowed : Step → Step
  | .single i => .single i
  | .chain c => .chain c
  | .fork f paths => .fork f.unshadowed (pathsUnshadowed paths)

def pathsUnshadowed : List (Path × List Step) → List (Path × List Step)
  | [] => []
  | (p, steps) :: rest => (p, stepsUnshadowed steps) :: pathsUnshadowed rest

def stepsUnshadowed : List Step → List Step
  | [] => []
  | s :: rest => s.unshadowed :: stepsUnshadowed rest

end

def View.unshadowed (v : View) : View := { v with steps := stepsUnshadowed v.steps }

theorem stepsUnshadowed_eq_map (steps : List Step) :
    stepsUnshadowed steps = steps.map Step.unshadowed := by
  induction steps with
  | nil => rfl
  | cons s rest ih => rw [stepsUnshadowed, ih, List.map_cons]

theorem innerSteps_pathsUnshadowed (paths : List (Path × List Step)) :
    innerSteps (pathsUnshadowed paths) = (innerSteps paths).map Step.unshadowed := by
  induction paths with
  | nil => rfl
  | cons p rest ih => simp [pathsUnshadowed, stepsUnshadowed_eq_map, ih]

@[simp] theorem Lane.unshadowed_toStep (lane : Lane) : lane.toStep.unshadowed = lane.toStep := by
  cases lane <;> rfl

/-- A step with and without shadows stands for the same as far as lanes may be read one by one. -/
theorem Step.interactions_unshadowed {R : List Interaction → List Interaction → Prop}
    (hR : IsAdditive R) {s : Step} (hlanes : ∀ x ∈ s.forks, HasLanePaths x)
    (h : ∀ x ∈ s.forks, R (headsFirst x.1.lanes) (x.1.lanes.flatMap (·.interactions))) :
    R s.interactions s.unshadowed.interactions := by
  induction s using Step.inductOn with
  | single i => exact hR.refl _
  | chain c => exact hR.refl _
  | fork f paths ih =>
    rw [Step.forks_fork, List.forall_mem_cons, List.forall_mem_flatMap] at hlanes h
    rw [Step.unshadowed, Step.interactions_fork, Step.interactions_fork, Fork.lanes_unshadowed,
      if_pos List.isEmpty_nil, innerSteps_pathsUnshadowed, List.flatMap_map]
    split
    · exact hR.flatMap fun s hs => ih s hs (hlanes.2 s hs) (h.2 s hs)
    · rename_i hl
      obtain ⟨id, rfl⟩ : ∃ id, paths = lanePaths id 1 f.lanes := hlanes.1 (by simpa using hl)
      simpa [innerSteps_lanePaths, List.flatMap_map] using h.1

theorem interactions_unshadowed {R : List Interaction → List Interaction → Prop}
    (hR : IsAdditive R) {v : View} (hlanes : ∀ x ∈ v.forks, HasLanePaths x)
    (h : ∀ x ∈ v.forks, R (headsFirst x.1.lanes) (x.1.lanes.flatMap (·.interactions))) :
    R (stepInteractions v.steps) (stepInteractions v.unshadowed.steps) := by
  rw [View.forks, stepForks_eq_flatMap, List.forall_mem_flatMap] at hlanes h
  rw [stepInteractions_eq_flatMap, stepInteractions_eq_flatMap, View.unshadowed,
    stepsUnshadowed_eq_map, List.flatMap_map]
  exact hR.flatMap fun s hs => Step.interactions_unshadowed hR (hlanes s hs) (h s hs)

theorem Step.isVoid_unshadowed {s : Step} (h : ∀ x ∈ s.forks, HasLanePaths x) :
    s.unshadowed.isVoid = s.isVoid := by
  have hperm := Step.interactions_unshadowed isAdditive_perm h fun x _ => headsFirst_perm x.1.lanes
  exact hperm.symm.isEmpty_eq

def Visit.unshadowed : Visit → Visit
  | .enter f p n => .enter f.unshadowed p n
  | .meet i => .meet i
  | .leave => .leave

theorem stepVisits_unshadowed {steps : List Step}
    (h : ∀ s ∈ steps, s.unshadowed.visits = s.visits.map Visit.unshadowed) :
    stepVisits (stepsUnshadowed steps) = (stepVisits steps).map Visit.unshadowed := by
  induction steps with
  | nil => rfl
  | cons s rest ih =>
    rw [List.forall_mem_cons] at h
    rw [stepsUnshadowed, stepVisits, stepVisits, h.1, ih h.2, List.map_append]

theorem pathVisits_unshadowed (f : Fork) (n : Nat) {paths : List (Path × List Step)}
    (h : ∀ s ∈ innerSteps paths, s.unshadowed.visits = s.visits.map Visit.unshadowed) :
    pathVisits f.unshadowed n (pathsUnshadowed paths) =
      (pathVisits f n paths).map Visit.unshadowed := by
  induction paths generalizing n with
  | nil => rfl
  | cons p rest ih =>
    obtain ⟨p, steps⟩ := p
    rw [innerSteps_cons, List.forall_mem_append] at h
    simp [pathsUnshadowed, pathVisits, stepVisits_unshadowed h.1, ih _ h.2, Visit.unshadowed]

theorem Step.visits_unshadowed {s : Step} (h : ∀ x ∈ s.forks, HasLanePaths x) :
    s.unshadowed.visits = s.visits.map Visit.unshadowed := by
  induction s using Step.inductOn with
  | single i => rfl
  | chain c => simp [Step.unshadowed, Step.visits, Visit.unshadowed, Function.comp_def]
  | fork f paths ih =>
    have hv := Step.isVoid_unshadowed h
    rw [Step.forks_fork, List.forall_mem_cons, List.forall_mem_flatMap] at h
    rw [Step.unshadowed] at hv ⊢
    rw [Step.visits, Step.visits, hv]
    split
    · rfl
    · exact pathVisits_unshadowed f 1 fun s hs => ih s hs (h.2 s hs)

theorem Step.roots_unshadowed {s : Step} (h : ∀ x ∈ s.forks, HasLanePaths x) :
    s.unshadowed.roots = s.roots := by
  cases s with
  | single i => rfl
  | chain c => rfl
  | fork f paths =>
    have hv := Step.isVoid_unshadowed h
    rw [Step.unshadowed] at hv ⊢
    rw [Step.roots, Step.roots, hv]

theorem Step.rootVisits_unshadowed (root : Nat) {s : Step} (h : ∀ x ∈ s.forks, HasLanePaths x) :
    s.unshadowed.rootVisits root =
      (s.rootVisits root).map fun v => (v.1, v.2.unshadowed) := by
  cases s with
  | single i => rfl
  | chain c => simp [Step.unshadowed, Step.rootVisits, Visit.unshadowed, Function.comp_def]
  | fork f paths =>
    have hv := Step.visits_unshadowed h
    rw [Step.unshadowed] at hv ⊢
    simp [Step.rootVisits, hv, Function.comp_def]

theorem rootVisits_unshadowed (root : Nat) {steps : List Step}
    (h : ∀ s ∈ steps, ∀ x ∈ s.forks, HasLanePaths x) :
    rootVisits root (stepsUnshadowed steps) =
      (rootVisits root steps).map fun v => (v.1, v.2.unshadowed) := by
  induction steps generalizing root with
  | nil => rfl
  | cons s rest ih =>
    rw [List.forall_mem_cons] at h
    rw [stepsUnshadowed, rootVisits, rootVisits, s.rootVisits_unshadowed root h.1,
      Step.roots_unshadowed h.1, ih _ h.2, List.map_append]

def Level.unshadowed (l : Level) : Level := { l with fork := l.fork.unshadowed }

@[simp] theorem Level.trailEntry_unshadowed (l : Level) : l.unshadowed.trailEntry = l.trailEntry :=
  rfl

def ForkRecord.unshadowed (r : ForkRecord) : ForkRecord := { r with fork := r.fork.unshadowed }

@[simp] theorem ForkRecord.summary_unshadowed (r : ForkRecord) :
    r.unshadowed.summary = r.summary := rfl

theorem ForkRecord.enterPath_unshadowed (l : Level) (r : ForkRecord) :
    r.unshadowed.enterPath l.unshadowed = (r.enterPath l).unshadowed := by
  rw [enterPath, enterPath, apply_ite unshadowed]
  rfl

namespace Journal

def unshadowed (j : Journal) : Journal where
  levels := j.levels.map (·.unshadowed)
  forks := j.forks.map (·.unshadowed)

theorem enterFork_unshadowed (l : Level) (forks : List ForkRecord) :
    enterFork l.unshadowed (forks.map (·.unshadowed)) = (enterFork l forks).map (·.unshadowed) := by
  induction forks with
  | nil => exact congrArg ([·]) (ForkRecord.enterPath_unshadowed l { fork := l.fork })
  | cons r rest ih =>
    have hid : (r.unshadowed.fork.id == l.unshadowed.fork.id) = (r.fork.id == l.fork.id) := rfl
    rw [List.map_cons, enterFork, enterFork, hid, ih, ForkRecord.enterPath_unshadowed]
    split <;> rfl

theorem enter_unshadowed (l : Level) (j : Journal) :
    j.unshadowed.enter l.unshadowed = (j.enter l).unshadowed := by
  simp only [enter, unshadowed, enterFork_unshadowed, List.map_cons]

theorem leave_unshadowed (j : Journal) : j.unshadowed.leave.2 = j.leave.2.unshadowed := by
  obtain ⟨levels, forks⟩ := j
  cases levels <;> rfl

theorem recordOn_unshadowed (id : EdgeId) (forks : List ForkRecord) (l : Level) :
    recordOn id (forks.map (·.unshadowed)) l.unshadowed =
      (recordOn id forks l).map (·.unshadowed) := by
  simp only [recordOn, List.map_map]
  refine List.map_congr_left fun r _ => ?_
  have hid : (r.unshadowed.fork.id == l.unshadowed.fork.id) = (r.fork.id == l.fork.id) := rfl
  simp only [Function.comp_apply, hid]
  split <;> rfl

theorem record_unshadowed (id : EdgeId) (j : Journal) :
    j.unshadowed.record id = (j.record id).unshadowed := by
  obtain ⟨levels, forks⟩ := j
  simp only [record, unshadowed, mk.injEq, true_and]
  induction levels generalizing forks with
  | nil => rfl
  | cons l outer ih => rw [List.map_cons, List.foldl_cons, recordOn_unshadowed, ih, List.foldl_cons]

theorem tally_unshadowed (j : Journal) : j.unshadowed.tally = j.tally.unshadowed := by
  simp [tally, unshadowed, Level.unshadowed, Function.comp_def]

theorem nextPosition_unshadowed (j : Journal) : j.unshadowed.nextPosition = j.nextPosition := by
  obtain ⟨levels, forks⟩ := j
  cases levels <;> rfl

theorem trailAt_unshadowed (j : Journal) : j.unshadowed.trailAt = j.trailAt := by
  funext position
  obtain ⟨levels, forks⟩ := j
  cases levels <;> simp [trailAt, unshadowed, Function.comp_def]

theorem idAt_unshadowed (root : Nat) (j : Journal) : j.unshadowed.idAt root = j.idAt root := by
  funext position
  simp [idAt, isIdle, unshadowed, Level.unshadowed, Function.comp_def]

theorem summary?_unshadowed (j : Journal) : j.unshadowed.summary? = j.summary? := by
  simp [summary?, isIdle, unshadowed, Function.comp_def]

end Journal

namespace Walk

variable {α : Type} (resolve : Interaction → Except Fault α)

def unshadowed (w : Walk α) : Walk α := { w with journal := w.journal.unshadowed }

theorem place_unshadowed (root : Nat) (a : α) (w : Walk α) :
    w.unshadowed.place root a = (w.place root a).unshadowed := by
  have hp : w.unshadowed.position root = w.position root := by
    rw [position, position, unshadowed, Journal.idAt_unshadowed, Journal.nextPosition_unshadowed]
    rfl
  simp only [place, hp]
  simp only [unshadowed, Journal.idAt_unshadowed, Journal.trailAt_unshadowed,
    Journal.record_unshadowed, Journal.tally_unshadowed]

theorem visit_unshadowed (w : Walk α) (root : Nat) (v : Visit) :
    w.unshadowed.visit resolve (root, v.unshadowed) =
      (w.visit resolve (root, v)).unshadowed := by
  cases v with
  | enter f p n =>
    simp only [visit, Visit.unshadowed, unshadowed, ← Journal.enter_unshadowed]
    rfl
  | meet i =>
    have hf : w.unshadowed.failure = w.failure := rfl
    simp only [visit, Visit.unshadowed, meet, hf]
    split
    · rfl
    · rfl
    · exact w.place_unshadowed root _
  | leave => simp only [visit, Visit.unshadowed, unshadowed, Journal.leave_unshadowed]

theorem run_unshadowed (visits : List (Nat × Visit)) (w : Walk α) :
    run resolve (visits.map fun v => (v.1, v.2.unshadowed)) w.unshadowed =
      (run resolve visits w).unshadowed := by
  induction visits generalizing w with
  | nil => rfl
  | cons v visits ih => rw [List.map_cons, run_cons, visit_unshadowed, ih, run_cons]

end Walk

end StepGraph
