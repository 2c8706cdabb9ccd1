import Mathlib.Data.List.Flatten
import StepGraph.Proofs.Graph.EdgeIds
import StepGraph.Proofs.Step

/-!
Which of the written steps a walk draws. It goes through the paths of forks but asks the flat lists
of parallel blocks whether there is anything to draw, so that the steps under a list of empty chains
are passed by; these are the only ones.
-/
set_option autoImplicit false

namespace StepGraph

mutual

/-- The interactions written in a step or in its paths, in order; flat lists do not count. -/
def Step.written : Step → List Interaction
  | .single i => [i]
  | .chain c => c.members
  | .fork _ paths => pathsWritten paths

def pathsWritten : List (Path × List Step) → List Interaction
  | [] => []
  | (_, steps) :: rest => stepsWritten steps ++ pathsWritten rest

def stepsWritten : List Step → List Interaction
  | [] => []
  | s :: rest => s.written ++ stepsWritten rest

end

def View.written (v : View) : List Interaction := stepsWritten v.steps

theorem stepsWritten_eq_flatMap (steps : List Step) :
    stepsWritten steps = steps.flatMap Step.written := by
  induction steps with
  | nil => rfl
  | cons s rest ih => rw [stepsWritten, ih, List.flatMap_cons]

theorem pathsWritten_eq (paths : List (Path × List Step)) :
    pathsWritten paths = (innerSteps paths).flatMap Step.written := by
  induction paths with
  | nil => rfl
  | cons p rest ih => simp [pathsWritten, stepsWritten_eq_flatMap, ih]

theorem Step.written_fork (f : Fork) (paths : List (Path × List Step)) :
    (Step.fork f paths).written = (innerSteps paths).flatMap Step.written := by
  rw [Step.written, pathsWritten_eq]

/-- The fork has a flat list, but one that stands for nothing. -/
def Fork.isHollow (f : Fork) : Bool := !f.lanes.isEmpty && (headsFirst f.lanes).isEmpty

def HidesNothing (x : Fork × List (Path × List Step)) : Prop :=
  x.1.isHollow = true → pathsWritten x.2 = []

theorem Step.isVoid_of_isHollow {f : Fork} (h : f.isHollow = true)
    (paths : List (Path × List Step)) : (Step.fork f paths).isVoid = true := by
  rw [Fork.isHollow, Bool.and_eq_true, Bool.not_eq_true'] at h
  rw [Step.isVoid, Step.interactions_fork, if_neg (by simp [h.1])]
  exact h.2

theorem Step.met_sublist_written (s : Step) : s.met.Sublist s.written := by
  induction s using Step.inductOn with
  | single i => exact .refl _
  | chain c => rw [Step.met_chain, Step.written]
  | fork f paths ih =>
    rw [Step.met_fork, Step.written_fork]
    split
    · exact List.nil_sublist _
    · exact List.Sublist.flatMap_right _ ih

/-- Where no list is hollow over steps, only what has no steps stands for nothing. -/
theorem Step.written_eq_nil_of_isVoid {s : Step} (hv : s.isVoid = true)
    (h : ∀ x ∈ s.forks, HidesNothing x) : s.written = [] := by
  induction s using Step.inductOn with
  | single i => simp [Step.isVoid, Step.interactions] at hv
  | chain c => exact List.isEmpty_iff.mp hv
  | fork f paths ih =>
    rw [Step.forks_fork, List.forall_mem_cons, List.forall_mem_flatMap] at h
    obtain ⟨hf, hinner⟩ := h
    rw [Step.isVoid, Step.interactions_fork] at hv
    split at hv
    · rw [List.isEmpty_iff, List.flatMap_eq_nil_iff] at hv
      rw [Step.written_fork, List.flatMap_eq_nil_iff]
      exact fun s hs => ih s hs (List.isEmpty_iff.mpr (hv s hs)) (hinner s hs)
    · rename_i hl
      exact hf (by simp [Fork.isHollow, hl, hv])

theorem Step.hidesNothing_of_written_eq_nil {s : Step} (h : s.written = []) :
    ∀ x ∈ s.forks, HidesNothing x := by
  induction s using Step.inductOn with
  | single i => exact List.forall_mem_nil _
  | chain c => exact List.forall_mem_nil _
  | fork f paths ih =>
    rw [Step.forks_fork, List.forall_mem_cons, List.forall_mem_flatMap]
    refine ⟨fun _ => h, fun s hs => ih s hs ?_⟩
    rw [Step.written_fork, List.flatMap_eq_nil_iff] at h
    exact h s hs

theorem flatMap_eq_iff_of_sublist {steps : List Step} {f g : Step → List Interaction}
    (h : ∀ s ∈ steps, (f s).Sublist (g s)) :
    steps.flatMap f = steps.flatMap g ↔ ∀ s ∈ steps, f s = g s := by
  induction steps with
  | nil => simp
  | cons s rest ih =>
    rw [List.forall_mem_cons] at h
    have hrest := List.Sublist.flatMap_right rest h.2
    rw [List.flatMap_cons, List.flatMap_cons, List.forall_mem_cons, ← ih h.2]
    constructor
    · intro heq
      have hlen := congrArg List.length heq
      simp only [List.length_append] at hlen
      have hs := h.1.length_le
      have hr := hrest.length_le
      exact ⟨h.1.eq_of_length (by omega), hrest.eq_of_length (by omega)⟩
    · rintro ⟨hs, hr⟩
      rw [hs, hr]

theorem Step.met_eq_written_iff (s : Step) :
    s.met = s.written ↔ ∀ x ∈ s.forks, HidesNothing x := by
  induction s using Step.inductOn with
  | single i => simp [Step.written, Step.forks]
  | chain c => simp [Step.written, Step.forks]
  | fork f paths ih =>
    rw [Step.met_fork]
    split
    -- A void fork is passed by: nothing is lost if nothing is written in it.
    · rename_i hv
      constructor
      · exact fun h => Step.hidesNothing_of_written_eq_nil h.symm
      · exact fun h => (Step.written_eq_nil_of_isVoid hv h).symm
    · rename_i hv
      have hf : HidesNothing (f, paths) :=
        fun hh => absurd (Step.isVoid_of_isHollow hh paths) hv
      rw [Step.written_fork, flatMap_eq_iff_of_sublist fun s _ => s.met_sublist_written,
        Step.forks_fork, List.forall_mem_cons, List.forall_mem_flatMap]
      exact ⟨fun h => ⟨hf, fun s hs => (ih s hs).mp (h s hs)⟩,
        fun h s hs => (ih s hs).mpr (h.2 s hs)⟩

theorem View.met_sublist_written (v : View) : (v.sites.map (·.step)).Sublist v.written := by
  rw [View.met_sites, View.written, stepsWritten_eq_flatMap]
  exact List.Sublist.flatMap_right _ fun s _ => s.met_sublist_written

theorem View.met_eq_written_iff (v : View) :
    v.sites.map (·.step) = v.written ↔ ∀ x ∈ v.forks, HidesNothing x := by
  rw [View.met_sites, View.written, stepsWritten_eq_flatMap,
    flatMap_eq_iff_of_sublist fun s _ => s.met_sublist_written, View.forks,
    stepForks_eq_flatMap, List.forall_mem_flatMap]
  exact forall₂_congr fun s _ => s.met_eq_written_iff

def Edge.Draws (e : Edge) (i : Interaction) : Prop :=
  e.source = i.source ∧ e.target = i.target ∧ e.origin = i.origin

theorem draws_of_resolve {s : Scene} {i : Interaction} {p : Placed Resolved}
    (h : s.resolve i = .ok p.content) (theme : Theme) (order : List Name) :
    (edgeOf theme order p).Draws i := by
  obtain ⟨hsource, htarget, horigin, _, _⟩ := Scene.ends_of_resolve h
  exact ⟨hsource, htarget, horigin⟩

theorem draws_of_resolved {s : Scene} {steps : List Interaction} {placed : List (Placed Resolved)}
    (h : List.Forall₂ (fun i p => s.resolve i = .ok p.content) steps placed) (theme : Theme)
    (order : List Name) :
    List.Forall₂ (fun i e => e.Draws i) steps (placed.map (edgeOf theme order)) := by
  rw [List.forall₂_map_right_iff]
  exact h.imp fun _ _ hp => draws_of_resolve hp theme order

theorem edges_draw_met {model : Model} {options : Options} {v : View} {g : Graph}
    (h : v.draw model options = .ok g) (haware : options.branchAware = true) :
    List.Forall₂ (fun i e => e.Draws i) (v.sites.map (·.step)) g.edges := by
  obtain ⟨selected, l, nodes, _, hl, _, rfl⟩ := View.draw_eq_ok_iff.mp h
  rw [haware] at hl
  exact draws_of_resolved (Scene.resolved_of_place hl) _ _

/-- The edges that a walk draws are for written steps, in their order. They are for all of them, one
by one, if and only if there are no steps in the paths of a fork whose flat list is hollow. -/
theorem edges_draw_written_iff {model : Model} {options : Options} {v : View} {g : Graph}
    (h : v.draw model options = .ok g) (haware : options.branchAware = true) :
    (∃ met, met.Sublist v.written ∧ List.Forall₂ (fun i e => e.Draws i) met g.edges) ∧
    (List.Forall₂ (fun i e => e.Draws i) v.written g.edges ↔
      ∀ x ∈ v.forks, x.1.isHollow = true → pathsWritten x.2 = []) := by
  have hmet := edges_draw_met h haware
  refine ⟨⟨_, v.met_sublist_written, hmet⟩, ?_⟩
  constructor
  · intro hwritten
    refine v.met_eq_written_iff.mp (v.met_sublist_written.eq_of_length ?_)
    rw [hmet.length_eq, hwritten.length_eq]
  · intro hhides
    rw [← v.met_eq_written_iff.mpr hhides]
    exact hmet

theorem edges_draw_written_iff_checkout :
    ∃ g, checkoutView.draw checkoutModel { branchAware := true } = .ok g ∧
      ({ branchAware := true } : Options).branchAware = true ∧
      (∃ met, met.Sublist checkoutView.written ∧
        List.Forall₂ (fun i e => e.Draws i) met g.edges) ∧
      (List.Forall₂ (fun i e => e.Draws i) checkoutView.written g.edges ↔
        ∀ x ∈ checkoutView.forks, x.1.isHollow = true → pathsWritten x.2 = []) := by
  obtain ⟨g, hg, _⟩ := exists_draw_checkout
  exact ⟨g, hg, rfl, edges_draw_written_iff hg rfl⟩

/-- The flat list of the block is one empty chain, but a step is written in its path. -/
def hollowView : View where
  id := "hollow"
  rules := [.including ["shop.web", "bank"]]
  steps :=
    [.fork { id := "pay", kind := .parallel, shadow := some [.chain { members := [] }] }
      [({ id := "pay-path-1" }, [.single (checkoutCall "shop.web" "bank")])]]

theorem hollow_step_not_drawn :
    ∃ g, hollowView.draw checkoutModel { branchAware := true } = .ok g ∧
      ¬ List.Forall₂ (fun i e => e.Draws i) hollowView.written g.edges := by
  obtain ⟨g, hg, hids⟩ : ∃ g, hollowView.draw checkoutModel { branchAware := true } = .ok g ∧
      g.edgeIds = [] := exists_ok_of_map_toOption (by decide +kernel)
  refine ⟨g, hg, fun h => ?_⟩
  have hedges : g.edges = [] := by simpa [Graph.edgeIds] using hids
  have hlen := h.length_eq
  rw [hedges] at hlen
  exact absurd hlen (by decide)

end StepGraph
