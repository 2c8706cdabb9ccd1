import StepGraph.Proofs.Graph.EdgeIds
import StepGraph.Proofs.Step

/-!
What the two numberings of a view have in common. A flat numbering takes the shadow of a parallel
block that has one, a walk its paths; where the paths are those that the shadow stands for, no step
is lost, made up or resolved differently, and only the order inside such blocks may change.
-/
set_option autoImplicit false

namespace StepGraph

/-- If the fork has lanes, the steps met in its paths are related to those the lanes stand for. -/
def LanesRelated (R : List Interaction → List Interaction → Prop)
    (x : Fork × List (Path × List Step)) : Prop :=
  x.1.lanes ≠ [] → R ((pathVisits x.1 1 x.2).filterMap Visit.met?) (headsFirst x.1.lanes)

/-- Only the lanes of a fork can set apart what is met in it and what it stands for; a void fork is
passed by and stands for nothing. -/
theorem Step.met_related {R : List Interaction → List Interaction → Prop} (hR : IsAdditive R)
    (s : Step) (h : ∀ x ∈ s.forks, LanesRelated R x) : R s.met s.interactions := by
  induction s using Step.inductOn with
  | single i => exact hR.refl [i]
  | chain c =>
    rw [Step.met_chain]
    exact hR.refl c.members
  | fork f paths ih =>
    rw [Step.forks_fork, List.forall_mem_cons, List.forall_mem_flatMap] at h
    obtain ⟨hf, hinner⟩ := h
    rw [Step.met_fork]
    split
    · rename_i hv
      rw [List.isEmpty_iff.mp hv]
      exact hR.refl []
    · rw [Step.interactions_fork]
      split
      · exact hR.flatMap fun s hs => ih s hs (hinner s hs)
      · rename_i hl
        rw [← filterMap_pathVisits_eq f 1]
        exact hf (by simpa using hl)

theorem View.placedSteps_related {R : List Interaction → List Interaction → Prop}
    (hR : IsAdditive R) {v : View} (h : ∀ x ∈ v.forks, LanesRelated R x) :
    R (v.placedSteps true) (v.placedSteps false) := by
  rw [View.placedSteps_true, View.placedSteps_false, View.met_sites, stepInteractions_eq_flatMap]
  rw [View.forks, stepForks_eq_flatMap, List.forall_mem_flatMap] at h
  exact hR.flatMap fun s hs => s.met_related hR (h s hs)

theorem met_lanePaths (f : Fork) (n : Nat) (id : String) (m : Nat) (lanes : List Lane) :
    (pathVisits f n (lanePaths id m lanes)).filterMap Visit.met? =
      lanes.flatMap (·.interactions) := by
  rw [filterMap_pathVisits_eq, innerSteps_lanePaths, List.flatMap_map]
  simp only [Lane.met_toStep]

theorem lanesRelated_perm {x : Fork × List (Path × List Step)} (h : HasLanePaths x) :
    LanesRelated List.Perm x := by
  intro hl
  obtain ⟨id, hpaths⟩ := h hl
  rw [hpaths, flatFork, met_lanePaths]
  exact (headsFirst_perm x.1.lanes).symm

def Node.isolated (n : Node) : Node := { n with inEdges := [], outEdges := [] }

def Edge.unplaced (e : Edge) : Edge := { e with id := ⟨""⟩, trail := none }

section

variable {model : Model} {options : Options} {v : View} {g : Graph}

theorem content_of_place {s : Scene} {branchAware : Bool} {l : Layered}
    (h : s.place branchAware v.steps = .ok l) : l.placed.map (·.content) =
      (v.placedSteps branchAware).filterMap fun i => (s.resolve i).toOption := by
  have hr := Scene.resolved_of_place h
  generalize v.placedSteps branchAware = steps, l.placed = placed at hr
  induction hr with
  | nil => rfl
  | cons hi _ ih => simp [hi, ih, Except.toOption]

theorem unplaced_edges {theme : Theme} {order : List Name} {nodes : List Node} {l : Layered} :
    (v.graphOf theme order nodes l).edges.map Edge.unplaced =
      (l.placed.map (·.content)).map fun r =>
        (edgeOf theme order { id := ⟨""⟩, content := r }).unplaced := by
  simp [View.graphOf, Function.comp_def, Edge.unplaced, edgeOf]

theorem isolated_nodes {theme : Theme} {order : List Name} {nodes : List Node} {l : Layered} :
    (v.graphOf theme order nodes l).nodes.map Node.isolated = nodes.map Node.isolated := by
  simp [View.graphOf, Function.comp_def, Node.isolated, Node.connected]

theorem exists_draw_iff_of_perm (h : (v.placedSteps true).Perm (v.placedSteps false)) :
    (∃ g, v.draw model { options with branchAware := false } = .ok g) ↔
      ∃ g, v.draw model { options with branchAware := true } = .ok g := by
  have hplace (selected : List Name) :
      (∃ l, (v.sceneOf model selected).place false v.steps = .ok l) ↔
        ∃ l, (v.sceneOf model selected).place true v.steps = .ok l := by
    simp only [Scene.exists_place_iff, h.mem_iff]
  simp only [View.draw_eq_ok_iff]
  constructor
  · intro h
    obtain ⟨_, selected, l, nodes, hsel, hl, hnodes, rfl⟩ := h
    obtain ⟨l', hl'⟩ := (hplace selected).mp ⟨l, hl⟩
    exact ⟨_, selected, l', nodes, hsel, hl', hnodes, rfl⟩
  · intro h
    obtain ⟨_, selected, l, nodes, hsel, hl, hnodes, rfl⟩ := h
    obtain ⟨l', hl'⟩ := (hplace selected).mpr ⟨l, hl⟩
    exact ⟨_, selected, l', nodes, hsel, hl', hnodes, rfl⟩

/-- What two drawings of a view have in common, whatever their numberings. -/
theorem draws_related {flat aware : Graph}
    (hflat : v.draw model { options with branchAware := false } = .ok flat)
    (haware : v.draw model { options with branchAware := true } = .ok aware) :
    flat.nodes.map Node.isolated = aware.nodes.map Node.isolated ∧
    ∃ edge? : Interaction → Option Edge,
      flat.edges.map Edge.unplaced = (v.placedSteps false).filterMap edge? ∧
      aware.edges.map Edge.unplaced = (v.placedSteps true).filterMap edge? := by
  obtain ⟨selected, l, nodes, hsel, hl, hnodes, rfl⟩ := View.draw_eq_ok_iff.mp hflat
  obtain ⟨selected', l', nodes', hsel', hl', hnodes', rfl⟩ := View.draw_eq_ok_iff.mp haware
  cases hsel.symm.trans hsel'
  cases hnodes.symm.trans hnodes'
  refine ⟨isolated_nodes.trans isolated_nodes.symm, fun i =>
    ((v.sceneOf model selected).resolve i).toOption.map fun r =>
      (edgeOf options.theme (v.rosterOf model selected).order
        { id := ⟨""⟩, content := r }).unplaced, ?_, ?_⟩
  · rw [unplaced_edges, content_of_place hl, List.map_filterMap]
  · rw [unplaced_edges, content_of_place hl', List.map_filterMap]

/-- Where every parallel block with lanes has the paths that its lanes stand for, both numberings
draw the view or neither does. They draw the same nodes and, places apart, the same edges; these
stand in the same order if there are no lanes. -/
theorem draws_agree (hlanes : ∀ x ∈ v.forks, x.1.lanes ≠ [] →
      ∃ id, x.2 = (flatFork id x.1.lanes).2) :
    ((∃ g, v.draw model { options with branchAware := false } = .ok g) ↔
      ∃ g, v.draw model { options with branchAware := true } = .ok g) ∧
    ∀ flat aware, v.draw model { options with branchAware := false } = .ok flat →
      v.draw model { options with branchAware := true } = .ok aware →
      flat.nodes.map Node.isolated = aware.nodes.map Node.isolated ∧
      (flat.edges.map Edge.unplaced).Perm (aware.edges.map Edge.unplaced) ∧
      ((∀ x ∈ v.forks, x.1.lanes = []) →
        flat.edges.map Edge.unplaced = aware.edges.map Edge.unplaced) := by
  have hperm : (v.placedSteps true).Perm (v.placedSteps false) :=
    View.placedSteps_related isAdditive_perm fun x hx => lanesRelated_perm (hlanes x hx)
  refine ⟨exists_draw_iff_of_perm hperm, fun flat aware hflat haware => ?_⟩
  obtain ⟨hnodes, edge?, hf, ha⟩ := draws_related hflat haware
  refine ⟨hnodes, ?_, fun hnone => ?_⟩
  · rw [hf, ha]
    exact (hperm.filterMap edge?).symm
  · have hsteps : v.placedSteps true = v.placedSteps false :=
      View.placedSteps_related isAdditive_eq fun x hx hl => absurd (hnone x hx) hl
    rw [hf, ha, hsteps]

end

theorem draws_agree_checkout :
    (∀ x ∈ checkoutView.forks, x.1.lanes ≠ [] → ∃ id, x.2 = (flatFork id x.1.lanes).2) ∧
    ∃ flat aware, checkoutView.draw checkoutModel { branchAware := false } = .ok flat ∧
      checkoutView.draw checkoutModel { branchAware := true } = .ok aware ∧
      flat.nodes.map Node.isolated = aware.nodes.map Node.isolated ∧
      (flat.edges.map Edge.unplaced).Perm (aware.edges.map Edge.unplaced) ∧
      ((∀ x ∈ checkoutView.forks, x.1.lanes = []) →
        flat.edges.map Edge.unplaced = aware.edges.map Edge.unplaced) := by
  have hlanes : ∀ x ∈ checkoutView.forks, x.1.lanes ≠ [] →
      ∃ id, x.2 = (flatFork id x.1.lanes).2 := by
    refine List.forall_mem_cons.mpr ⟨fun hl => absurd rfl hl, ?_⟩
    refine List.forall_mem_cons.mpr ⟨fun _ => ⟨"reserve", rfl⟩, ?_⟩
    exact List.forall_mem_cons.mpr ⟨fun hl => absurd rfl hl, List.forall_mem_nil _⟩
  obtain ⟨hboth, hagree⟩ := @draws_agree checkoutModel {} checkoutView hlanes
  obtain ⟨aware, haware, _⟩ := exists_draw_checkout
  obtain ⟨flat, hflat⟩ := hboth.mpr ⟨aware, haware⟩
  exact ⟨hlanes, flat, aware, hflat, haware, hagree flat aware hflat haware⟩

end StepGraph
