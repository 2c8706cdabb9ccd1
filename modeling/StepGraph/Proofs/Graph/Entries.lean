import StepGraph.Proofs.Graph.Coverage
import StepGraph.Proofs.Walk.Solitary

/-!
Which edges are drawn for which top-level entry. Both numberings give an entry the same root
numbers, and the ids that begin with the number of a block are those of its steps.
-/
set_option autoImplicit false

namespace StepGraph

def Step.placedSteps (branchAware : Bool) (s : Step) : List Interaction :=
  if branchAware then s.met else s.interactions

structure Step.IsDrawn (branchAware : Bool) (root : Nat) (s : Step) (run : List Edge) : Prop where
  draws : List.Forall₂ (fun i e => e.Draws i) (s.placedSteps branchAware) run
  ids : s.HasIds root (run.map (·.id))

theorem Step.content_numbers (branchAware : Bool) (root : Nat) (s : Step) :
    (s.numbers branchAware root).map (·.content) = s.placedSteps branchAware := by
  cases branchAware with
  | false => exact s.content_flatNumbers root
  | true => exact s.content_placedAlone root

theorem Step.hasIds_numbers (branchAware : Bool) (root : Nat) (s : Step) :
    s.HasIds root ((s.numbers branchAware root).map (·.id)) := by
  cases branchAware with
  | false => exact s.id_flatNumbers root ▸ s.hasIds_flatIds root
  | true => exact s.hasIds_placedAlone root

structure Edge.DrawsAt (e : Edge) (p : Placed Interaction) : Prop where
  draws : e.Draws p.content
  id : p.id = e.id
  trail : p.trail = e.trail

theorem ids_of_drawsAt {ps : List (Placed Interaction)} {es : List Edge}
    (h : List.Forall₂ (fun p e => e.DrawsAt p) ps es) : ps.map (·.id) = es.map (·.id) :=
  map_eq_map_of_forall₂ h fun _ _ he => he.id

theorem Step.isDrawn_of_drawsAt {branchAware : Bool} {root : Nat} {s : Step} {run : List Edge}
    (h : List.Forall₂ (fun p e => e.DrawsAt p) (s.numbers branchAware root) run) :
    s.IsDrawn branchAware root run where
  draws := by
    rw [← s.content_numbers branchAware root, List.forall₂_map_left_iff]
    exact h.imp fun _ _ he => he.draws
  ids := ids_of_drawsAt h ▸ s.hasIds_numbers branchAware root

theorem drawsAt_edgeOf {s : Scene} {p : Placed Interaction} {q : Placed Resolved}
    (h : p.ResolvesTo s q) (theme : Theme) (order : List Name) :
    (edgeOf theme order q).DrawsAt p where
  draws := draws_of_resolve h.2.2 theme order
  id := h.1
  trail := h.2.1

section

variable {model : Model} {options : Options} {v : View} {g : Graph}

theorem drawsAt_of_draw (h : v.draw model options = .ok g) :
    List.Forall₂ (fun p e => e.DrawsAt p)
      (v.entries.flatMap fun x => x.2.numbers options.branchAware x.1) g.edges := by
  obtain ⟨selected, l, nodes, _, hl, _, rfl⟩ := View.draw_eq_ok_iff.mp h
  rw [View.graphOf, List.forall₂_map_right_iff]
  exact (Scene.resolves_of_place hl).imp fun p q hpq => drawsAt_edgeOf hpq _ _

theorem exists_numbered_runs_of_draw (h : v.draw model options = .ok g) :
    ∃ runs, runs.flatten = g.edges ∧ List.Forall₂ (fun x run =>
      List.Forall₂ (fun p e => e.DrawsAt p) (x.2.numbers options.branchAware x.1) run)
      v.entries runs :=
  exists_runs _ (drawsAt_of_draw h)

theorem exists_runs_of_draw (h : v.draw model options = .ok g) :
    ∃ runs, runs.flatten = g.edges ∧
      List.Forall₂ (fun x run => x.2.IsDrawn options.branchAware x.1 run) v.entries runs := by
  obtain ⟨runs, hflatten, hruns⟩ := exists_numbered_runs_of_draw h
  exact ⟨runs, hflatten, hruns.imp fun _ _ hrun => Step.isDrawn_of_drawsAt hrun⟩

theorem exists_flat_runs_of_draw (h : v.draw model options = .ok g)
    (hflat : options.branchAware = false) : ∃ runs, runs.flatten = g.edges ∧
      List.Forall₂ (fun x run => List.Forall₂ (fun i e => e.Draws i) x.2.interactions run ∧
        run.map (·.id) = x.2.flatIds x.1) v.entries runs := by
  obtain ⟨runs, hflatten, hruns⟩ := exists_numbered_runs_of_draw h
  rw [hflat] at hruns
  refine ⟨runs, hflatten, hruns.imp fun x run hrun => ⟨?_, ?_⟩⟩
  · rw [← x.2.content_flatNumbers x.1, List.forall₂_map_left_iff]
    exact hrun.imp fun p e he => he.draws
  · rw [← ids_of_drawsAt hrun]
    exact x.2.id_flatNumbers x.1

theorem ids_of_flat_draw (h : v.draw model options = .ok g)
    (hflat : options.branchAware = false) : g.edges.map (·.id) = v.flatIds := by
  have hids := ids_of_drawsAt (drawsAt_of_draw h)
  rw [hflat, List.map_flatMap] at hids
  exact hids.symm.trans (List.flatMap_congr fun x _ => x.2.id_flatNumbers x.1)

/-- A flat numbering draws one edge for each step that the entries stand for, in order. Every entry
has the next root numbers, with none left out, and read as numbers the ids stand in lexicographic
order. -/
theorem flat_edges_of_draw (h : v.draw model options = .ok g)
    (hflat : options.branchAware = false) :
    List.Forall₂ (fun i e => e.Draws i) (stepInteractions v.steps) g.edges ∧
    (∃ runs, runs.flatten = g.edges ∧
      List.Forall₂ (fun x run => List.Forall₂ (fun i e => e.Draws i) x.2.interactions run ∧
        run.map (·.id) = x.2.flatIds x.1) v.entries runs) ∧
    (∀ root, (∃ e ∈ g.edges, e.id.numbers.head? = some root) ↔
      1 ≤ root ∧ root ≤ (v.steps.map Step.roots).sum) ∧
    (g.edges.map (·.id.numbers)).Pairwise (· < ·) := by
  have hids := ids_of_flat_draw h hflat
  refine ⟨?_, exists_flat_runs_of_draw h hflat, fun root => ?_, ?_⟩
  · obtain ⟨selected, l, nodes, _, hl, _, rfl⟩ := View.draw_eq_ok_iff.mp h
    rw [hflat] at hl
    exact draws_of_resolved (Scene.resolved_of_place hl) _ _
  · rw [← v.exists_root_iff root, ← hids]
    simp
  · have hsorted := v.pairwise_flatIds
    rwa [← hids, List.map_map] at hsorted

end

theorem exists_flat_draw_checkout :
    ∃ g, checkoutView.draw checkoutModel {} = .ok g ∧ g.edgeIds =
      ["step-01", "step-02.01", "step-02.02", "step-02.03", "step-02.04", "step-02.05",
       "step-02.06"] :=
  exists_ok_of_map_toOption (by decide +kernel)

theorem flat_edges_of_draw_checkout :
    ∃ g, checkoutView.draw checkoutModel {} = .ok g ∧
      ({} : Options).branchAware = false ∧
      List.Forall₂ (fun i e => e.Draws i) (stepInteractions checkoutView.steps) g.edges ∧
      (∃ runs, runs.flatten = g.edges ∧
        List.Forall₂ (fun x run => List.Forall₂ (fun i e => e.Draws i) x.2.interactions run ∧
          run.map (·.id) = x.2.flatIds x.1) checkoutView.entries runs) ∧
      (∀ root, (∃ e ∈ g.edges, e.id.numbers.head? = some root) ↔
        1 ≤ root ∧ root ≤ (checkoutView.steps.map Step.roots).sum) ∧
      (g.edges.map (·.id.numbers)).Pairwise (· < ·) := by
  obtain ⟨g, hg, _⟩ := exists_flat_draw_checkout
  exact ⟨g, hg, rfl, flat_edges_of_draw hg rfl⟩

/-- In both numberings an entry has the same root numbers. The ids that begin with the number of a
block are those of the edges drawn for it, and none reads as one of an alternate block. -/
theorem block_edges_of_draw {model : Model} {options : Options} {v : View} {g : Graph}
    (h : v.draw model options = .ok g) :
    ∃ runs, runs.flatten = g.edges ∧ List.Forall₂ (fun x run =>
      x.2.IsDrawn options.branchAware x.1 run ∧ ∀ e ∈ run, ∀ block,
        (EdgeId.isInParallel e.id.text block = true ↔
          (∃ f paths, x.2 = .fork f paths) ∧ x.1 = block) ∧
        EdgeId.isInAlternate e.id.text block = false) v.entries runs := by
  obtain ⟨runs, hflatten, hruns⟩ := exists_runs_of_draw h
  refine ⟨runs, hflatten, hruns.imp fun x run hrun => ⟨hrun, fun e he block => ?_⟩⟩
  have hid : e.id ∈ run.map (·.id) := List.mem_map_of_mem he
  exact ⟨hrun.ids.isInParallel_iff hid block, hrun.ids.isInAlternate_eq_false hid block⟩

theorem block_edges_of_draw_checkout :
    ∃ g, checkoutView.draw checkoutModel { branchAware := true } = .ok g ∧
      ∃ runs, runs.flatten = g.edges ∧ List.Forall₂ (fun x run =>
        x.2.IsDrawn true x.1 run ∧ ∀ e ∈ run, ∀ block,
          (EdgeId.isInParallel e.id.text block = true ↔
            (∃ f paths, x.2 = .fork f paths) ∧ x.1 = block) ∧
          EdgeId.isInAlternate e.id.text block = false) checkoutView.entries runs := by
  obtain ⟨g, hg, _⟩ := exists_draw_checkout
  exact ⟨g, hg, block_edges_of_draw hg⟩

end StepGraph
