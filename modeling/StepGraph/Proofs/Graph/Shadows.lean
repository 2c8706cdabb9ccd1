import StepGraph.Proofs.Graph.Faults
import StepGraph.Proofs.Walk.Shadows

/-!
What the shadows of a view change where its steps are numbered by a walk. The elements that a flat
parallel block refers to are met lane by lane on the walk but heads first in the shadow; so a shadow
may change the order of the nodes and with it which edges run backward, and it changes nothing else.
-/
set_option autoImplicit false

namespace StepGraph

section

variable {α β : Type}

def Placed.map (f : α → β) (p : Placed α) : Placed β where
  id := p.id
  trail := p.trail
  content := f p.content

namespace Walk

def map (f : α → β) (w : Walk α) : Walk β where
  journal := w.journal
  placed := w.placed.map (·.map f)
  failure := w.failure

variable (f : α → β) (resolve : Interaction → Except Fault α)

theorem place_map (root : Nat) (a : α) (w : Walk α) :
    (w.place root a).map f = (w.map f).place root (f a) := by
  have htaken : (w.map f).isTaken = w.isTaken := by
    funext id
    simp [isTaken, map, Placed.map, List.any_map, Function.comp_def]
  have hp : (w.map f).position root = w.position root := by
    rw [position, position, htaken]
    simp [map]
  simp only [place, hp]
  simp [map, Placed.map]

theorem visit_map (w : Walk α) (v : Nat × Visit) :
    (w.visit resolve v).map f = (w.map f).visit (fun i => (resolve i).map f) v := by
  obtain ⟨root, v⟩ := v
  cases v with
  | enter fork path index => rfl
  | meet i =>
    have hf : (w.map f).failure = w.failure := rfl
    simp only [visit, meet, hf]
    cases hw : w.failure with
    | some fault => rfl
    | none =>
      cases resolve i with
      | error fault => rfl
      | ok a => exact w.place_map f root a
  | leave => rfl

theorem run_map (visits : List (Nat × Visit)) (w : Walk α) :
    (run resolve visits w).map f = run (fun i => (resolve i).map f) visits (w.map f) := by
  induction visits generalizing w with
  | nil => rfl
  | cons v visits ih => rw [run_cons, ih, visit_map, run_cons]

end Walk

end

def Resolved.undirected (r : Resolved) : Resolved := { r with isBackward := false }

def Layered.undirected (l : Layered) : Layered :=
  { l with placed := l.placed.map (·.map Resolved.undirected) }

theorem Walk.finish_undirected (w : Walk Resolved) :
    w.finish.map Layered.undirected = (w.map Resolved.undirected).finish := by
  have hf : (w.map Resolved.undirected).failure = w.failure := rfl
  rw [finish, finish, hf]
  cases w.failure <;> rfl

theorem Walk.finish_unshadowed (w : Walk Resolved) : w.unshadowed.finish = w.finish := by
  simp only [finish, unshadowed, Journal.summary?_unshadowed]

namespace Scene

variable {s : Scene} {order : List Name} {v : View}

def reordered (s : Scene) (order : List Name) : Scene := { s with order }

theorem column_reordered (h : s.order.Perm order) (i : Interaction) (e : Endpoint) :
    ((s.reordered order).column i e).map (fun _ => ()) = (s.column i e).map fun _ => () := by
  have hsome : (order.idxOf? (i.endpoint e)).isSome = (s.order.idxOf? (i.endpoint e)).isSome := by
    rw [Bool.eq_iff_iff, List.isSome_idxOf?, List.isSome_idxOf?, h.mem_iff]
  rw [column, column, reordered]
  cases hs : s.order.idxOf? (i.endpoint e) <;> cases ho : order.idxOf? (i.endpoint e)
  · rfl
  · simp [hs, ho] at hsome
  · simp [hs, ho] at hsome
  · rfl

/-- Apart from its direction a step takes nothing from the places of its ends. -/
theorem map_undirected_resolve (s : Scene) (i : Interaction) :
    (s.resolve i).map Resolved.undirected = do
      (s.column i .source).map fun _ => ()
      (s.column i .target).map fun _ => ()
      return (s.fill i 0 0).undirected := by
  rw [resolve]
  cases s.column i .source <;> cases s.column i .target <;> rfl

theorem resolve_reordered (h : s.order.Perm order) (i : Interaction) :
    ((s.reordered order).resolve i).map Resolved.undirected =
      (s.resolve i).map Resolved.undirected := by
  rw [map_undirected_resolve, map_undirected_resolve, column_reordered h, column_reordered h]
  rfl

theorem place_reordered (h : s.order.Perm order) (steps : List Step) :
    ((s.reordered order).place true steps).map Layered.undirected =
      (s.place true steps).map Layered.undirected := by
  have hresolve := funext (resolve_reordered h)
  rw [place, place, if_pos rfl, if_pos rfl, Walk.finish_undirected, Walk.finish_undirected, walk,
    walk, Walk.run_map, Walk.run_map, hresolve]

theorem walk_unshadowed (s : Scene) (hlanes : ∀ x ∈ v.forks, HasLanePaths x) :
    s.walk v.unshadowed.steps = (s.walk v.steps).unshadowed := by
  rw [View.forks, stepForks_eq_flatMap, List.forall_mem_flatMap] at hlanes
  rw [walk, View.unshadowed, rootVisits_unshadowed 1 hlanes]
  exact Walk.run_unshadowed s.resolve _ {}

theorem place_unshadowed (s : Scene) (hlanes : ∀ x ∈ v.forks, HasLanePaths x) :
    s.place true v.unshadowed.steps = s.place true v.steps := by
  rw [place, place, if_pos rfl, if_pos rfl, s.walk_unshadowed hlanes, Walk.finish_unshadowed]

end Scene

def Edge.undirected (e : Edge) : Edge := { e with direction := .forward }

theorem edgeParent_perm {order others : List Name} (h : order.Perm others) :
    edgeParent order = edgeParent others := by
  have hclimb : climbTo order = climbTo others := by
    funext n
    rw [climbTo, climbTo, contains_perm h]
  funext source target
  rw [edgeParent, edgeParent, hclimb]

theorem undirected_edgesOf {order others : List Name} (h : order.Perm others) (theme : Theme)
    {l k : Layered} (hl : l.undirected = k.undirected) :
    (l.placed.map (edgeOf theme order)).map Edge.undirected =
      (k.placed.map (edgeOf theme others)).map Edge.undirected := by
  have hone (p : Placed Resolved) : (edgeOf theme order p).undirected =
      (edgeOf theme others (p.map Resolved.undirected)).undirected := by
    simp only [edgeOf, edgeParent_perm h]
    rfl
  calc (l.placed.map (edgeOf theme order)).map Edge.undirected
      = l.undirected.placed.map fun p => (edgeOf theme others p).undirected := by
        simp [Layered.undirected, hone]
    _ = k.undirected.placed.map fun p => (edgeOf theme others p).undirected := by rw [hl]
    _ = (k.placed.map (edgeOf theme others)).map Edge.undirected := by
        rw [Layered.undirected, List.map_map, List.map_map]
        rfl

/-- The node does not tell which way an edge between others runs. -/
theorem Node.connected_undirected (n : Node) (edges : List Edge) :
    n.connected (edges.map Edge.undirected) = n.connected edges := by
  simp only [connected, List.filter_map, List.map_map]
  rfl

theorem Node.Agrees.connected {n m : Node} (h : n.Agrees m) (edges : List Edge) :
    (n.connected edges).Agrees (m.connected edges) where
  children := h.children
  rest := by
    rw [h.rest]
    rfl

structure Graph.Agrees (g h : Graph) : Prop where
  ids : (g.nodes.map (·.id)).Perm (h.nodes.map (·.id))
  nodes : ∀ n ∈ g.nodes, ∀ m ∈ h.nodes, n.id = m.id → n.Agrees m
  edges : g.edges.map Edge.undirected = h.edges.map Edge.undirected
  rest : h = { g with nodes := h.nodes, edges := h.edges }

section

variable {model : Model} {options : Options} {v : View}

theorem mem_referencedElements_unshadowed (hlanes : ∀ x ∈ v.forks, HasLanePaths x) {n : Name} :
    n ∈ referencedElements model v.steps ↔ n ∈ referencedElements model v.unshadowed.steps := by
  have hperm := interactions_unshadowed isAdditive_perm hlanes fun x _ => headsFirst_perm x.1.lanes
  simp only [mem_referencedElements, hperm.mem_iff]

theorem order_unshadowed (hlanes : ∀ x ∈ v.forks, HasLanePaths x) {selected : List Name}
    (hsel : selectedElements model v.rules = .ok selected) :
    (v.rosterOf model selected).order.Perm (v.unshadowed.rosterOf model selected).order :=
  Roster.order_perm (enrols_selectedElements hsel).nodup fun _ =>
    mem_referencedElements_unshadowed hlanes

theorem sceneOf_unshadowed (selected : List Name) : v.unshadowed.sceneOf model selected =
    (v.sceneOf model selected).reordered (v.unshadowed.rosterOf model selected).order := rfl

theorem place_of_unshadowed (hlanes : ∀ x ∈ v.forks, HasLanePaths x) {selected : List Name}
    (hsel : selectedElements model v.rules = .ok selected) :
    ((v.unshadowed.sceneOf model selected).place true v.unshadowed.steps).map Layered.undirected =
      ((v.sceneOf model selected).place true v.steps).map Layered.undirected := by
  rw [Scene.place_unshadowed _ hlanes, sceneOf_unshadowed]
  exact Scene.place_reordered (order_unshadowed hlanes hsel) v.steps

theorem faultOf_draw_unshadowed (haware : options.branchAware = true)
    (hlanes : ∀ x ∈ v.forks, HasLanePaths x) :
    faultOf (v.unshadowed.draw model options) = faultOf (v.draw model options) := by
  rw [View.draw, View.draw, faultOf_mapError, faultOf_mapError]
  refine congrArg _ ?_
  cases hsel : selectedElements model v.rules with
  | error fault =>
    have hother : selectedElements model v.unshadowed.rules = .error fault := hsel
    rw [View.drawPlain_eq_error hsel, View.drawPlain_eq_error hother]
  | ok selected =>
    have hother : selectedElements model v.unshadowed.rules = .ok selected := hsel
    have hplace := congrArg faultOf (place_of_unshadowed hlanes hsel)
    rw [faultOf_map, faultOf_map] at hplace
    rw [View.faultOf_drawPlain hother, View.faultOf_drawPlain hsel, haware,
      ← Scene.faultOf_place, ← Scene.faultOf_place, hplace]
    rfl

/-- With the same roster there is nothing left that a shadow could change. -/
theorem draw_unshadowed_of_roster (haware : options.branchAware = true)
    (hlanes : ∀ x ∈ v.forks, HasLanePaths x)
    (h : ∀ selected, selectedElements model v.rules = .ok selected →
      v.unshadowed.rosterOf model selected = v.rosterOf model selected) :
    v.unshadowed.draw model options = v.draw model options := by
  refine eq_of_faultOf_eq (faultOf_draw_unshadowed haware hlanes) fun g hg => ?_
  obtain ⟨selected, l, nodes, hsel, hl, hnodes, hgraph⟩ := View.draw_eq_ok_iff.mp hg
  have hroster := h selected hsel
  have hscene : v.unshadowed.sceneOf model selected = v.sceneOf model selected := by
    rw [sceneOf_unshadowed, hroster]
    rfl
  rw [haware, hscene, Scene.place_unshadowed _ hlanes, ← haware] at hl
  rw [hroster] at hnodes hgraph
  exact View.draw_eq_ok_iff.mpr ⟨selected, l, nodes, hsel, hl, hnodes, hgraph⟩

/-- Whatever was drawn without shadows agrees with what is drawn with them. -/
theorem agrees_of_draws (haware : options.branchAware = true)
    (hlanes : ∀ x ∈ v.forks, HasLanePaths x) {g h : Graph} (hg : v.draw model options = .ok g)
    (hh : v.unshadowed.draw model options = .ok h) : g.Agrees h := by
  obtain ⟨selected, l, nodes, hsel, hl, hnodes, rfl⟩ := View.draw_eq_ok_iff.mp hg
  obtain ⟨other, k, others, hother, hk, hothers, rfl⟩ := View.draw_eq_ok_iff.mp hh
  cases hsel.symm.trans hother
  rw [haware] at hl hk
  have horder := order_unshadowed hlanes hsel
  have hplace := place_of_unshadowed hlanes hsel
  rw [hl, hk] at hplace
  have hlayered : k.undirected = l.undirected := Except.ok.inj hplace
  have hedges := undirected_edgesOf horder options.theme hlayered.symm
  refine ⟨?_, ?_, hedges, ?_⟩
  · rw [ids_graphOf, ids_graphOf, id_nodesOf hnodes, id_nodesOf hothers]
    exact horder
  · intro n hn m hm hid
    obtain ⟨n', hn', rfl⟩ := List.mem_map.mp hn
    obtain ⟨m', hm', rfl⟩ := List.mem_map.mp hm
    have hcompounds (c : Name) := Roster.mem_compounds_perm horder (n := c)
    rw [← Node.connected_undirected, hedges, Node.connected_undirected]
    have hagree := nodesOf_agree (Roster.parentsFirst_order _ _) (Roster.parentsFirst_order _ _)
      horder hcompounds hnodes hothers
    exact (hagree n' hn' m' hm' hid).connected _
  · have hforks : k.undirected.forks = l.undirected.forks := by rw [hlayered]
    change k.forks = l.forks at hforks
    simp [View.graphOf, View.unshadowed, hforks]

theorem draw_unshadowed_of_ids (haware : options.branchAware = true)
    (hlanes : ∀ x ∈ v.forks, HasLanePaths x) {g h : Graph} (hg : v.draw model options = .ok g)
    (hh : v.unshadowed.draw model options = .ok h)
    (hids : g.nodes.map (·.id) = h.nodes.map (·.id)) :
    v.unshadowed.draw model options = v.draw model options := by
  refine draw_unshadowed_of_roster haware hlanes fun selected hsel => ?_
  obtain ⟨_, l, nodes, hchosen, _, hnodes, rfl⟩ := View.draw_eq_ok_iff.mp hg
  obtain ⟨_, k, others, hother, _, hothers, rfl⟩ := View.draw_eq_ok_iff.mp hh
  cases hsel.symm.trans hchosen
  cases hsel.symm.trans hother
  rw [ids_graphOf, ids_graphOf, id_nodesOf hnodes, id_nodesOf hothers] at hids
  exact Roster.of_eq_of_order_eq hids.symm

/-- Where every parallel block with lanes has the paths that its lanes stand for, a view is drawn
with its shadows if and only if it is drawn without them, and fails with the same fault. Both graphs
agree but for the order of nodes and the directions of edges, and if the nodes stand in one order
they are equal; so they are where lanes read heads first are lanes read one by one. -/
theorem draw_unshadowed (haware : options.branchAware = true)
    (hlanes : ∀ x ∈ v.forks, x.1.lanes ≠ [] → ∃ id, x.2 = (flatFork id x.1.lanes).2) :
    faultOf (v.unshadowed.draw model options) = faultOf (v.draw model options) ∧
    (∀ g h, v.draw model options = .ok g → v.unshadowed.draw model options = .ok h →
      g.Agrees h ∧ (g.nodes.map (·.id) = h.nodes.map (·.id) → g = h)) ∧
    ((∀ x ∈ v.forks, headsFirst x.1.lanes = x.1.lanes.flatMap (·.interactions)) →
      v.unshadowed.draw model options = v.draw model options) := by
  refine ⟨faultOf_draw_unshadowed haware hlanes, fun g h hg hh => ⟨?_, fun hids => ?_⟩,
    fun hheads => ?_⟩
  · exact agrees_of_draws haware hlanes hg hh
  · have hdraws := draw_unshadowed_of_ids haware hlanes hg hh hids
    rw [hg, hh] at hdraws
    exact (Except.ok.inj hdraws).symm
  · refine draw_unshadowed_of_roster haware hlanes fun selected _ => ?_
    have hsteps := interactions_unshadowed isAdditive_eq hlanes hheads
    rw [View.rosterOf, View.rosterOf, referencedElements, ← hsteps, referencedElements]

end

/-- Heads first, `d` comes before `c`; lane by lane it comes after. -/
def crossedView : View where
  id := "crossed"
  steps :=
    let par := flatFork "par"
      [.chain { members := [checkoutCall "a" "b", checkoutCall "b" "c"] },
       .single (checkoutCall "d" "c")]
    [.fork par.1 par.2]

def crossedModel : Model where
  elements := ["a", "b", "c", "d"].map fun n => { id := ⟨n⟩ }

theorem hasLanePaths_crossed : ∀ x ∈ crossedView.forks, HasLanePaths x :=
  List.forall_mem_cons.mpr ⟨fun _ => ⟨"par", rfl⟩, List.forall_mem_nil _⟩

theorem draw_unshadowed_crossed :
    ({ branchAware := true } : Options).branchAware = true ∧
    (∀ x ∈ crossedView.forks, x.1.lanes ≠ [] → ∃ id, x.2 = (flatFork id x.1.lanes).2) ∧
    faultOf (crossedView.unshadowed.draw crossedModel { branchAware := true }) =
      faultOf (crossedView.draw crossedModel { branchAware := true }) ∧
    (∀ g h, crossedView.draw crossedModel { branchAware := true } = .ok g →
      crossedView.unshadowed.draw crossedModel { branchAware := true } = .ok h →
      g.Agrees h ∧ (g.nodes.map (·.id) = h.nodes.map (·.id) → g = h)) ∧
    ((∀ x ∈ crossedView.forks, headsFirst x.1.lanes = x.1.lanes.flatMap (·.interactions)) →
      crossedView.unshadowed.draw crossedModel { branchAware := true } =
        crossedView.draw crossedModel { branchAware := true }) :=
  ⟨rfl, hasLanePaths_crossed, draw_unshadowed rfl hasLanePaths_crossed⟩

/-- With its shadow the view ends in an edge that runs forward, without it in one that runs back. -/
theorem shadow_turns_edge :
    (∀ x ∈ crossedView.forks, x.1.lanes ≠ [] → ∃ id, x.2 = (flatFork id x.1.lanes).2) ∧
    ∃ g h, crossedView.draw crossedModel { branchAware := true } = .ok g ∧
      crossedView.unshadowed.draw crossedModel { branchAware := true } = .ok h ∧ g ≠ h ∧
      g.nodes.map (·.id.text) = ["a", "b", "d", "c"] ∧
      h.nodes.map (·.id.text) = ["a", "b", "c", "d"] ∧
      g.edges.map (·.direction) = [.forward, .forward, .forward] ∧
      h.edges.map (·.direction) = [.forward, .forward, .back] := by
  obtain ⟨g, hg, hshadowed⟩ : ∃ g, crossedView.draw crossedModel { branchAware := true } = .ok g ∧
      (g.nodes.map (·.id.text), g.edges.map (·.direction)) =
        (["a", "b", "d", "c"], [.forward, .forward, .forward]) :=
    exists_ok_of_map_toOption (by decide +kernel)
  obtain ⟨h, hh, hplain⟩ :
      ∃ h, crossedView.unshadowed.draw crossedModel { branchAware := true } = .ok h ∧
      (h.nodes.map (·.id.text), h.edges.map (·.direction)) =
        (["a", "b", "c", "d"], [.forward, .forward, .back]) :=
    exists_ok_of_map_toOption (by decide +kernel)
  obtain ⟨hgn, hge⟩ := Prod.mk.inj hshadowed
  obtain ⟨hhn, hhe⟩ := Prod.mk.inj hplain
  refine ⟨hasLanePaths_crossed, g, h, hg, hh, fun heq => ?_, hgn, hhn, hge, hhe⟩
  rw [heq, hhe] at hge
  exact absurd hge (by decide)

end StepGraph
