import StepGraph.Proofs.Outcome
import StepGraph.Proofs.Roster
import StepGraph.Proofs.Walk.Placing

/-!
What a drawing consists of. The ends of every placed step are in the roster, so the edges of a view
can always be drawn once its steps are placed, and a graph is made of the roster, the nodes and the
placed steps alone.
-/
set_option autoImplicit false

namespace StepGraph

theorem idxOf?_of_mem {names : List Name} {n : Name} (h : n ∈ names) :
    names.idxOf? n = some (names.idxOf n) := by
  obtain ⟨k, hk⟩ := Option.isSome_iff_exists.mp (List.isSome_idxOf?.mpr h)
  rw [List.idxOf_eq_getD_idxOf?, hk, Option.getD_some]

theorem Scene.column_eq_ok_iff {s : Scene} {i : Interaction} {e : Endpoint} {n : Nat} :
    s.column i e = .ok n ↔ i.endpoint e ∈ s.order ∧ s.order.idxOf (i.endpoint e) = n := by
  rw [column]
  by_cases h : i.endpoint e ∈ s.order
  · simp [idxOf?_of_mem h, h]
  · simp [List.idxOf?_eq_none_iff.mpr h, h]

theorem Scene.resolve_eq_ok_iff {s : Scene} {i : Interaction} {r : Resolved} :
    s.resolve i = .ok r ↔ i.source ∈ s.order ∧ i.target ∈ s.order ∧
      s.fill i (s.order.idxOf i.source) (s.order.idxOf i.target) = r := by
  simp only [resolve, bind_eq_ok_iff, column_eq_ok_iff, pure_eq_ok_iff, Interaction.endpoint]
  constructor
  · intro h
    obtain ⟨_, ⟨hs, rfl⟩, _, ⟨ht, rfl⟩, hr⟩ := h
    exact ⟨hs, ht, hr⟩
  · intro h
    obtain ⟨hs, ht, hr⟩ := h
    exact ⟨_, ⟨hs, rfl⟩, _, ⟨ht, rfl⟩, hr⟩

theorem Scene.ends_of_resolve {s : Scene} {i : Interaction} {r : Resolved}
    (h : s.resolve i = .ok r) : r.source = i.source ∧ r.target = i.target ∧ r.origin = i.origin ∧
      i.source ∈ s.order ∧ i.target ∈ s.order := by
  obtain ⟨hs, ht, rfl⟩ := resolve_eq_ok_iff.mp h
  exact ⟨rfl, rfl, rfl, hs, ht⟩

theorem Step.content_flatNumbers (root : Nat) (s : Step) :
    (s.flatNumbers root).map (·.content) = s.interactions := by
  cases s with
  | single i => rfl
  | chain c => simp [Step.flatNumbers, Step.interactions, Function.comp_def]
  | fork f paths => simp [Step.flatNumbers, Function.comp_def]

theorem content_flatNumbers (root : Nat) (steps : List Step) :
    (flatNumbers root steps).map (·.content) = stepInteractions steps := by
  induction steps generalizing root with
  | nil => rfl
  | cons s rest ih =>
    rw [flatNumbers, List.map_append, s.content_flatNumbers, ih, stepInteractions]

theorem Placings.resolved {α : Type} {resolve : Interaction → Except Fault α}
    {placed : List (Placed α)} {sites : List Site} (h : Placings resolve placed sites) :
    List.Forall₂ (fun i p => resolve i = .ok p.content) (sites.map (·.step)) placed := by
  rw [List.forall₂_map_left_iff]
  exact h.forall₂ fun _ _ _ _ hp => hp.resolved

/-- The steps that are placed, in order: what the entries stand for, or what the walk meets. -/
def View.placedSteps (v : View) (branchAware : Bool) : List Interaction :=
  if branchAware then v.sites.map (·.step) else stepInteractions v.steps

@[simp] theorem View.placedSteps_true (v : View) :
    v.placedSteps true = v.sites.map (·.step) := rfl

@[simp] theorem View.placedSteps_false (v : View) :
    v.placedSteps false = stepInteractions v.steps := rfl

def Placed.ResolvesTo (s : Scene) (p : Placed Interaction) (q : Placed Resolved) : Prop :=
  p.id = q.id ∧ p.trail = q.trail ∧ s.resolve p.content = .ok q.content

namespace Scene

variable {s : Scene} {v : View} {branchAware : Bool} {l : Layered}

theorem placeFlat_eq_ok_iff {steps : List Step} :
    s.placeFlat steps = .ok l ↔
      l.forks = [] ∧ List.Forall₂ (·.ResolvesTo s) (flatNumbers 1 steps) l.placed := by
  have hone : ∀ (p : Placed Interaction) (q : Placed Resolved), p.ResolvesTo s q ↔
      ∃ r, s.resolve p.content = .ok r ∧ { id := p.id, trail := p.trail, content := r } = q := by
    rintro p ⟨id, trail, r⟩
    simp [Placed.ResolvesTo, and_comm, and_assoc]
  simp only [placeFlat, bind_eq_ok_iff, pure_eq_ok_iff, mapM_eq_ok_iff, ← hone]
  obtain ⟨placed, forks⟩ := l
  simp [and_comm, eq_comm (a := [])]

theorem walk_finish_eq_ok_iff {steps : List Step} :
    (s.walk steps).finish = .ok l ↔ (s.walk steps).failure = none ∧ l =
      { placed := (s.walk steps).placed, forks := (s.walk steps).journal.summary?.getD [] } := by
  rw [Walk.finish]
  cases (s.walk steps).failure <;> simp [eq_comm]

theorem placings_of_place (h : s.place true v.steps = .ok l) :
    Placings s.resolve l.placed v.sites := by
  obtain ⟨hok, rfl⟩ := walk_finish_eq_ok_iff.mp h
  exact s.placings_walk v hok

theorem resolved_of_place (h : s.place branchAware v.steps = .ok l) :
    List.Forall₂ (fun i p => s.resolve i = .ok p.content) (v.placedSteps branchAware) l.placed := by
  cases branchAware with
  | true => exact (placings_of_place h).resolved
  | false =>
    rw [View.placedSteps_false, ← content_flatNumbers 1, List.forall₂_map_left_iff]
    exact (placeFlat_eq_ok_iff.mp h).2.imp fun p q hpq => hpq.2.2

theorem faultOf_place (s : Scene) (v : View) (branchAware : Bool) :
    faultOf (s.place branchAware v.steps) = firstFault s.resolve (v.placedSteps branchAware) := by
  cases branchAware with
  | true =>
    rw [View.placedSteps_true, ← failure_walk, place, if_pos rfl, Walk.finish]
    cases (s.walk v.steps).failure <;> rfl
  | false =>
    rw [View.placedSteps_false, ← content_flatNumbers 1, firstFault, List.findSome?_map]
    change faultOf (s.placeFlat v.steps) = _
    rw [placeFlat, faultOf_bind_pure, faultOf_mapM]
    simp only [faultOf_bind_pure, Function.comp_def]

theorem exists_place_iff : (∃ l, s.place branchAware v.steps = .ok l) ↔
    ∀ i ∈ v.placedSteps branchAware, ∃ r, s.resolve i = .ok r := by
  rw [← faultOf_eq_none_iff, faultOf_place, firstFault_eq_none_iff]

theorem ends_mem_of_place (h : s.place branchAware v.steps = .ok l) {p : Placed Resolved}
    (hp : p ∈ l.placed) : p.content.source ∈ s.order ∧ p.content.target ∈ s.order := by
  obtain ⟨i, _, hi⟩ := exists_of_mem_right (resolved_of_place h) hp
  obtain ⟨hs, ht, _, hsm, htm⟩ := ends_of_resolve hi
  rw [hs, ht]
  exact ⟨hsm, htm⟩

end Scene

theorem edgesOf_eq_ok {theme : Theme} {order : List Name} {placed : List (Placed Resolved)}
    (h : ∀ p ∈ placed, p.content.source ∈ order ∧ p.content.target ∈ order) :
    edgesOf theme order placed = .ok (placed.map (edgeOf theme order)) := by
  rw [edgesOf, mapM_eq_ok_iff, List.forall₂_map_right_iff, List.forall₂_same]
  intro p hp
  simp [h p hp]

def View.rosterOf (model : Model) (v : View) (selected : List Name) : Roster :=
  Roster.of selected (referencedElements model v.steps)

def View.sceneOf (model : Model) (v : View) (selected : List Name) : Scene :=
  { model, viewId := v.id, order := (v.rosterOf model selected).order }

def View.graphOf (theme : Theme) (v : View) (order : List Name) (nodes : List Node) (l : Layered) :
    Graph where
  id := v.id
  title := v.title
  description := v.description
  tags := v.tags
  layout := v.layout
  variant := v.variant
  nodes := nodes.map (·.connected (l.placed.map (edgeOf theme order)))
  edges := l.placed.map (edgeOf theme order)
  forks := if l.forks.isEmpty then none else some l.forks

theorem ids_graphOf (theme : Theme) (v : View) (order : List Name) (nodes : List Node)
    (l : Layered) : (v.graphOf theme order nodes l).nodes.map (·.id) = nodes.map (·.id) := by
  simp [View.graphOf, Node.connected, Function.comp_def]

theorem enrols_rosterOf {model : Model} {v : View} {selected : List Name}
    (hsel : selectedElements model v.rules = .ok selected) :
    model.Enrols (v.rosterOf model selected).order :=
  Roster.enrols_order (enrols_selectedElements hsel) fun _ hn => (mem_referencedElements.mp hn).2

theorem View.draw_eq_ok_iff {model : Model} {options : Options} {v : View} {g : Graph} :
    v.draw model options = .ok g ↔ ∃ selected l nodes,
      selectedElements model v.rules = .ok selected ∧
      (v.sceneOf model selected).place options.branchAware v.steps = .ok l ∧
      nodesOf model (v.rosterOf model selected) v.rules options.theme = .ok nodes ∧
      v.graphOf options.theme (v.rosterOf model selected).order nodes l = g := by
  simp only [draw, mapError_eq_ok_iff, drawPlain, bind_eq_ok_iff, pure_eq_ok_iff]
  constructor
  · intro h
    obtain ⟨selected, hsel, l, hl, nodes, hnodes, edges, hedges, rfl⟩ := h
    refine ⟨selected, l, nodes, hsel, hl, hnodes, ?_⟩
    rw [edgesOf_eq_ok fun p hp => Scene.ends_mem_of_place hl hp] at hedges
    cases hedges
    rfl
  · intro h
    obtain ⟨selected, l, nodes, hsel, hl, hnodes, rfl⟩ := h
    exact ⟨selected, hsel, l, hl, nodes, hnodes, _,
      edgesOf_eq_ok fun p hp => Scene.ends_mem_of_place hl hp, rfl⟩

end StepGraph
