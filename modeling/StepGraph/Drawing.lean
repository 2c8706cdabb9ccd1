import StepGraph.Graph.Edges
import StepGraph.Graph.Nodes

/-!
Declared views drawn as graphs. `View.draw` gives the graph of a view or its first fault.
-/
set_option autoImplicit false

namespace StepGraph

structure Options where
  /-- Steps are numbered by a walk through the forks, not flatly. -/
  branchAware : Bool := false
  theme : Theme := .standard

structure Layered where
  placed : List (Placed Resolved)
  forks : List ForkSummary := []

def Scene.placeFlat (s : Scene) (steps : List Step) : Except Fault Layered := do
  let placed ← (flatNumbers 1 steps).mapM fun p => do
    return { id := p.id, trail := p.trail, content := ← s.resolve p.content }
  return { placed }

def Scene.walk (s : Scene) (steps : List Step) : Walk Resolved :=
  Walk.run s.resolve (rootVisits 1 steps) {}

def Walk.finish (w : Walk Resolved) : Except Fault Layered :=
  match w.failure with
  | some fault => .error fault
  | none => .ok { placed := w.placed, forks := w.journal.summary?.getD [] }

def Scene.place (s : Scene) (branchAware : Bool) (steps : List Step) : Except Fault Layered :=
  if branchAware then (s.walk steps).finish else s.placeFlat steps

def View.drawPlain (model : Model) (options : Options) (v : View) : Except Fault Graph := do
  let selected ← selectedElements model v.rules
  let roster := Roster.of selected (referencedElements model v.steps)
  let scene : Scene := { model, viewId := v.id, order := roster.order }
  let layered ← scene.place options.branchAware v.steps
  let nodes ← nodesOf model roster v.rules options.theme
  let edges ← edgesOf options.theme roster.order layered.placed
  return {
    id := v.id
    title := v.title
    description := v.description
    tags := v.tags
    layout := v.layout
    variant := v.variant
    nodes := nodes.map (·.connected edges)
    edges
    forks := if layered.forks.isEmpty then none else some layered.forks }

def View.draw (model : Model) (options : Options) (v : View) : Except ViewFault Graph :=
  (v.drawPlain model options).mapError fun cause => { viewId := v.id, cause }

end StepGraph
