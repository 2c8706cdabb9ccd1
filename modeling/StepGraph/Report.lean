import StepGraph.Catalog
import StepGraph.Graph.Encoding
import StepGraph.Json.Printer
import StepGraph.Workspace

/-! Reports: the graphs of a pass over views and the faults it met. -/
set_option autoImplicit false

namespace StepGraph

open Json

structure Report where
  branchAware : Bool
  graphs : List Graph
  faults : List ViewFault

namespace Report

def faultToJson (f : ViewFault) : Json := .object
  [("viewId", .string f.viewId), ("message", .string f.cause.message)]

/-- Faults are listed only if there are any. -/
def toJson (r : Report) : Json := .object <|
  [("dynamicBranches", .bool r.branchAware),
   ("views", list Graph.toJson r.graphs)] ++
  if r.faults.isEmpty then [] else [("errors", list faultToJson r.faults)]

def ofViews (model : Model) (views : List View) (options : Options) : Report :=
  let (catalog, faults) := ({} : Catalog).update model views options
  { branchAware := options.branchAware, graphs := catalog.toList, faults }

end Report

def Workspace.render (w : Workspace) (options : Options) (pretty : Bool) : String :=
  (Report.ofViews w.model w.views options).toJson.render pretty

end StepGraph
