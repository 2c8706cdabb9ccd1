import StepGraph.Drawing
import Std.Data.TreeMap

/-!
The last graph drawn of every view. A view that fails keeps the graph it had, and its fault is
remembered until the next update; a view that is no longer declared is forgotten.
-/
set_option autoImplicit false

namespace StepGraph

structure Catalog where
  graphs : Std.TreeMap String Graph := {}
  faults : Std.TreeMap String ViewFault := {}

namespace Catalog

def note (c : Catalog) (v : View) : Except ViewFault Graph → Catalog
  | .ok g => { c with graphs := c.graphs.insert v.id g }
  | .error f => { c with faults := c.faults.insert v.id f }

/-- Only the graphs of declared views stay; faults do not. -/
def keep (c : Catalog) (views : List View) : Catalog where
  graphs := c.graphs.filter fun id _ => views.any (·.id == id)

def update (c : Catalog) (model : Model) (views : List View) (options : Options) :
    Catalog × List ViewFault :=
  let drawn := views.map fun v => (v, v.draw model options)
  (drawn.foldl (fun c d => c.note d.1 d.2) (c.keep views),
   drawn.filterMap fun d => match d.2 with
     | .ok _ => none
     | .error f => some f)

def get? (c : Catalog) (id : String) : Option Graph := c.graphs[id]?

def fault? (c : Catalog) (id : String) : Option ViewFault := c.faults[id]?

def toList (c : Catalog) : List Graph := c.graphs.values

def size (c : Catalog) : Nat := c.graphs.size

end Catalog

end StepGraph
