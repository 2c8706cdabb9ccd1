import StepGraph.Journal
import StepGraph.View

/-! Views as they are drawn: nodes in order, edges between them, and the forks that were walked. -/
set_option autoImplicit false

namespace StepGraph

structure Style where
  color : String
  shape : String
  opacity : UInt8
  border : String
  size : String

structure Node where
  id : Name
  kind : String
  title : String
  description : Option String
  technology : Option String
  tags : List String
  parent : Option Name
  children : List Name
  inEdges : List EdgeId
  outEdges : List EdgeId
  /-- The number of ancestors in the view. -/
  level : Nat
  /-- The height of the subtree in the view. -/
  depth : Nat
  navigateTo : Option String
  style : Style

def Node.isCompound (n : Node) : Bool := !n.children.isEmpty

inductive Direction where
  | forward
  | back
  deriving DecidableEq

structure Edge where
  id : EdgeId
  source : Name
  target : Name
  /-- The innermost node that holds both ends. -/
  parent : Option Name
  label : Option String
  description : Option String
  technology : Option String
  kind : Option String
  legend : Option String
  notes : Option String
  relations : List String
  direction : Direction
  color : String
  line : String
  head : String
  tail : Option String
  navigateTo : Option String
  trail : Option (List TrailEntry)
  origin : String

structure Graph where
  id : String
  title : Option String
  description : Option String
  tags : List String
  layout : Layout
  variant : Variant
  nodes : List Node
  edges : List Edge
  forks : Option (List ForkSummary)

namespace Graph

def node? (g : Graph) (id : String) : Option Node := g.nodes.find? (·.id.text == id)

def edge? (g : Graph) (id : String) : Option Edge := g.edges.find? (·.id.text == id)

def edgeIds (g : Graph) : List String := g.edges.map (·.id.text)

end Graph

end StepGraph
