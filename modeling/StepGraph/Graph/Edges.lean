import StepGraph.Graph
import StepGraph.Resolution
import StepGraph.Theme
import StepGraph.Walk

/-!
The edges of a view: one for each placed step. An edge belongs to the innermost node around both of
its ends and is noted on its ends and on every node between them and that one.
-/
set_option autoImplicit false

namespace StepGraph

def climbTo (order : List Name) (n : Name) : Option Name := (n :: n.ancestors).find? order.contains

/-- The innermost node that holds both ends: the common ancestor or the first node above it. -/
def edgeParent (order : List Name) (source target : Name) : Option Name :=
  (source.commonAncestor target).bind (climbTo order)

def upTo (top : Option Name) (n : Name) : List Name := n :: n.ancestors.takeWhile (some · != top)

def Edge.leaves (e : Edge) (n : Name) : Bool := (upTo e.parent e.source).contains n

def Edge.enters (e : Edge) (n : Name) : Bool := (upTo e.parent e.target).contains n

def Resolved.missing (r : Resolved) (reference : Name) (endpoint : Endpoint) : Fault :=
  .unresolvedReference reference endpoint r.origin

def edgeOf (theme : Theme) (order : List Name) (p : Placed Resolved) : Edge where
  id := p.id
  source := p.content.source
  target := p.content.target
  parent := edgeParent order p.content.source p.content.target
  label := p.content.title
  description := p.content.description
  technology := p.content.technology
  kind := p.content.kind
  legend := p.content.legend
  notes := p.content.notes
  relations := p.content.relations
  direction := if p.content.isBackward then .back else .forward
  color := p.content.color.getD theme.relationColor
  line := p.content.line.getD theme.relationLine
  head := p.content.head.getD theme.relationHead
  tail := p.content.tail
  navigateTo := p.content.navigateTo
  trail := p.trail
  origin := p.content.origin

/-- Both ends must be nodes. -/
def edgesOf (theme : Theme) (order : List Name) (placed : List (Placed Resolved)) :
    Except Fault (List Edge) :=
  placed.mapM fun p =>
    if !order.contains p.content.source then .error (p.content.missing p.content.source .source)
    else if !order.contains p.content.target then
      .error (p.content.missing p.content.target .target)
    else .ok (edgeOf theme order p)

def Node.connected (edges : List Edge) (n : Node) : Node :=
  { n with
    inEdges := (edges.filter (·.enters n.id)).map (·.id)
    outEdges := (edges.filter (·.leaves n.id)).map (·.id) }

end StepGraph
