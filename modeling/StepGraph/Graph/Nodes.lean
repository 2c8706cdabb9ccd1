import StepGraph.Graph
import StepGraph.Roster
import StepGraph.Theme

/-!
The nodes of a view: one for each element of its roster, nested as the names say and styled by the
theme, the element and the rules of the view, in this order.
-/
set_option autoImplicit false

namespace StepGraph

def Style.patched (s : Style) (p : StylePatch) : Style where
  color := p.color.getD s.color
  shape := p.shape.getD s.shape
  opacity := (p.opacity.map (min · 100)).getD s.opacity
  border := p.border.getD s.border
  size := p.size.getD s.size

def Theme.style (t : Theme) (compound : Bool) : Style where
  color := t.elementColor
  shape := t.elementShape
  opacity := if compound then t.compoundOpacity else t.elementOpacity
  border := if compound then t.compoundBorder else t.elementBorder
  size := t.elementSize

structure StyleMatch where
  targets : List Selector
  patch : StylePatch

def StyleMatch.selects (m : StyleMatch) (n : Name) : Bool := m.targets.any (·.selects n)

def Rule.style? : Rule → Option StyleRule
  | .styling r => some r
  | _ => none

def styleMatches (rules : List Rule) : Except Fault (List StyleMatch) :=
  (rules.filterMap Rule.style?).mapM fun r => do
    return { targets := ← Selector.parseAll r.targets, patch := r.patch }

def nodeStyle (theme : Theme) (styles : List StyleMatch) (compound : Bool) (e : Element)
    (n : Name) : Style :=
  (styles.filter (·.selects n)).foldl (fun s m => s.patched m.patch)
    ((theme.style compound).patched e.style)

def parentIn (order : List Name) (n : Name) : Option Name := n.ancestors.find? order.contains

def levelIn (order : List Name) (n : Name) : Nat := n.ancestors.countP order.contains

def nodeOf (theme : Theme) (styles : List StyleMatch) (roster : Roster) (e : Element)
    (n : Name) : Node where
  id := n
  kind := e.kind
  title := e.displayTitle
  description := e.description
  technology := e.technology
  tags := e.tags
  parent := parentIn roster.order n
  children := []
  inEdges := []
  outEdges := []
  level := levelIn roster.order n
  depth := 0
  navigateTo := e.navigateTo
  style := nodeStyle theme styles (roster.compounds.contains n) e n

def Node.adopt (c n : Node) : Node :=
  { n with children := c.id :: n.children, depth := max n.depth (c.depth + 1) }

def settleAt (k : Nat) (nodes : List Node) : List Node :=
  match nodes[k]? with
  | some c => nodes.map fun n => if c.parent == some n.id then c.adopt n else n
  | none => nodes

/-- Enters every node in its parent, the last node first: parents stand before their children, so
that a node is entered with its whole depth. -/
def settle (nodes : List Node) : List Node := (List.range nodes.length).foldr settleAt nodes

def nodesOf (model : Model) (roster : Roster) (rules : List Rule) (theme : Theme) :
    Except Fault (List Node) := do
  let styles ← styleMatches rules
  let nodes ← roster.order.mapM fun n =>
    match model.element? n with
    | some e => .ok (nodeOf theme styles roster e n)
    | none => .error (.unknownElement n)
  return settle nodes

end StepGraph
