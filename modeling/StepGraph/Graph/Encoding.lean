import StepGraph.Graph
import StepGraph.View.Encoding

/-! Drawn views written as documents and read from them. -/
set_option autoImplicit false

namespace StepGraph

open Json Record

def EdgeId.toJson (id : EdgeId) : Json := .string id.text

/-- Any text is taken as an id. -/
def EdgeId.ofJson? (j : Json) : Option EdgeId := j.string?.map EdgeId.mk

namespace TrailEntry

def toJson (e : TrailEntry) : Json := .object <|
  [("branchId", .string e.forkId),
   ("pathId", .string e.pathId),
   ("kind", e.kind.toJson),
   ("pathIndex", nat e.pathIndex),
   ("indexWithinPath", nat e.position)] ++
  fieldIf "pathName" .string e.pathName ++
  fieldIf "pathTitle" .string e.pathTitle ++
  [("isDefaultPath", .bool e.isDefault)]

def record : Record TrailEntry := do
  let forkId ← required "branchId" string?
  let pathId ← required "pathId" string?
  let kind ← required "kind" ForkKind.ofJson?
  let pathIndex ← required "pathIndex" nat?
  let position ← required "indexWithinPath" nat?
  let pathName ← nullable "pathName" string?
  let pathTitle ← nullable "pathTitle" string?
  let isDefault ← required "isDefaultPath" bool?
  return { forkId, pathId, kind, pathIndex, position, pathName, pathTitle, isDefault }

def ofJson? : Json → Option TrailEntry := record.read

end TrailEntry

namespace PathSummary

def toJson (p : PathSummary) : Json := .object <|
  [("pathId", .string p.pathId),
   ("pathIndex", nat p.index),
   ("isDefaultPath", .bool p.isDefault)] ++
  fieldIf "pathName" .string p.name ++
  fieldIf "pathTitle" .string p.title ++
  fieldIf "description" .string p.description ++
  fieldIf "tags" strings p.tags ++
  [("edgeIds", list EdgeId.toJson p.edgeIds)]

def record : Record PathSummary := do
  let pathId ← required "pathId" string?
  let index ← required "pathIndex" nat?
  let isDefault ← required "isDefaultPath" bool?
  let name ← nullable "pathName" string?
  let title ← nullable "pathTitle" string?
  let description ← nullable "description" string?
  let tags ← nullable "tags" strings?
  let edgeIds ← required "edgeIds" (list? EdgeId.ofJson?)
  return { pathId, index, isDefault, name, title, description, tags, edgeIds }

def ofJson? : Json → Option PathSummary := record.read

end PathSummary

namespace ForkSummary

def toJson (f : ForkSummary) : Json := .object <|
  [("branchId", .string f.forkId),
   ("kind", f.kind.toJson)] ++
  fieldIf "label" .string f.label ++
  fieldIf "defaultPathId" .string f.defaultPath ++
  [("paths", list PathSummary.toJson f.paths)]

def record : Record ForkSummary := do
  let forkId ← required "branchId" string?
  let kind ← required "kind" ForkKind.ofJson?
  let label ← nullable "label" string?
  let defaultPath ← nullable "defaultPathId" string?
  let paths ← required "paths" (list? PathSummary.ofJson?)
  return { forkId, kind, label, defaultPath, paths }

def ofJson? : Json → Option ForkSummary := record.read

end ForkSummary

namespace Style

def toJson (s : Style) : Json := .object
  [("color", .string s.color),
   ("shape", .string s.shape),
   ("opacity", nat s.opacity.toNat),
   ("border", .string s.border),
   ("size", .string s.size)]

def record : Record Style := do
  let color ← required "color" string?
  let shape ← required "shape" string?
  let opacity ← required "opacity" byte?
  let border ← required "border" string?
  let size ← required "size" string?
  return { color, shape, opacity, border, size }

def ofJson? : Json → Option Style := record.read

end Style

namespace Node

def toJson (n : Node) : Json := .object
  [("id", n.id.toJson),
   ("kind", .string n.kind),
   ("title", .string n.title),
   ("description", orNull .string n.description),
   ("technology", orNull .string n.technology),
   ("tags", strings n.tags),
   ("parent", orNull Name.toJson n.parent),
   ("children", list Name.toJson n.children),
   ("inEdges", list EdgeId.toJson n.inEdges),
   ("outEdges", list EdgeId.toJson n.outEdges),
   ("level", nat n.level),
   ("depth", nat n.depth),
   ("navigateTo", orNull .string n.navigateTo),
   ("style", n.style.toJson)]

def record : Record Node := do
  let id ← required "id" Name.ofJson?
  let kind ← required "kind" string?
  let title ← required "title" string?
  let description ← nullable "description" string?
  let technology ← nullable "technology" string?
  let tags ← required "tags" strings?
  let parent ← nullable "parent" Name.ofJson?
  let children ← required "children" (list? Name.ofJson?)
  let inEdges ← required "inEdges" (list? EdgeId.ofJson?)
  let outEdges ← required "outEdges" (list? EdgeId.ofJson?)
  let level ← required "level" nat?
  let depth ← required "depth" nat?
  let navigateTo ← nullable "navigateTo" string?
  let style ← required "style" Style.ofJson?
  return { id, kind, title, description, technology, tags, parent, children, inEdges, outEdges,
           level, depth, navigateTo, style }

def ofJson? : Json → Option Node := record.read

end Node

namespace Direction

def toJson : Direction → Json
  | .forward => .string "forward"
  | .back => .string "back"

def ofJson? (j : Json) : Option Direction :=
  match j.name? with
  | some "forward" => some .forward
  | some "back" => some .back
  | _ => none

end Direction

namespace Edge

def toJson (e : Edge) : Json := .object <|
  [("id", e.id.toJson),
   ("source", e.source.toJson),
   ("target", e.target.toJson),
   ("parent", orNull Name.toJson e.parent),
   ("label", orNull .string e.label),
   ("description", orNull .string e.description),
   ("technology", orNull .string e.technology),
   ("kind", orNull .string e.kind),
   ("notation", orNull .string e.legend),
   ("notes", orNull .string e.notes),
   ("relations", strings e.relations),
   ("dir", e.direction.toJson),
   ("color", .string e.color),
   ("line", .string e.line),
   ("head", .string e.head),
   ("tail", orNull .string e.tail),
   ("navigateTo", orNull .string e.navigateTo)] ++
  fieldIf "branchTrail" (list TrailEntry.toJson) e.trail ++
  [("astPath", .string e.origin)]

def record : Record Edge := do
  let id ← required "id" EdgeId.ofJson?
  let source ← required "source" Name.ofJson?
  let target ← required "target" Name.ofJson?
  let parent ← nullable "parent" Name.ofJson?
  let label ← nullable "label" string?
  let description ← nullable "description" string?
  let technology ← nullable "technology" string?
  let kind ← nullable "kind" string?
  let legend ← nullable "notation" string?
  let notes ← nullable "notes" string?
  let relations ← required "relations" strings?
  let direction ← required "dir" Direction.ofJson?
  let color ← required "color" string?
  let line ← required "line" string?
  let head ← required "head" string?
  let tail ← nullable "tail" string?
  let navigateTo ← nullable "navigateTo" string?
  let trail ← nullable "branchTrail" (list? TrailEntry.ofJson?)
  let origin ← required "astPath" string?
  return { id, source, target, parent, label, description, technology, kind, legend, notes,
           relations, direction, color, line, head, tail, navigateTo, trail, origin }

def ofJson? : Json → Option Edge := record.read

end Edge

namespace Graph

def toJson (g : Graph) : Json := .object <|
  [("id", .string g.id),
   ("title", orNull .string g.title),
   ("description", orNull .string g.description),
   ("tags", strings g.tags),
   ("autoLayout", g.layout.toJson),
   ("variant", g.variant.toJson),
   ("nodes", list Node.toJson g.nodes),
   ("edges", list Edge.toJson g.edges)] ++
  fieldIf "branchCollections" (list ForkSummary.toJson) g.forks

def record : Record Graph := do
  let id ← required "id" string?
  let title ← nullable "title" string?
  let description ← nullable "description" string?
  let tags ← required "tags" strings?
  let layout ← required "autoLayout" Layout.ofJson?
  let variant ← required "variant" Variant.ofJson?
  let nodes ← required "nodes" (list? Node.ofJson?)
  let edges ← required "edges" (list? Edge.ofJson?)
  let forks ← omissible "branchCollections" (list? ForkSummary.ofJson?)
  return { id, title, description, tags, layout, variant, nodes, edges, forks }

def ofJson? : Json → Option Graph := record.read

end Graph

end StepGraph
