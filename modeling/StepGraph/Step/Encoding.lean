import StepGraph.Model.Encoding
import StepGraph.Step

/-! Steps written as documents and read from them. -/
set_option autoImplicit false

namespace StepGraph

open Json Record

namespace Interaction

def toJson (i : Interaction) : Json := .object
  [("source", i.source.toJson),
   ("target", i.target.toJson),
   ("title", orNull .string i.title),
   ("description", orNull .string i.description),
   ("technology", orNull .string i.technology),
   ("kind", orNull .string i.kind),
   ("notation", orNull .string i.legend),
   ("notes", orNull .string i.notes),
   ("color", orNull .string i.color),
   ("line", orNull .string i.line),
   ("head", orNull .string i.head),
   ("tail", orNull .string i.tail),
   ("isBackward", .bool i.isBackward),
   ("navigateTo", orNull .string i.navigateTo),
   ("astPath", .string i.origin)]

def record : Record Interaction := do
  let source ← required "source" Name.ofJson?
  let target ← required "target" Name.ofJson?
  let title ← nullable "title" string?
  let description ← nullable "description" string?
  let technology ← nullable "technology" string?
  let kind ← nullable "kind" string?
  let legend ← nullable "notation" string?
  let notes ← nullable "notes" string?
  let color ← nullable "color" string?
  let line ← nullable "line" string?
  let head ← nullable "head" string?
  let tail ← nullable "tail" string?
  let isBackward ← defaulted "isBackward" false bool?
  let navigateTo ← nullable "navigateTo" string?
  let origin ← defaulted "astPath" "" string?
  return { source, target, title, description, technology, kind, legend, notes, color, line, head,
           tail, isBackward, navigateTo, origin }

def ofJson? : Json → Option Interaction := record.read

end Interaction

namespace Chain

def toJson (c : Chain) : Json := .object
  [("steps", list Interaction.toJson c.members), ("astPath", .string c.origin)]

def record : Record Chain := do
  let members ← required "steps" (list? Interaction.ofJson?)
  let origin ← defaulted "astPath" "" string?
  return { members, origin }

def ofJson? : Json → Option Chain := record.read

end Chain

namespace Lane

def toJson : Lane → Json
  | .single i => .object [("step", i.toJson)]
  | .chain c => .object [("series", c.toJson)]

def ofJson? (j : Json) : Option Lane :=
  match j.alternative? with
  | some ("step", some content) => (Interaction.ofJson? content).map .single
  | some ("series", some content) => (Chain.ofJson? content).map .chain
  | _ => none

end Lane

namespace ForkKind

def toJson : ForkKind → Json
  | .parallel => .string "parallel"
  | .alternate => .string "alternate"

def ofJson? (j : Json) : Option ForkKind :=
  match j.name? with
  | some "parallel" => some .parallel
  | some "alternate" => some .alternate
  | _ => none

end ForkKind

def Path.toJson (p : Path) (steps : Json) : Json := .object
  [("pathId", .string p.id),
   ("pathName", orNull .string p.name),
   ("pathTitle", orNull .string p.title),
   ("description", orNull .string p.description),
   ("tags", orNull strings p.tags),
   ("steps", steps),
   ("astPath", .string p.origin)]

def Path.record {α : Type} (steps : Json → Option α) : Record (Path × α) := do
  let id ← required "pathId" string?
  let name ← nullable "pathName" string?
  let title ← nullable "pathTitle" string?
  let description ← nullable "description" string?
  let tags ← nullable "tags" strings?
  let steps ← required "steps" steps
  let origin ← defaulted "astPath" "" string?
  return ({ id, name, title, description, tags, origin }, steps)

def Fork.toJson (f : Fork) (paths : Json) : Json := .object
  [("branchId", .string f.id),
   ("kind", f.kind.toJson),
   ("defaultPathId", orNull .string f.defaultPath),
   ("label", orNull .string f.label),
   ("paths", paths),
   ("legacyShadow", orNull (list Lane.toJson) f.shadow),
   ("astPath", .string f.origin)]

def Fork.record {α : Type} (paths : Json → Option α) : Record (Fork × α) := do
  let id ← required "branchId" string?
  let kind ← required "kind" ForkKind.ofJson?
  let defaultPath ← nullable "defaultPathId" string?
  let label ← nullable "label" string?
  let paths ← required "paths" paths
  let shadow ← omissible "legacyShadow" (list? Lane.ofJson?)
  let origin ← defaulted "astPath" "" string?
  return ({ id, kind, defaultPath, label, shadow, origin }, paths)

mutual

def Step.toJson : Step → Json
  | .single i => .object [("step", i.toJson)]
  | .chain c => .object [("series", c.toJson)]
  | .fork f paths => .object [("branch", f.toJson (.array (pathsToJson paths)))]

def pathsToJson : List (Path × List Step) → List Json
  | [] => []
  | (p, steps) :: rest => p.toJson (.array (stepsToJson steps)) :: pathsToJson rest

def stepsToJson : List Step → List Json
  | [] => []
  | s :: rest => s.toJson :: stepsToJson rest

end

def forkOfJson? (step : Json → Option Step) : Json → Option (Fork × List (Path × List Step)) :=
  (Fork.record (list? (Path.record (list? step)).read)).read

def Step.ofJsonFuel : Nat → Json → Option Step
  | 0, _ => none
  | fuel + 1, j =>
    match j.alternative? with
    | some ("step", some content) => (Interaction.ofJson? content).map .single
    | some ("series", some content) => (Chain.ofJson? content).map .chain
    | some ("branch", some content) =>
      (forkOfJson? (ofJsonFuel fuel) content).map fun f => .fork f.1 f.2
    | _ => none

/-- Steps nest less deep than the values they are read from. -/
def Step.ofJson? (j : Json) : Option Step := ofJsonFuel (j.depth + 1) j

end StepGraph
