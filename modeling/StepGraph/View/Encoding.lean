import StepGraph.Step.Encoding
import StepGraph.View

/-! Declared views written as documents and read from them. -/
set_option autoImplicit false

namespace StepGraph

open Json Record

namespace Layout

def toJson : Layout → Json
  | .topBottom => .string "TB"
  | .bottomTop => .string "BT"
  | .leftRight => .string "LR"
  | .rightLeft => .string "RL"

def ofJson? (j : Json) : Option Layout :=
  match j.name? with
  | some "TB" => some .topBottom
  | some "BT" => some .bottomTop
  | some "LR" => some .leftRight
  | some "RL" => some .rightLeft
  | _ => none

end Layout

namespace Variant

def toJson : Variant → Json
  | .diagram => .string "diagram"
  | .sequence => .string "sequence"

def ofJson? (j : Json) : Option Variant :=
  match j.name? with
  | some "diagram" => some .diagram
  | some "sequence" => some .sequence
  | _ => none

end Variant

namespace StyleRule

def toJson (r : StyleRule) : Json := .object (("targets", strings r.targets) :: r.patch.fields)

def record : Record StyleRule := do
  let targets ← required "targets" strings?
  let patch ← StylePatch.record
  return { targets, patch }

def ofJson? : Json → Option StyleRule := record.read

end StyleRule

namespace Rule

def toJson : Rule → Json
  | .including es => .object [("include", strings es)]
  | .excluding es => .object [("exclude", strings es)]
  | .styling r => .object [("style", r.toJson)]

def ofJson? (j : Json) : Option Rule :=
  match j.alternative? with
  | some ("include", some content) => content.strings?.map .including
  | some ("exclude", some content) => content.strings?.map .excluding
  | some ("style", some content) => (StyleRule.ofJson? content).map .styling
  | _ => none

end Rule

namespace View

def toJson (v : View) : Json := .object
  [("id", .string v.id),
   ("title", orNull .string v.title),
   ("description", orNull .string v.description),
   ("tags", strings v.tags),
   ("rules", list Rule.toJson v.rules),
   ("steps", list Step.toJson v.steps),
   ("autoLayout", v.layout.toJson),
   ("variant", v.variant.toJson)]

def record : Record View := do
  let id ← required "id" string?
  let title ← nullable "title" string?
  let description ← nullable "description" string?
  let tags ← defaulted "tags" [] strings?
  let rules ← defaulted "rules" [] (list? Rule.ofJson?)
  let steps ← defaulted "steps" [] (list? Step.ofJson?)
  let layout ← defaulted "autoLayout" .topBottom Layout.ofJson?
  let variant ← defaulted "variant" .diagram Variant.ofJson?
  return { id, title, description, tags, rules, steps, layout, variant }

def ofJson? : Json → Option View := record.read

end View

end StepGraph
