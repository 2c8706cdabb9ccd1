import StepGraph.Json.Record

/-! Themes: how nodes and edges look where nothing else decides. -/
set_option autoImplicit false

namespace StepGraph

open Json Record

/-- A compound node has an opacity and a border of its own. -/
structure Theme where
  elementColor : String
  elementShape : String
  elementOpacity : UInt8
  elementBorder : String
  elementSize : String
  compoundOpacity : UInt8
  compoundBorder : String
  relationColor : String
  relationLine : String
  relationHead : String
  deriving DecidableEq

namespace Theme

def standard : Theme where
  elementColor := "primary"
  elementShape := "rectangle"
  elementOpacity := 100
  elementBorder := "solid"
  elementSize := "md"
  compoundOpacity := 15
  compoundBorder := "dashed"
  relationColor := "gray"
  relationLine := "dashed"
  relationHead := "normal"

def muted : Theme where
  elementColor := "slate"
  elementShape := "rectangle"
  elementOpacity := 100
  elementBorder := "none"
  elementSize := "sm"
  compoundOpacity := 8
  compoundBorder := "dotted"
  relationColor := "slate"
  relationLine := "solid"
  relationHead := "onormal"

def named? (name : String) : Option Theme :=
  if name = "standard" || name = "default" then some standard
  else if name = "muted" then some muted
  else none

def toJson (t : Theme) : Json := .object
  [("element_color", .string t.elementColor),
   ("element_shape", .string t.elementShape),
   ("element_opacity", nat t.elementOpacity.toNat),
   ("element_border", .string t.elementBorder),
   ("element_size", .string t.elementSize),
   ("compound_opacity", nat t.compoundOpacity.toNat),
   ("compound_border", .string t.compoundBorder),
   ("relation_color", .string t.relationColor),
   ("relation_line", .string t.relationLine),
   ("relation_head", .string t.relationHead)]

def record : Record Theme := do
  let elementColor ← required "element_color" string?
  let elementShape ← required "element_shape" string?
  let elementOpacity ← required "element_opacity" byte?
  let elementBorder ← required "element_border" string?
  let elementSize ← required "element_size" string?
  let compoundOpacity ← required "compound_opacity" byte?
  let compoundBorder ← required "compound_border" string?
  let relationColor ← required "relation_color" string?
  let relationLine ← required "relation_line" string?
  let relationHead ← required "relation_head" string?
  return { elementColor, elementShape, elementOpacity, elementBorder, elementSize,
           compoundOpacity, compoundBorder, relationColor, relationLine, relationHead }

def ofJson? : Json → Option Theme := record.read

end Theme

end StepGraph
