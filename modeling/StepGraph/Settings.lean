import StepGraph.Json.Document
import StepGraph.Theme

/-! Settings: the theme, the numbering of steps and the form of the output. -/
set_option autoImplicit false

namespace StepGraph

open Json Record

structure Settings where
  branchAware : Option Bool := none
  theme : Theme := .standard
  pretty : Bool := true

inductive SettingsError where
  | document (cause : DocumentError)
  | unknownTheme (name : String)
  deriving DecidableEq

def unknownThemeMessage (name : String) : String := "unknown theme '" ++ name ++ "'"

def SettingsError.message : SettingsError → String
  | .document cause => cause.message
  | .unknownTheme name => unknownThemeMessage name

structure ThemePatch where
  elementColor : Option String := none
  elementShape : Option String := none
  elementOpacity : Option UInt8 := none
  elementBorder : Option String := none
  elementSize : Option String := none
  compoundOpacity : Option UInt8 := none
  compoundBorder : Option String := none
  relationColor : Option String := none
  relationLine : Option String := none
  relationHead : Option String := none

def ThemePatch.record : Record ThemePatch := do
  let elementColor ← nullable "elementColor" string?
  let elementShape ← nullable "elementShape" string?
  let elementOpacity ← nullable "elementOpacity" byte?
  let elementBorder ← nullable "elementBorder" string?
  let elementSize ← nullable "elementSize" string?
  let compoundOpacity ← nullable "compoundOpacity" byte?
  let compoundBorder ← nullable "compoundBorder" string?
  let relationColor ← nullable "relationColor" string?
  let relationLine ← nullable "relationLine" string?
  let relationHead ← nullable "relationHead" string?
  return { elementColor, elementShape, elementOpacity, elementBorder, elementSize,
           compoundOpacity, compoundBorder, relationColor, relationLine, relationHead }

def Theme.patched (t : Theme) (p : ThemePatch) : Theme where
  elementColor := p.elementColor.getD t.elementColor
  elementShape := p.elementShape.getD t.elementShape
  elementOpacity := (p.elementOpacity.map (min · 100)).getD t.elementOpacity
  elementBorder := p.elementBorder.getD t.elementBorder
  elementSize := p.elementSize.getD t.elementSize
  compoundOpacity := (p.compoundOpacity.map (min · 100)).getD t.compoundOpacity
  compoundBorder := p.compoundBorder.getD t.compoundBorder
  relationColor := p.relationColor.getD t.relationColor
  relationLine := p.relationLine.getD t.relationLine
  relationHead := p.relationHead.getD t.relationHead

structure SettingsFile where
  theme : Option String := none
  overrides : Option ThemePatch := none
  branchAware : Option Bool := none
  pretty : Option Bool := none

def SettingsFile.record : Record SettingsFile := do
  let theme ← nullable "theme" string?
  let overrides ← nullable "themeOverrides" ThemePatch.record.read
  let branchAware ← nullable "dynamicBranches" bool?
  let pretty ← nullable "pretty" bool?
  return { theme, overrides, branchAware, pretty }

/-- The theme of a name, or the standard one where none is given; the name is the error. -/
def Theme.find (name? : Option String) : Except String Theme :=
  match name? with
  | none => .ok .standard
  | some name => match Theme.named? name with
    | some t => .ok t
    | none => .error name

namespace Settings

def ofFile (f : SettingsFile) : Except SettingsError Settings := do
  let theme ← (Theme.find f.theme).mapError .unknownTheme
  return {
    branchAware := f.branchAware
    theme := theme.patched (f.overrides.getD {})
    pretty := f.pretty.getD true }

def ofText (text : String) : Except SettingsError Settings := do
  let file ← (Json.decodeText SettingsFile.record.read text).mapError .document
  ofFile file

def toJson (s : Settings) : Json := .object
  [("project", .object [("dynamic_branches", orNull .bool s.branchAware)]),
   ("theme", s.theme.toJson),
   ("output", .object [("pretty", .bool s.pretty)])]

end Settings

end StepGraph
