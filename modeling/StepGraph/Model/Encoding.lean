import StepGraph.Json.Record
import StepGraph.Model

/-! Models written as documents and read from them. -/
set_option autoImplicit false

namespace StepGraph

open Json Record

def Name.toJson (n : Name) : Json := .string n.text

def Name.ofJson? (j : Json) : Option Name := j.string?.map Name.mk

namespace StylePatch

def fields (s : StylePatch) : List (String × Json) :=
  [("color", orNull .string s.color),
   ("shape", orNull .string s.shape),
   ("opacity", orNull (fun o => nat o.toNat) s.opacity),
   ("border", orNull .string s.border),
   ("size", orNull .string s.size)]

def toJson (s : StylePatch) : Json := .object s.fields

def record : Record StylePatch := do
  let color ← nullable "color" string?
  let shape ← nullable "shape" string?
  let opacity ← nullable "opacity" byte?
  let border ← nullable "border" string?
  let size ← nullable "size" string?
  return { color, shape, opacity, border, size }

def ofJson? : Json → Option StylePatch := record.read

end StylePatch

namespace Element

def toJson (e : Element) : Json := .object
  [("id", e.id.toJson),
   ("kind", .string e.kind),
   ("title", orNull .string e.title),
   ("description", orNull .string e.description),
   ("technology", orNull .string e.technology),
   ("tags", strings e.tags),
   ("style", e.style.toJson),
   ("navigateTo", orNull .string e.navigateTo)]

def record : Record Element := do
  let id ← required "id" Name.ofJson?
  let kind ← defaulted "kind" "" string?
  let title ← nullable "title" string?
  let description ← nullable "description" string?
  let technology ← nullable "technology" string?
  let tags ← defaulted "tags" [] strings?
  let style ← defaulted "style" {} StylePatch.ofJson?
  let navigateTo ← nullable "navigateTo" string?
  return { id, kind, title, description, technology, tags, style, navigateTo }

def ofJson? : Json → Option Element := record.read

end Element

namespace Relationship

def toJson (r : Relationship) : Json := .object
  [("id", .string r.id),
   ("source", r.source.toJson),
   ("target", r.target.toJson),
   ("title", orNull .string r.title),
   ("description", orNull .string r.description),
   ("technology", orNull .string r.technology),
   ("kind", orNull .string r.kind),
   ("tags", strings r.tags),
   ("color", orNull .string r.color),
   ("line", orNull .string r.line),
   ("head", orNull .string r.head),
   ("tail", orNull .string r.tail),
   ("navigateTo", orNull .string r.navigateTo)]

def record : Record Relationship := do
  let id ← required "id" string?
  let source ← required "source" Name.ofJson?
  let target ← required "target" Name.ofJson?
  let title ← nullable "title" string?
  let description ← nullable "description" string?
  let technology ← nullable "technology" string?
  let kind ← nullable "kind" string?
  let tags ← defaulted "tags" [] strings?
  let color ← nullable "color" string?
  let line ← nullable "line" string?
  let head ← nullable "head" string?
  let tail ← nullable "tail" string?
  let navigateTo ← nullable "navigateTo" string?
  return { id, source, target, title, description, technology, kind, tags, color, line, head,
           tail, navigateTo }

def ofJson? : Json → Option Relationship := record.read

end Relationship

namespace Model

def record : Record Model := do
  let elements ← defaulted "elements" [] (list? Element.ofJson?)
  let relationships ← defaulted "relationships" [] (list? Relationship.ofJson?)
  return { elements, relationships }

def ofJson? : Json → Option Model := record.read

end Model

end StepGraph
