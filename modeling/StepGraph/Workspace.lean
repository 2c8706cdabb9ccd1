import StepGraph.Json.Document
import StepGraph.View.Encoding

/-! Workspaces: a project, its model and its views. -/
set_option autoImplicit false

namespace StepGraph

open Json Record

structure Project where
  id : Option String := none
  branchAware : Option Bool := none

structure Workspace where
  project : Project := {}
  model : Model := {}
  views : List View := []

namespace Project

def toJson (p : Project) : Json := .object
  [("id", orNull .string p.id), ("dynamicBranches", orNull .bool p.branchAware)]

def record : Record Project := do
  let id ← nullable "id" string?
  let branchAware ← nullable "dynamicBranches" bool?
  return { id, branchAware }

def ofJson? : Json → Option Project := record.read

end Project

namespace Workspace

/-- The first view of the id. -/
def view? (w : Workspace) (id : String) : Option View := w.views.find? (·.id == id)

def toJson (w : Workspace) : Json := .object
  [("project", w.project.toJson),
   ("elements", list Element.toJson w.model.elements),
   ("relationships", list Relationship.toJson w.model.relationships),
   ("views", list View.toJson w.views)]

def record : Record Workspace := do
  let project ← defaulted "project" {} Project.ofJson?
  let model ← defaulted "model" {} Model.ofJson?
  let views ← defaulted "views" [] (list? View.ofJson?)
  return { project, model, views }

def ofJson? : Json → Option Workspace := record.read

def ofText (text : String) : Except DocumentError Workspace := Json.decodeText ofJson? text

end Workspace

end StepGraph
