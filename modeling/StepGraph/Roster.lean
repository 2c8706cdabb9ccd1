import StepGraph.Name.ParentsFirst
import StepGraph.Selector
import StepGraph.View

/-!
The roster of a view: which elements appear in it and in which order. Its rules select elements and
its steps refer to elements.
-/
set_option autoImplicit false

namespace StepGraph

/-- A selector can add to a view only if its anchor is in the model. -/
def Selector.checkAnchor (model : Model) (s : Selector) : Except Fault Unit :=
  match s.anchor? with
  | none => .ok ()
  | some a => if model.contains a then .ok () else .error (.unknownElement a)

def appendNew (names more : List Name) : List Name :=
  more.foldl (fun names n => if names.contains n then names else names ++ [n]) names

def addSelected (model : Model) (selected : List Name) (s : Selector) :
    Except Fault (List Name) := do
  s.checkAnchor model
  return appendNew selected ((model.elements.map (·.id)).filter s.selects)

def applyRule (model : Model) (selected : List Name) : Rule → Except Fault (List Name)
  | .including expressions => do
    let selectors ← Selector.parseAll expressions
    selectors.foldlM (addSelected model) selected
  | .excluding expressions => do
    let selectors ← Selector.parseAll expressions
    return selected.filter fun n => !selectors.any (·.selects n)
  | .styling _ => .ok selected

def selectedElements (model : Model) (rules : List Rule) : Except Fault (List Name) :=
  rules.foldlM (applyRule model) []

def Interaction.endpoints (i : Interaction) : List Name := [i.source, i.target]

/-- The elements of the model that steps refer to, in the order in which they do so first. -/
def referencedElements (model : Model) (steps : List Step) : List Name :=
  (((stepInteractions steps).flatMap Interaction.endpoints).filter model.contains).eraseDups

def enclosing : List Name → List Name
  | [] => []
  | n :: rest => if rest.any n.isAncestorOf then n :: enclosing rest else enclosing rest

structure Roster where
  /-- Every ancestor stands before its descendants. -/
  order : List Name
  /-- The elements that contain others of the view. -/
  compounds : List Name

/-- Selected elements that are referred to come first, then the others referred to, then the other
selected ones. -/
def Roster.of (selected referenced : List Name) : Roster :=
  let both := selected.filter referenced.contains
  let order := parentsFirst id (appendNew both (referenced ++ selected))
  { order, compounds := (enclosing order).eraseDups }

end StepGraph
