import StepGraph.Fault
import StepGraph.Model
import StepGraph.Step

/-!
Interactions resolved against the model and the order of elements in a view. What a step leaves open
is taken from the relationship between its ends, if there is exactly one.
-/
set_option autoImplicit false

namespace StepGraph

structure Resolved where
  source : Name
  target : Name
  title : Option String
  description : Option String
  technology : Option String
  kind : Option String
  legend : Option String
  notes : Option String
  color : Option String
  line : Option String
  head : Option String
  tail : Option String
  isBackward : Bool
  navigateTo : Option String
  relations : List String
  origin : String

structure Scene where
  model : Model
  viewId : String
  order : List Name

def Interaction.endpoint (i : Interaction) : Endpoint → Name
  | .source => i.source
  | .target => i.target

def Interaction.unresolved (i : Interaction) (e : Endpoint) : Fault :=
  .unresolvedReference (i.endpoint e) e i.origin

def sharedTitle : List Relationship → Option String
  | [] => none
  | r :: rest => r.title.filter fun t => rest.all (·.title == some t)

def single? : List Relationship → Option Relationship
  | [r] => some r
  | _ => none

namespace Scene

def column (s : Scene) (i : Interaction) (e : Endpoint) : Except Fault Nat :=
  match s.order.idxOf? (i.endpoint e) with
  | some n => .ok n
  | none => .error (i.unresolved e)

/-- An interaction runs backward if it says so or its target stands before its source. A view does
not navigate to itself. -/
def fill (s : Scene) (i : Interaction) (source target : Nat) : Resolved :=
  let relations := s.model.relationshipsBetween i.source i.target
  let derived (part : Relationship → Option String) := (single? relations).bind part
  { source := i.source
    target := i.target
    title := (i.title.or (derived (·.title))).or (sharedTitle relations)
    description := i.description.or (derived (·.description))
    technology := i.technology.or (derived (·.technology))
    kind := i.kind.or (derived (·.kind))
    legend := i.legend
    notes := i.notes
    color := i.color.or (derived (·.color))
    line := i.line.or (derived (·.line))
    head := i.head.or (derived (·.head))
    tail := i.tail.or (derived (·.tail))
    isBackward := i.isBackward || target < source
    navigateTo := (i.navigateTo.or (derived (·.navigateTo))).filter (· != s.viewId)
    relations := relations.map (·.id)
    origin := i.origin }

def resolve (s : Scene) (i : Interaction) : Except Fault Resolved := do
  let source ← s.column i .source
  let target ← s.column i .target
  return s.fill i source target

end Scene

end StepGraph
