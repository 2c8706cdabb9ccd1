import StepGraph.Name

/-! The model that views draw on: named elements and the relationships between them. -/
set_option autoImplicit false

namespace StepGraph

structure StylePatch where
  color : Option String := none
  shape : Option String := none
  opacity : Option UInt8 := none
  border : Option String := none
  size : Option String := none
  deriving Inhabited

structure Element where
  id : Name
  kind : String := ""
  title : Option String := none
  description : Option String := none
  technology : Option String := none
  tags : List String := []
  style : StylePatch := {}
  navigateTo : Option String := none

/-- The title, or the last segment of the name where none is given. -/
def Element.displayTitle (e : Element) : String := e.title.getD e.id.lastSegment

structure Relationship where
  id : String
  source : Name
  target : Name
  title : Option String := none
  description : Option String := none
  technology : Option String := none
  kind : Option String := none
  tags : List String := []
  color : Option String := none
  line : Option String := none
  head : Option String := none
  tail : Option String := none
  navigateTo : Option String := none

structure Model where
  elements : List Element := []
  relationships : List Relationship := []

namespace Model

/-- The element of a name; of several the last one declared. -/
def element? (m : Model) (name : Name) : Option Element :=
  m.elements.reverse.find? (·.id == name)

def contains (m : Model) (name : Name) : Bool := m.elements.any (·.id == name)

theorem isSome_element? (m : Model) (name : Name) :
    (m.element? name).isSome = m.contains name := by
  rw [Bool.eq_iff_iff]
  simp [element?, contains]

/-- The relationships from `source` to `target`, or where there are none those from inside `source`
to inside `target`. -/
def relationshipsBetween (m : Model) (source target : Name) : List Relationship :=
  let direct := m.relationships.filter fun r => r.source == source && r.target == target
  if direct.isEmpty then
    m.relationships.filter fun r =>
      source.isSameOrAncestorOf r.source && target.isSameOrAncestorOf r.target
  else direct

end Model

end StepGraph
