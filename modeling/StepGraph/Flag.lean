import StepGraph.Text.Blank

/-! The switch between the two numberings of steps, and where it is set. -/
set_option autoImplicit false

namespace StepGraph.Flag

def variableName : String := "DYNVIEW_DYNAMIC_BRANCHES"

def lowered (s : String) : String := String.ofList (s.toList.map Char.toLower)

/-- A spelling of yes or no in any case; an empty text means no. -/
def parse? (value : String) : Option Bool :=
  let word := lowered (Text.trim value)
  if ["1", "true", "yes", "on"].contains word then some true
  else if ["0", "false", "no", "off", ""].contains word then some false
  else none

def ofVariable (value? : Option String) : Bool := (value?.bind parse?).getD false

/-- A direct request decides, then the project, then the environment. -/
def resolve (request project : Option Bool) (environment : Bool) : Bool :=
  (request.or project).getD environment

end StepGraph.Flag
