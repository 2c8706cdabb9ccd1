import StepGraph.Name

/-! Why a view cannot be drawn. -/
set_option autoImplicit false

namespace StepGraph

inductive Endpoint where
  | source
  | target
  deriving DecidableEq

def Endpoint.word : Endpoint → String
  | .source => "source"
  | .target => "target"

inductive Fault where
  /-- The model has no element for an endpoint of a step. -/
  | unresolvedReference (reference : Name) (endpoint : Endpoint) (origin : String)
  /-- A rule names an element that the model does not have. -/
  | unknownElement (reference : Name)
  | invalidSelector (expression : String)
  deriving DecidableEq

def Fault.message : Fault → String
  | .unresolvedReference reference endpoint origin =>
    "step " ++ endpoint.word ++ " '" ++ reference.text ++
      "' does not resolve to a model element (at " ++ origin ++ ")"
  | .unknownElement reference => "view rule references unknown element '" ++ reference.text ++ "'"
  | .invalidSelector expression => "invalid element predicate '" ++ expression ++ "'"

structure ViewFault where
  viewId : String
  cause : Fault
  deriving DecidableEq

def ViewFault.message (f : ViewFault) : String :=
  "failed to compute view '" ++ f.viewId ++ "': " ++ f.cause.message

end StepGraph
