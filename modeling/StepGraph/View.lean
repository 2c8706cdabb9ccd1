import StepGraph.Model
import StepGraph.Step

/-! Views as they are declared: rules that select and style elements, and a tree of steps. -/
set_option autoImplicit false

namespace StepGraph

inductive Layout where
  | topBottom
  | bottomTop
  | leftRight
  | rightLeft
  deriving DecidableEq

inductive Variant where
  | diagram
  | sequence
  deriving DecidableEq

structure StyleRule where
  targets : List String
  patch : StylePatch := {}

inductive Rule where
  | including (expressions : List String)
  | excluding (expressions : List String)
  | styling (rule : StyleRule)

structure View where
  id : String
  title : Option String := none
  description : Option String := none
  tags : List String := []
  rules : List Rule := []
  steps : List Step := []
  layout : Layout := .topBottom
  variant : Variant := .diagram

end StepGraph
