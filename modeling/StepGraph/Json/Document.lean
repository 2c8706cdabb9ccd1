import StepGraph.Json.Relaxed

/-! Documents: the strict notation is tried first, then the relaxed one. -/
set_option autoImplicit false

namespace StepGraph

inductive DocumentError where
  /-- The text is written in neither notation. -/
  | malformed
  /-- The value has not the fields that were asked for. -/
  | misshapen
  deriving DecidableEq

namespace DocumentError

def message : DocumentError → String
  | malformed => "the document is neither strict nor relaxed JSON"
  | misshapen => "the document does not have the expected fields"

end DocumentError

def Json.ofText? (text : String) : Option Json :=
  match Json.strict.read text with
  | some j => some j
  | none => Json.relaxed.read text

def Json.decodeText {α : Type} (decode : Json → Option α) (text : String) :
    Except DocumentError α :=
  match Json.ofText? text with
  | none => .error .malformed
  | some j => match decode j with
    | none => .error .misshapen
    | some a => .ok a

end StepGraph
