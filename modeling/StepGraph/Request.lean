import StepGraph.Flag
import StepGraph.Json.Strict
import StepGraph.Report
import StepGraph.Settings

/-!
Requests by a host program: the text of a workspace and the text of options in, the text of a report
out.
-/
set_option autoImplicit false

namespace StepGraph

open Json Record

structure RequestOptions where
  branchAware : Option Bool := none
  theme : Option String := none
  pretty : Option Bool := none

inductive RequestError where
  | options
  | document (cause : DocumentError)
  | unknownTheme (name : String)
  deriving DecidableEq

def RequestError.message : RequestError → String
  | .options => "the options are no object of known options"
  | .document cause => cause.message
  | .unknownTheme name => unknownThemeMessage name

namespace RequestOptions

def keys : List String := ["dynamicBranches", "theme", "pretty"]

def record : Record RequestOptions := do
  let branchAware ← nullable "dynamicBranches" bool?
  let theme ← nullable "theme" string?
  let pretty ← nullable "pretty" bool?
  return { branchAware, theme, pretty }

/-- Reads the fields after a brace or a comma, up to the closing brace. An option must not be given
twice; of other fields only the form counts. -/
def readFields : Nat → List (String × Json) → List Char →
    Option (List (String × Json) × List Char)
  | 0, _, _ => none
  | fuel + 1, acc, cs => do
    let (key, rest) ← strict.key cs
    let rest ← after? [':'] (strict.skip rest)
    let known := keys.contains key
    let (value, rest) ← (if known then strict else formOnly).value (strict.skip rest)
    if known && acc.any (·.1 == key) then none
    else
      let acc := if known then (key, value) :: acc else acc
      match strict.skip rest with
      | '\x7d' :: rest => some (acc, rest)
      | ',' :: rest => readFields fuel acc (strict.skip rest)
      | _ => none

/-- Options are strict: an object, or an array of all three. -/
def ofText? (text : String) : Option RequestOptions :=
  match strict.skip text.toList with
  | '\x7b' :: rest => match strict.skip rest with
    | '\x7d' :: rest => if strict.ends rest then some {} else none
    | rest => do
      let (fields, rest) ← readFields (rest.length + 1) [] rest
      if strict.ends rest then record.read (.object fields) else none
  | _ => (strict.read text).bind record.read

end RequestOptions

def answer (environment : Bool) (workspace : String) (options? : Option String) :
    Except RequestError String := do
  let options ← match options? with
    | none => .ok {}
    | some text => match RequestOptions.ofText? text with
      | some o => .ok o
      | none => .error .options
  let w ← (Workspace.ofText workspace).mapError .document
  let theme ← (Theme.find options.theme).mapError .unknownTheme
  let branchAware := Flag.resolve options.branchAware w.project.branchAware environment
  return w.render { branchAware, theme } (options.pretty.getD false)

end StepGraph
