/-!
The arguments of the command line. Options are read from left to right, so that the first mistake,
or the first request for help, decides.
-/
set_option autoImplicit false

namespace StepGraph.Command

structure Arguments where
  input : Option String := none
  output : Option String := none
  config : Option String := none
  views : List String := []
  branches : Bool := false
  noBranches : Bool := false
  compact : Bool := false
  logLevel : Option String := none

def Arguments.branchRequest (a : Arguments) : Option Bool :=
  if a.branches then some true else if a.noBranches then some false else none

inductive UsageError where
  | unknown (argument : String)
  | missingValue (option : String)
  | unexpectedValue (option : String)
  | repeated (option : String)
  | conflict
  deriving DecidableEq

def UsageError.message : UsageError → String
  | .unknown argument => "unexpected argument '" ++ argument ++ "' found"
  | .missingValue option => "a value is required for '" ++ option ++ "' but none was supplied"
  | .unexpectedValue option => "no value is expected for '" ++ option ++ "'"
  | .repeated option => "the argument '" ++ option ++ "' cannot be used multiple times"
  | .conflict => "the argument '--branches' cannot be used with '--no-branches'"

inductive Invocation where
  | run (arguments : Arguments)
  | help
  | version

inductive ValueOption where
  | input
  | output
  | config
  | view
  | logLevel
  deriving DecidableEq

inductive Switch where
  | branches
  | noBranches
  | compact
  | help
  | version
  deriving DecidableEq

def ValueOption.flag : ValueOption → String
  | .input => "--input"
  | .output => "--output"
  | .config => "--configFile"
  | .view => "--view"
  | .logLevel => "--log-level"

def Switch.flag : Switch → String
  | .branches => "--branches"
  | .noBranches => "--no-branches"
  | .compact => "--compact"
  | .help => "--help"
  | .version => "--version"

def valueOptions : List ValueOption := [.input, .output, .config, .view, .logLevel]

def switches : List Switch := [.branches, .noBranches, .compact, .help, .version]

def long? (flag : String) : Option (ValueOption ⊕ Switch) :=
  match valueOptions.find? (·.flag == flag), switches.find? (·.flag == flag) with
  | some o, _ => some (.inl o)
  | none, some s => some (.inr s)
  | none, none => none

def short? : Char → Option (ValueOption ⊕ Switch)
  | 'i' => some (.inl .input)
  | 'o' => some (.inl .output)
  | 'c' => some (.inl .config)
  | 'h' => some (.inr .help)
  | 'V' => some (.inr .version)
  | _ => none

def once (o : ValueOption) (old : Option String) (value : String) :
    Except UsageError (Option String) :=
  if old.isSome then .error (.repeated o.flag) else .ok (some value)

def onePath (o : ValueOption) (old : Option String) (value : String) :
    Except UsageError (Option String) :=
  if value = "" then .error (.missingValue o.flag) else once o old value

def Arguments.set (a : Arguments) (o : ValueOption) (value : String) :
    Except UsageError Arguments :=
  match o with
  | .input => do return { a with input := ← onePath o a.input value }
  | .output => do return { a with output := ← onePath o a.output value }
  | .config => do return { a with config := ← onePath o a.config value }
  | .view => .ok { a with views := a.views ++ [value] }
  | .logLevel => do return { a with logLevel := ← once o a.logLevel value }

/-- Turns a switch on; help and version end the reading. -/
def Arguments.turn (a : Arguments) (s : Switch) : Except UsageError (Arguments ⊕ Invocation) :=
  match s with
  | .branches => if a.branches then .error (.repeated s.flag)
    else .ok (.inl { a with branches := true })
  | .noBranches => if a.noBranches then .error (.repeated s.flag)
    else .ok (.inl { a with noBranches := true })
  | .compact => if a.compact then .error (.repeated s.flag)
    else .ok (.inl { a with compact := true })
  | .help => .ok (.inr .help)
  | .version => .ok (.inr .version)

inductive Token where
  /-- An option, with the value attached to it if there is one. -/
  | option (option : ValueOption) (value? : Option String)
  | switch (switch : Switch)
  /-- Two hyphens: no options follow. -/
  | stop
  | invalid (error : UsageError)

def longToken (argument : List Char) : Token :=
  let flag := String.ofList (argument.takeWhile (· != '='))
  let value? := match argument.dropWhile (· != '=') with
    | [] => none
    | _ :: value => some (String.ofList value)
  match long? flag, value? with
  | some (.inl o), value? => .option o value?
  | some (.inr s), none => .switch s
  | some (.inr s), some _ => .invalid (.unexpectedValue s.flag)
  | none, _ => .invalid (.unknown flag)

/-- A letter; a value may follow it, after an equals sign or not. -/
def shortToken (letter : Char) (value : List Char) : Token :=
  match short? letter with
  | some (.inl o) => match value with
    | [] => .option o none
    | '=' :: value => .option o (some (String.ofList value))
    | value => .option o (some (String.ofList value))
  | some (.inr s) => .switch s
  | none => .invalid (.unknown (String.ofList ['-', letter]))

def isOptionLike (argument : String) : Bool :=
  match argument.toList with
  | '-' :: _ :: _ => true
  | _ => false

def Token.of (argument : String) : Token :=
  match argument.toList with
  | ['-', '-'] => .stop
  | '-' :: '-' :: _ => longToken argument.toList
  | '-' :: letter :: value => shortToken letter value
  | _ => .invalid (.unknown argument)

def readArguments (a : Arguments) : List String → Except UsageError Invocation
  | [] => if a.branches && a.noBranches then .error .conflict else .ok (.run a)
  | argument :: rest =>
    match Token.of argument, rest with
    | .invalid error, _ => .error error
    | .stop, [] => readArguments a []
    | .stop, extra :: _ => .error (.unknown extra)
    | .switch s, rest => match a.turn s with
      | .error error => .error error
      | .ok (.inr invocation) => .ok invocation
      | .ok (.inl a) => readArguments a rest
    | .option o (some value), rest => match a.set o value with
      | .error error => .error error
      | .ok a => readArguments a rest
    | .option o none, [] => .error (.missingValue o.flag)
    | .option o none, value :: rest =>
      if isOptionLike value then .error (.missingValue o.flag)
      else match a.set o value with
        | .error error => .error error
        | .ok a => readArguments a rest

def parse (arguments : List String) : Except UsageError Invocation := readArguments {} arguments

end StepGraph.Command
