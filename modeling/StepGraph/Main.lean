import StepGraph.Command.Run

/-! The command line program: it reads, calls `produce` and writes. -/
set_option autoImplicit false

namespace StepGraph.Command

def fileFault (e : IO.Error) : FileFault :=
  match e with
  | .noFileOrDirectory .. => .notFound
  | .inappropriateType .. => .isDirectory
  | e => .other (toString e)

def readFile (path : String) : IO (Except FileFault String) := do
  try
    return .ok (← IO.FS.readFile path)
  catch e => return .error (fileFault e)

def readInput (a : Arguments) : IO (Except FileFault String) := do
  match inputFile a with
  | some path => readFile path
  | none =>
    let bytes ← (← IO.getStdin).readBinToEnd
    match String.fromUTF8? bytes with
    | some text => return .ok text
    | none => return .error (.other "stream did not contain valid UTF-8")

def writeOutput (a : Arguments) (text : String) : IO (Except FileFault Unit) := do
  match a.output with
  | none =>
    let stdout ← IO.getStdout
    stdout.putStr text
    stdout.flush
    return .ok ()
  | some path =>
    try
      IO.FS.writeFile path text
      return .ok ()
    catch e => return .error (fileFault e)

def complain (failure : Failure) : IO UInt32 := do
  IO.eprintln ("error: " ++ failure.message)
  return 1

/-- The input is not read where the configuration has a fault. -/
def perform (a : Arguments) : IO UInt32 := do
  let config ← a.config.mapM readFile
  match settingsOf config with
  | .error failure => complain failure
  | .ok _ =>
    let input ← readInput a
    let environment ← IO.getEnv Flag.variableName
    match produce a { config, input, environment } with
    | .error failure => complain failure
    | .ok product => match ← writeOutput a product.text with
      | .error cause => complain (.file cause)
      | .ok () => match product.failure with
        | some failure => complain failure
        | none => return 0

end StepGraph.Command

open StepGraph.Command in
def main (arguments : List String) : IO UInt32 := do
  match parse arguments with
  | .error error =>
    IO.eprintln ("error: " ++ error.message)
    return 2
  | .ok .help =>
    IO.print (helpText ((← IO.appPath).fileName.getD ownName))
    return 0
  | .ok .version =>
    IO.print versionText
    return 0
  | .ok (.run a) => perform a
