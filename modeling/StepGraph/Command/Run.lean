import StepGraph.Command.Arguments
import StepGraph.Files
import StepGraph.Flag
import StepGraph.Report
import StepGraph.Settings

/-!
A run of the command line. `produce` goes from what was read to the text to be written; `run` reads
and writes a working directory.
-/
set_option autoImplicit false

namespace StepGraph.Command

inductive Failure where
  | file (cause : FileFault)
  | settings (cause : SettingsError)
  | document (cause : DocumentError)
  | unknownView (name : String)
  /-- The report is written, but not all views could be drawn. -/
  | views (first : ViewFault) (failed total : Nat)
  deriving DecidableEq

def Failure.message : Failure → String
  | .file cause => cause.message
  | .settings cause => cause.message
  | .document cause => cause.message
  | .unknownView name => "view '" ++ name ++ "' not found in workspace"
  | .views first failed total =>
    first.message ++ " (" ++ failed.repr ++ " of " ++ total.repr ++ " views failed)"

structure Sources where
  config : Option (Except FileFault String) := none
  input : Except FileFault String
  environment : Option String := none

structure Product where
  text : String
  failure : Option Failure

def settingsOf : Option (Except FileFault String) → Except Failure Settings
  | none => .ok {}
  | some (.error cause) => .error (.file cause)
  | some (.ok text) => (Settings.ofText text).mapError .settings

def selectViews (w : Workspace) (names : List String) : Except Failure (List View) :=
  if names.isEmpty then .ok w.views
  else names.mapM fun name => match w.view? name with
    | some v => .ok v
    | none => .error (.unknownView name)

/-- The switch is set by the arguments, the configuration, the workspace or the environment. -/
def branchAware (a : Arguments) (s : Settings) (w : Workspace) (environment : Option String) :
    Bool :=
  Flag.resolve a.branchRequest (s.branchAware.or w.project.branchAware)
    (Flag.ofVariable environment)

def reportFailure (faults : List ViewFault) (total : Nat) : Option Failure :=
  match faults with
  | [] => none
  | first :: _ => some (.views first faults.length total)

def produce (a : Arguments) (sources : Sources) : Except Failure Product := do
  let settings ← settingsOf sources.config
  let text ← sources.input.mapError .file
  let w ← (Workspace.ofText text).mapError .document
  let views ← selectViews w a.views
  let options : Options :=
    { branchAware := branchAware a settings w sources.environment, theme := settings.theme }
  let report := Report.ofViews w.model views options
  let pretty := settings.pretty && !a.compact
  return {
    text := report.toJson.render pretty ++ "\n"
    failure := reportFailure report.faults views.length }

/-- A lone hyphen; empty segments and dots after it do not count. -/
def isStandard (path : String) : Bool :=
  match Files.segments path with
  | "-" :: rest => rest.all fun s => s = "" || s = "."
  | _ => false

def inputFile (a : Arguments) : Option String := a.input.filter (!isStandard ·)

structure Outcome where
  code : Nat
  stdout : String := ""
  message : Option String := none
  files : Files

/-- The usage line names the program as it was called. -/
def helpText (program : String) : String :=
  "Lower dynamic views into computed node/edge graphs\n\n" ++
  "Usage: " ++ program ++ " [OPTIONS]\n\nOptions:\n" ++
  "  -i, --input <INPUT>          Workspace file (.json/.json5) or '-' for stdin\n" ++
  "  -o, --output <OUTPUT>        Output file. Defaults to stdout if omitted\n" ++
  "  -c, --configFile <CONFIG>    Config file (JSON or JSON5)\n" ++
  "      --view <VIEWS>           Only compute the named view(s)\n" ++
  "      --branches               Force branch-aware lowering on\n" ++
  "      --no-branches            Force legacy lowering\n" ++
  "      --compact                Compact JSON output\n" ++
  "      --log-level <LOG_LEVEL>  Log level written to stderr (error, warn, info, debug, trace) " ++
  "[default: warn]\n" ++
  "  -h, --help                   Print help\n" ++
  "  -V, --version                Print version\n"

def ownName : String := "dynview"

def versionText : String := ownName ++ " 0.1.0\n"

def failed (stdout : String) (files : Files) (failure : Failure) : Outcome :=
  { code := 1, stdout, message := some failure.message, files }

def finished (stdout : String) (files : Files) : Option Failure → Outcome
  | none => { code := 0, stdout, files }
  | some failure => failed stdout files failure

def sourcesIn (a : Arguments) (files : Files) (stdin : String) (environment : Option String) :
    Sources where
  config := a.config.map files.read
  input := match inputFile a with
    | some path => files.read path
    | none => .ok stdin
  environment

def execute (a : Arguments) (files : Files) (stdin : String) (environment : Option String) :
    Outcome :=
  match produce a (sourcesIn a files stdin environment) with
  | .error failure => failed "" files failure
  | .ok product => match a.output with
    | none => finished product.text files product.failure
    | some path => match files.write path product.text with
      | .error cause => failed "" files (.file cause)
      | .ok files => finished "" files product.failure

/-- A run of the program called `program` in a working directory. A mistake in the arguments ends it
with code 2. -/
def run (program : String) (arguments : List String) (files : Files) (stdin : String)
    (environment : Option String) : Outcome :=
  match parse arguments with
  | .error error => { code := 2, message := some error.message, files }
  | .ok .help => { code := 0, stdout := helpText program, files }
  | .ok .version => { code := 0, stdout := versionText, files }
  | .ok (.run a) => execute a files stdin environment

end StepGraph.Command
