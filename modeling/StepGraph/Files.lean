import StepGraph.Text.Pieces

/-!
A working directory of text files. Paths go from directory to directory. Directories are there for
the files in them, but for the working directory, those above it and the root, which are always
there. A place is what a path leads to; it begins with `..` once for every directory it is above the
working directory, or with `/` at the root.
-/
set_option autoImplicit false

namespace StepGraph

inductive FileFault where
  | notFound
  | isDirectory
  | notDirectory
  | nameTooLong
  /-- No path may hold the null character. -/
  | nullInPath
  | other (text : String)
  deriving DecidableEq

def FileFault.message : FileFault → String
  | .notFound => "No such file or directory (os error 2)"
  | .isDirectory => "Is a directory (os error 21)"
  | .notDirectory => "Not a directory (os error 20)"
  | .nameTooLong => "File name too long (os error 36)"
  | .nullInPath => "file name contained an unexpected NUL byte"
  | .other text => text

structure Files where
  entries : List (List String × String) := []

namespace Files

def segments (path : String) : List String :=
  (Text.pieces (· == '/') path.toList).map String.ofList

def isFile (f : Files) (place : List String) : Bool := f.entries.any (·.1 == place)

/-- The working directory, one above it or the root. -/
def isFixed (place : List String) : Bool := place.all fun s => s == ".." || s == "/"

def isDirectory (f : Files) (place : List String) : Bool :=
  isFixed place || f.entries.any fun e => place.isPrefixOf e.1 && e.1 != place

def isDots (segment : String) : Bool := ["", ".", ".."].contains segment

/-- Names have at most 255 bytes. -/
def isLongName (segment : String) : Bool := 255 < segment.utf8ByteSize

/-- Where a segment leads from a directory. Nothing is above the root. -/
def step (place : List String) (segment : String) : List String :=
  if !isDots segment then place ++ [segment]
  else if segment != ".." || place == ["/"] then place
  else if isFixed place then place ++ [".."] else place.dropLast

def follow (f : Files) (place : List String) : List String → Except FileFault (List String)
  | [] => .ok place
  | s :: rest =>
    let next := step place s
    if !f.isDirectory place then .error .notDirectory
    else if isLongName s then .error .nameTooLong
    else if f.isFile next || f.isDirectory next then f.follow next rest
    else .error .notFound

def start (path : String) : List String × List String :=
  match segments path with
  | "" :: rest => (["/"], rest)
  | segments => ([], segments)

def start? (path : String) : Except FileFault (List String × List String) :=
  if path.contains '\x00' then .error .nullInPath
  else if path = "" then .error .notFound
  else if 4096 ≤ path.utf8ByteSize then .error .nameTooLong
  else .ok (start path)

def read (f : Files) (path : String) : Except FileFault String := do
  let (origin, parts) ← start? path
  let place ← f.follow origin parts
  if f.isDirectory place then .error .isDirectory
  else match f.entries.lookup place with
    | some text => .ok text
    | none => .error .notFound

def setEntry (place : List String) (text : String) :
    List (List String × String) → List (List String × String)
  | [] => [(place, text)]
  | (p, t) :: rest =>
    if p = place then (place, text) :: rest else (p, t) :: setEntry place text rest

/-- Creates or replaces a file; its directory must be there. -/
def write (f : Files) (path text : String) : Except FileFault Files := do
  let (origin, parts) ← start? path
  let named := (parts.reverse.dropWhile (· == "")).reverse
  let last := named.getLast?.getD ""
  let place ← f.follow origin named.dropLast
  if !f.isDirectory place then .error .notDirectory
  else if isDots last || parts.getLast? == some "" then .error .isDirectory
  else if isLongName last then .error .nameTooLong
  else if f.isDirectory (place ++ [last]) then .error .isDirectory
  else .ok { entries := setEntry (place ++ [last]) text f.entries }

/-- The files with these paths; of two with one path the last counts. -/
def ofList (named : List (String × String)) : Files :=
  named.foldl (fun f (path, text) =>
    let (origin, parts) := start path
    { entries := setEntry (parts.foldl step origin) text f.entries }) {}

end Files

end StepGraph
