import StepGraph.Name

/-!
Trees of steps. A step is a single interaction, a chain of them, or a fork into paths that hold
further steps. `Step.interactions` lists what a step stands for.
-/
set_option autoImplicit false

namespace StepGraph

structure Interaction where
  source : Name
  target : Name
  title : Option String := none
  description : Option String := none
  technology : Option String := none
  kind : Option String := none
  /-- Under which the look of the step is explained. -/
  legend : Option String := none
  notes : Option String := none
  color : Option String := none
  line : Option String := none
  head : Option String := none
  tail : Option String := none
  isBackward : Bool := false
  navigateTo : Option String := none
  /-- Where the step stands in its source document. -/
  origin : String := ""

structure Chain where
  members : List Interaction
  origin : String := ""

inductive Lane where
  | single (step : Interaction)
  | chain (steps : Chain)

def Lane.interactions : Lane → List Interaction
  | .single i => [i]
  | .chain c => c.members

inductive ForkKind where
  | parallel
  | alternate
  deriving DecidableEq

structure Path where
  id : String
  name : Option String := none
  title : Option String := none
  description : Option String := none
  tags : Option (List String) := none
  origin : String := ""

structure Fork where
  id : String
  kind : ForkKind
  defaultPath : Option String := none
  label : Option String := none
  /-- The flat list of a parallel block that was written as one. -/
  shadow : Option (List Lane) := none
  origin : String := ""

/-- The lanes that decide the order of a flat parallel block; other forks have none. -/
def Fork.lanes (f : Fork) : List Lane :=
  match f.kind, f.shadow with
  | .parallel, some lanes => lanes
  | _, _ => []

def Fork.isDefault (f : Fork) (p : Path) : Bool := f.defaultPath == some p.id

inductive Step where
  | single (step : Interaction)
  | chain (steps : Chain)
  | fork (fork : Fork) (paths : List (Path × List Step))

/-- The first step of every lane, then the other steps lane by lane. -/
def headsFirst (lanes : List Lane) : List Interaction :=
  lanes.flatMap (·.interactions.take 1) ++ lanes.flatMap (·.interactions.drop 1)

mutual

def Step.interactions : Step → List Interaction
  | .single i => [i]
  | .chain c => c.members
  | .fork f paths => if f.lanes.isEmpty then pathInteractions paths else headsFirst f.lanes

def pathInteractions : List (Path × List Step) → List Interaction
  | [] => []
  | (_, steps) :: rest => stepInteractions steps ++ pathInteractions rest

def stepInteractions : List Step → List Interaction
  | [] => []
  | s :: rest => s.interactions ++ stepInteractions rest

end

@[simp] theorem stepInteractions_eq_flatMap (steps : List Step) :
    stepInteractions steps = steps.flatMap Step.interactions := by
  induction steps <;> simp_all [stepInteractions]

@[simp] theorem pathInteractions_eq_flatMap (paths : List (Path × List Step)) :
    pathInteractions paths = paths.flatMap fun p => stepInteractions p.2 := by
  induction paths <;> simp_all [pathInteractions]

/-- The step stands for nothing. -/
def Step.isVoid (s : Step) : Bool := s.interactions.isEmpty

def Lane.toStep : Lane → Step
  | .single i => .single i
  | .chain c => .chain c

def lanePaths (id : String) (n : Nat) : List Lane → List (Path × List Step)
  | [] => []
  | lane :: rest => ({ id := id ++ "-path-" ++ n.repr }, [lane.toStep]) :: lanePaths id (n + 1) rest

/-- A parallel block written as a flat list: every lane is a path of its own. -/
def flatFork (id : String) (lanes : List Lane) : Fork × List (Path × List Step) :=
  ({ id, kind := .parallel, shadow := some lanes }, lanePaths id 1 lanes)

end StepGraph
