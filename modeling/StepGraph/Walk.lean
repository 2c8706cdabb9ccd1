import StepGraph.Fault
import StepGraph.Journal

/-!
The two ways in which the steps of a view are numbered. A flat numbering lists what every top-level
entry stands for. A walk goes through the paths of every fork and keeps a journal; the ids it gives
out carry one segment for each open level.
-/
set_option autoImplicit false

namespace StepGraph

structure Placed (α : Type) where
  id : EdgeId
  trail : Option (List TrailEntry) := none
  content : α

/-- How many root numbers an entry takes: one for a step, one for each member of a chain, and one for
a fork that is not void. -/
def Step.roots : Step → Nat
  | .single _ => 1
  | .chain c => c.members.length
  | .fork f paths => if (Step.fork f paths).isVoid then 0 else 1

def Step.flatNumbers (root : Nat) : Step → List (Placed Interaction)
  | .single i => [{ id := .ofSegments root [], content := i }]
  | .chain c => (c.members.zipIdx root).map fun (i, n) => { id := .ofSegments n [], content := i }
  | .fork f paths => ((Step.fork f paths).interactions.zipIdx 1).map fun (i, n) =>
    { id := .ofSegments root [n], content := i }

def flatNumbers (root : Nat) : List Step → List (Placed Interaction)
  | [] => []
  | s :: rest => s.flatNumbers root ++ flatNumbers (root + s.roots) rest

inductive Visit where
  | enter (fork : Fork) (path : Path) (index : Nat)
  | meet (step : Interaction)
  | leave

mutual

/-- The walk through one step; void forks are passed by. -/
def Step.visits : Step → List Visit
  | .single i => [.meet i]
  | .chain c => c.members.map .meet
  | .fork f paths => if (Step.fork f paths).isVoid then [] else pathVisits f 1 paths

def pathVisits (f : Fork) (n : Nat) : List (Path × List Step) → List Visit
  | [] => []
  | (p, steps) :: rest => .enter f p n :: (stepVisits steps ++ .leave :: pathVisits f (n + 1) rest)

def stepVisits : List Step → List Visit
  | [] => []
  | s :: rest => s.visits ++ stepVisits rest

end

def Step.rootVisits (root : Nat) : Step → List (Nat × Visit)
  | .single i => [(root, .meet i)]
  | .chain c => (c.members.zipIdx root).map fun (i, n) => (n, .meet i)
  | .fork f paths => (Step.fork f paths).visits.map (root, ·)

def rootVisits (root : Nat) : List Step → List (Nat × Visit)
  | [] => []
  | s :: rest => s.rootVisits root ++ rootVisits (root + s.roots) rest

/-- How far a walk has come. After a failure it places nothing more but still closes its levels. -/
structure Walk (α : Type) where
  journal : Journal := {}
  placed : List (Placed α) := []
  failure : Option Fault := none

/-- The first position from `position` on whose id is free, at most `fuel` positions further. -/
def freePosition (taken : EdgeId → Bool) (idAt : Nat → EdgeId) : Nat → Nat → Nat
  | 0, position => position
  | fuel + 1, position =>
    if taken (idAt position) then freePosition taken idAt fuel (position + 1) else position

namespace Walk

variable {α : Type}

def isTaken (w : Walk α) (id : EdgeId) : Bool := w.placed.any (·.id == id)

/-- Forks that follow on each other in one path count from one again, so a position may be taken;
no more than the ids given out can be. -/
def position (root : Nat) (w : Walk α) : Nat :=
  freePosition w.isTaken (w.journal.idAt root) w.placed.length w.journal.nextPosition

def place (root : Nat) (a : α) (w : Walk α) : Walk α :=
  let position := w.position root
  let id := w.journal.idAt root position
  { w with
    journal := (w.journal.record id).tally
    placed := w.placed ++ [{ id, trail := w.journal.trailAt position, content := a }] }

def meet (resolve : Interaction → Except Fault α) (root : Nat) (i : Interaction)
    (w : Walk α) : Walk α :=
  match w.failure, resolve i with
  | some _, _ => w
  | none, .error fault => { w with failure := some fault }
  | none, .ok a => w.place root a

def visit (resolve : Interaction → Except Fault α) (w : Walk α) : Nat × Visit → Walk α
  | (_, .enter fork path index) => { w with journal := w.journal.enter { fork, path, index } }
  | (root, .meet i) => w.meet resolve root i
  | (_, .leave) => { w with journal := w.journal.leave.2 }

def run (resolve : Interaction → Except Fault α) (visits : List (Nat × Visit)) (w : Walk α) :
    Walk α := visits.foldl (visit resolve) w

@[simp] theorem run_nil (resolve : Interaction → Except Fault α) (w : Walk α) :
    run resolve [] w = w := rfl

@[simp] theorem run_cons (resolve : Interaction → Except Fault α) (v : Nat × Visit)
    (visits : List (Nat × Visit)) (w : Walk α) :
    run resolve (v :: visits) w = run resolve visits (w.visit resolve v) := rfl

@[simp] theorem run_append (resolve : Interaction → Except Fault α)
    (first second : List (Nat × Visit)) (w : Walk α) :
    run resolve (first ++ second) w = run resolve second (run resolve first w) :=
  List.foldl_append

end Walk

end StepGraph
