import StepGraph.EdgeId
import StepGraph.Step

/-!
The journal of a walk through forks. It holds the levels that are open, and for every path that was
ever entered the ids recorded while it was open.
-/
set_option autoImplicit false

namespace StepGraph

structure Level where
  fork : Fork
  path : Path
  /-- Place of the path in its fork, from one. -/
  index : Nat
  /-- Steps recorded since the level was opened, inner levels included. -/
  count : Nat := 0

structure TrailEntry where
  forkId : String
  pathId : String
  kind : ForkKind
  pathIndex : Nat
  /-- Place of the step in the path, from one. -/
  position : Nat
  pathName : Option String
  pathTitle : Option String
  isDefault : Bool

structure PathRecord where
  path : Path
  index : Nat
  ids : List EdgeId := []

structure ForkRecord where
  fork : Fork
  paths : List PathRecord := []

structure PathSummary where
  pathId : String
  index : Nat
  isDefault : Bool
  name : Option String
  title : Option String
  description : Option String
  tags : Option (List String)
  edgeIds : List EdgeId

structure ForkSummary where
  forkId : String
  kind : ForkKind
  label : Option String
  defaultPath : Option String
  paths : List PathSummary

/-- Open levels stand innermost first, forks and paths in the order of their first entry. -/
structure Journal where
  levels : List Level := []
  forks : List ForkRecord := []

def Level.trailEntry (l : Level) : TrailEntry where
  forkId := l.fork.id
  pathId := l.path.id
  kind := l.fork.kind
  pathIndex := l.index
  position := l.count + 1
  pathName := l.path.name
  pathTitle := l.path.title
  isDefault := l.fork.isDefault l.path

namespace ForkRecord

/-- A path of the same id keeps its first entry. -/
def enterPath (l : Level) (r : ForkRecord) : ForkRecord :=
  if r.paths.any (·.path.id == l.path.id) then r
  else { r with paths := r.paths ++ [{ path := l.path, index := l.index }] }

def record (l : Level) (id : EdgeId) (r : ForkRecord) : ForkRecord :=
  { r with paths := r.paths.map fun p =>
      if p.path.id == l.path.id then { p with ids := p.ids ++ [id] } else p }

def pathSummary (fork : Fork) (p : PathRecord) : PathSummary where
  pathId := p.path.id
  index := p.index
  isDefault := fork.isDefault p.path
  name := p.path.name
  title := p.path.title
  description := p.path.description
  tags := p.path.tags
  edgeIds := p.ids

/-- Paths stand by index; those of one index in the order of their first entry. -/
def summary (r : ForkRecord) : ForkSummary where
  forkId := r.fork.id
  kind := r.fork.kind
  label := r.fork.label
  defaultPath := r.fork.defaultPath
  paths := (r.paths.map (pathSummary r.fork)).mergeSort fun p q => p.index ≤ q.index

end ForkRecord

namespace Journal

def isIdle (j : Journal) : Bool := j.levels.isEmpty

def enterFork (l : Level) : List ForkRecord → List ForkRecord
  | [] => [ForkRecord.enterPath l { fork := l.fork }]
  | r :: rest => if r.fork.id == l.fork.id then r.enterPath l :: rest else r :: enterFork l rest

def enter (l : Level) (j : Journal) : Journal where
  levels := l :: j.levels
  forks := enterFork l j.forks

def leave (j : Journal) : Option Level × Journal :=
  match j.levels with
  | [] => (none, j)
  | l :: outer => (some l, { j with levels := outer })

theorem levels_leave (j : Journal) : j.leave.2.levels = j.levels.tail := by
  rw [leave]
  split <;> simp_all

theorem forks_leave (j : Journal) : j.leave.2.forks = j.forks := by
  rw [leave]
  split <;> rfl

def recordOn (id : EdgeId) (forks : List ForkRecord) (l : Level) : List ForkRecord :=
  forks.map fun r => if r.fork.id == l.fork.id then r.record l id else r

def record (id : EdgeId) (j : Journal) : Journal :=
  { j with forks := j.levels.foldl (recordOn id) j.forks }

/-- Counts a step on every open level. Counts are machine words, and a full one starts over. -/
def advance (j : Journal) : Journal :=
  { j with levels := j.levels.map fun l => { l with count := (l.count + 1) % UInt64.size } }

/-- The same for counts that never run full, as those of a walk, which begin at zero. -/
def tally (j : Journal) : Journal :=
  { j with levels := j.levels.map fun l => { l with count := l.count + 1 } }

theorem tally_eq_advance {j : Journal} (h : ∀ l ∈ j.levels, l.count + 1 < UInt64.size) :
    j.tally = j.advance := by
  rw [tally, advance, Journal.mk.injEq]
  refine ⟨List.map_congr_left fun l hl => ?_, rfl⟩
  rw [Nat.mod_eq_of_lt (h l hl)]

def nextPosition (j : Journal) : Nat :=
  match j.levels with
  | [] => 1
  | l :: _ => l.count + 1

def trailAt (j : Journal) (position : Nat) : Option (List TrailEntry) :=
  match j.levels with
  | [] => none
  | l :: outer => some ({ l.trailEntry with position } :: outer.map (·.trailEntry)).reverse

def trail (j : Journal) : Option (List TrailEntry) := j.trailAt j.nextPosition

/-- The id of a step at `position`: one segment for each open level, then the position. -/
def idAt (root : Nat) (j : Journal) (position : Nat) : EdgeId :=
  if j.isIdle then .ofSegments root []
  else .ofSegments root ((j.levels.map (·.index)).reverse ++ [position])

def nextId (root : Nat) (j : Journal) : EdgeId := j.idAt root j.nextPosition

/-- Every fork that was entered, in the order of the first entries; none while a level is open. -/
def summary? (j : Journal) : Option (List ForkSummary) :=
  if j.isIdle then some (j.forks.map (·.summary)) else none

end Journal

end StepGraph
