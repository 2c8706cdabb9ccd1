import StepGraph.Proofs.Graph.Entries

/-!
What a flat numbering reads of a tree: the steps outside of forks, and of every top-level fork the
steps that it stands for. Ids and names of forks and paths, the default path, how deep forks stand
inside each other and, where no lanes decide the order, the kind of a fork change nothing: not the
graph, and not the fault either.
-/
set_option autoImplicit false

namespace StepGraph

inductive Block where
  | step (step : Interaction)
  | group (steps : List Interaction)

def Block.interactions : Block → List Interaction
  | .step i => [i]
  | .group steps => steps

def Block.numbers (root : Nat) : Block → List (Placed Interaction)
  | .step i => [{ id := .ofSegments root [], content := i }]
  | .group steps => (steps.zipIdx 1).map fun (i, n) => { id := .ofSegments root [n], content := i }

def blockNumbers (root : Nat) (blocks : List Block) : List (Placed Interaction) :=
  (blocks.zipIdx root).flatMap fun (b, n) => b.numbers n

theorem blockNumbers_append (root : Nat) (first last : List Block) :
    blockNumbers root (first ++ last) =
      blockNumbers root first ++ blockNumbers (root + first.length) last := by
  rw [blockNumbers, List.zipIdx_append, List.flatMap_append, blockNumbers, blockNumbers]

def Step.blocks : Step → List Block
  | .single i => [.step i]
  | .chain c => c.members.map .step
  | .fork f paths =>
    if (Step.fork f paths).isVoid then [] else [.group (Step.fork f paths).interactions]

namespace Step

theorem length_blocks (s : Step) : s.blocks.length = s.roots := by
  cases s with
  | single i => rfl
  | chain c => simp [blocks, roots]
  | fork f paths =>
    rw [blocks, roots]
    split <;> rfl

theorem interactions_blocks (s : Step) : s.blocks.flatMap Block.interactions = s.interactions := by
  cases s with
  | single i => rfl
  | chain c => simp [blocks, List.flatMap_map, Block.interactions, interactions]
  | fork f paths =>
    rw [blocks]
    split
    · rename_i hvoid
      rw [isVoid, List.isEmpty_iff] at hvoid
      rw [hvoid, List.flatMap_nil]
    · simp [Block.interactions]

theorem flatNumbers_eq_blockNumbers (root : Nat) (s : Step) :
    s.flatNumbers root = blockNumbers root s.blocks := by
  cases s with
  | single i => rfl
  | chain c =>
    simp [flatNumbers, blockNumbers, blocks, Block.numbers, List.zipIdx_map, List.flatMap_map,
      ← List.map_eq_flatMap]
  | fork f paths =>
    rw [flatNumbers, blocks]
    split
    · rename_i hvoid
      rw [isVoid, List.isEmpty_iff] at hvoid
      simp [hvoid, blockNumbers]
    · simp [blockNumbers, Block.numbers]

end Step

theorem stepInteractions_eq_blocks (steps : List Step) :
    stepInteractions steps = (steps.flatMap Step.blocks).flatMap Block.interactions := by
  rw [stepInteractions_eq_flatMap, List.flatMap_assoc]
  exact List.flatMap_congr fun s _ => s.interactions_blocks.symm

theorem flatNumbers_eq_blockNumbers (root : Nat) (steps : List Step) :
    flatNumbers root steps = blockNumbers root (steps.flatMap Step.blocks) := by
  induction steps generalizing root with
  | nil => rfl
  | cons s rest ih =>
    rw [flatNumbers, List.flatMap_cons, blockNumbers_append, s.length_blocks,
      ← s.flatNumbers_eq_blockNumbers, ih]

theorem View.draw_eq_of_blocks {model : Model} {options : Options} {v : View} {others : List Step}
    (hflat : options.branchAware = false)
    (h : others.flatMap Step.blocks = v.steps.flatMap Step.blocks) :
    ({ v with steps := others } : View).draw model options = v.draw model options := by
  -- The entries are read for the roster and for the numbering, both times through their blocks.
  have hreferenced : referencedElements model others = referencedElements model v.steps := by
    rw [referencedElements, referencedElements, stepInteractions_eq_blocks,
      stepInteractions_eq_blocks, h]
  have hplace (s : Scene) : s.place options.branchAware others =
      s.place options.branchAware v.steps := by
    rw [hflat]
    change s.placeFlat others = s.placeFlat v.steps
    rw [Scene.placeFlat, Scene.placeFlat, flatNumbers_eq_blockNumbers, flatNumbers_eq_blockNumbers,
      h]
  simp only [View.draw, View.drawPlain, hreferenced, hplace]

def Fork.bare (f : Fork) : Fork where
  id := ""
  kind := .parallel
  shadow := if f.lanes.isEmpty then none else some f.lanes

@[simp] theorem Fork.lanes_bare (f : Fork) : f.bare.lanes = f.lanes := by
  have hshadow : f.bare.lanes = f.bare.shadow.getD [] := by
    rw [lanes]
    cases f.bare.shadow <;> rfl
  rw [hshadow, bare]
  cases f.lanes <;> rfl

mutual

def Step.bare : Step → Step
  | .single i => .single i
  | .chain c => .chain c
  | .fork f paths => .fork f.bare (barePaths paths)

def barePaths : List (Path × List Step) → List (Path × List Step)
  | [] => []
  | (_, steps) :: rest => ({ id := "" }, bareSteps steps) :: barePaths rest

def bareSteps : List Step → List Step
  | [] => []
  | s :: rest => s.bare :: bareSteps rest

end

theorem bareSteps_eq_map (steps : List Step) : bareSteps steps = steps.map Step.bare := by
  induction steps with
  | nil => rfl
  | cons s rest ih => rw [bareSteps, ih, List.map_cons]

theorem innerSteps_barePaths (paths : List (Path × List Step)) :
    innerSteps (barePaths paths) = (innerSteps paths).map Step.bare := by
  induction paths with
  | nil => rfl
  | cons p rest ih => simp [barePaths, bareSteps_eq_map, ih]

theorem Step.interactions_bare (s : Step) : s.bare.interactions = s.interactions := by
  induction s using Step.inductOn with
  | single i => rfl
  | chain c => rfl
  | fork f paths ih =>
    rw [bare, interactions_fork, interactions_fork, Fork.lanes_bare, innerSteps_barePaths,
      List.flatMap_map, List.flatMap_congr ih]

theorem Step.blocks_bare (s : Step) : s.bare.blocks = s.blocks := by
  cases s with
  | single i => rfl
  | chain c => rfl
  | fork f paths =>
    have h := interactions_bare (.fork f paths)
    rw [bare] at h ⊢
    rw [blocks, blocks, isVoid, isVoid, h]

/-- The step with a single path for each fork, and in it a chain of what the fork stands for. -/
def Step.levelled : Step → Step
  | .single i => .single i
  | .chain c => .chain c
  | .fork f paths =>
    .fork { id := "", kind := .parallel }
      [({ id := "" }, [.chain { members := (Step.fork f paths).interactions }])]

theorem Step.blocks_levelled (s : Step) : s.levelled.blocks = s.blocks := by
  cases s with
  | single i => rfl
  | chain c => rfl
  | fork f paths =>
    have h : (Step.fork f paths).levelled.interactions = (Step.fork f paths).interactions := by
      rw [levelled, interactions_fork]
      simp [Fork.lanes, interactions]
    rw [levelled] at h ⊢
    rw [blocks, blocks, isVoid, isVoid, h]

/-- Views that differ in their steps alone are drawn the same, or fail the same, if their entries
have the same blocks. They have if their trees are the same but for what is said of forks and paths,
and levelling what is nested leaves the blocks as they are. -/
theorem flat_draw_of_blocks {model : Model} {options : Options} {v : View}
    (hflat : options.branchAware = false) :
    (∀ others : List Step, others.flatMap Step.blocks = v.steps.flatMap Step.blocks →
      ({ v with steps := others } : View).draw model options = v.draw model options) ∧
    (∀ others : List Step, others.map Step.bare = v.steps.map Step.bare →
      ({ v with steps := others } : View).draw model options = v.draw model options) ∧
    ({ v with steps := v.steps.map Step.levelled } : View).draw model options =
      v.draw model options := by
  refine ⟨fun others h => View.draw_eq_of_blocks hflat h, fun others h => ?_, ?_⟩
  · have hbare (steps : List Step) :
        (steps.map Step.bare).flatMap Step.blocks = steps.flatMap Step.blocks := by
      rw [List.flatMap_map]
      exact List.flatMap_congr fun s _ => s.blocks_bare
    refine View.draw_eq_of_blocks hflat ?_
    rw [← hbare others, h, hbare v.steps]
  · refine View.draw_eq_of_blocks hflat ?_
    rw [List.flatMap_map]
    exact List.flatMap_congr fun s _ => s.blocks_levelled

def relabelledSteps : List Step :=
  checkoutView.steps.map fun
    | .fork f paths =>
      .fork { f with id := "order", kind := .parallel, label := some "Order" } paths
    | s => s

theorem flat_draw_of_blocks_checkout :
    ({} : Options).branchAware = false ∧ ∃ g, checkoutView.draw checkoutModel {} = .ok g ∧
      ({ checkoutView with steps := relabelledSteps } : View).draw checkoutModel {} = .ok g ∧
      ({ checkoutView with steps := checkoutView.steps.map Step.levelled } : View).draw
        checkoutModel {} = .ok g := by
  obtain ⟨g, hg, _⟩ := exists_flat_draw_checkout
  obtain ⟨_, hbare, hlevelled⟩ := @flat_draw_of_blocks checkoutModel {} checkoutView rfl
  refine ⟨rfl, g, hg, ?_, ?_⟩
  · rw [hbare relabelledSteps rfl, hg]
  · rw [hlevelled, hg]

end StepGraph
