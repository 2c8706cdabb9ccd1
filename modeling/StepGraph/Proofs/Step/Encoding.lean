import StepGraph.Proofs.Json.Restoring
import StepGraph.Proofs.Step
import StepGraph.Step.Encoding

/-!
Steps read back as they were written. A step nests less deep than the value written for it, so the
depth of the value is enough to read all steps inside.
-/
set_option autoImplicit false

namespace StepGraph

open Json Record

namespace Json

theorem depth_le_depthItems {j : Json} {items : List Json} (h : j ∈ items) :
    j.depth ≤ depthItems items := by
  induction items with
  | nil => exact absurd h List.not_mem_nil
  | cons i items ih =>
    rw [depthItems]
    obtain rfl | h := List.mem_cons.mp h
    · exact Nat.le_max_left _ _
    · exact Nat.le_trans (ih h) (Nat.le_max_right _ _)

theorem depth_le_depthFields {key : String} {j : Json} {fields : List (String × Json)}
    (h : (key, j) ∈ fields) : j.depth ≤ depthFields fields := by
  induction fields with
  | nil => exact absurd h List.not_mem_nil
  | cons f fields ih =>
    obtain ⟨k, i⟩ := f
    rw [depthFields]
    obtain h | h := List.mem_cons.mp h
    · cases h
      exact Nat.le_max_left _ _
    · exact Nat.le_trans (ih h) (Nat.le_max_right _ _)

theorem depth_lt_array {j : Json} {items : List Json} (h : j ∈ items) :
    j.depth < (Json.array items).depth := by
  rw [depth]
  exact Nat.lt_succ_of_le (depth_le_depthItems h)

theorem depth_lt_object {key : String} {j : Json} {fields : List (String × Json)}
    (h : (key, j) ∈ fields) : j.depth < (Json.object fields).depth := by
  rw [depth]
  exact Nat.lt_succ_of_le (depth_le_depthFields h)

end Json

theorem Name.restores : Restores Name.ofJson? Name.toJson := ⟨fun _ => rfl, rfl⟩

theorem Interaction.restores : Restores Interaction.ofJson? Interaction.toJson where
  decode_encode i := Takes.read_object <|
    .bind (takes_required Name.restores rfl) <|
    .bind (takes_required Name.restores rfl) <|
    .bind (takes_nullable restores_string rfl) <|
    .bind (takes_nullable restores_string rfl) <|
    .bind (takes_nullable restores_string rfl) <|
    .bind (takes_nullable restores_string rfl) <|
    .bind (takes_nullable restores_string rfl) <|
    .bind (takes_nullable restores_string rfl) <|
    .bind (takes_nullable restores_string rfl) <|
    .bind (takes_nullable restores_string rfl) <|
    .bind (takes_nullable restores_string rfl) <|
    .bind (takes_nullable restores_string rfl) <|
    .bind (takes_defaulted restores_bool rfl) <|
    .bind (takes_nullable restores_string rfl) <|
    .bind (takes_defaulted restores_string rfl) (takes_pure i)
  decode_null := rfl

theorem Chain.restores : Restores Chain.ofJson? Chain.toJson where
  decode_encode c := Takes.read_object <|
    .bind (takes_required Interaction.restores.list rfl) <|
    .bind (takes_defaulted restores_string rfl) (takes_pure c)
  decode_null := rfl

theorem Lane.restores : Restores Lane.ofJson? Lane.toJson where
  decode_encode lane := by
    cases lane with
    | single i => exact congrArg (Option.map Lane.single) (Interaction.restores.decode_encode i)
    | chain c => exact congrArg (Option.map Lane.chain) (Chain.restores.decode_encode c)
  decode_null := rfl

theorem ForkKind.restores : Restores ForkKind.ofJson? ForkKind.toJson where
  decode_encode k := by cases k <;> rfl
  decode_null := rfl

section

variable {α : Type} {decode : Json → Option α} {j : Json} {a : α}

theorem Path.read_toJson (p : Path) (h : decode j = some a) :
    (Path.record decode).read (p.toJson j) = some (p, a) :=
  Takes.read_object <|
    .bind (takes_required restores_string rfl) <|
    .bind (takes_nullable restores_string rfl) <|
    .bind (takes_nullable restores_string rfl) <|
    .bind (takes_nullable restores_string rfl) <|
    .bind (takes_nullable restores_strings rfl) <|
    .bind (takes_required_of rfl h) <|
    .bind (takes_defaulted restores_string rfl) (takes_pure (p, a))

theorem Fork.read_toJson (f : Fork) (h : decode j = some a) :
    (Fork.record decode).read (f.toJson j) = some (f, a) :=
  Takes.read_object <|
    .bind (takes_required restores_string rfl) <|
    .bind (takes_required ForkKind.restores rfl) <|
    .bind (takes_nullable restores_string rfl) <|
    .bind (takes_nullable restores_string rfl) <|
    .bind (takes_required_of rfl h) <|
    .bind (takes_nullable Lane.restores.list rfl).omissible <|
    .bind (takes_defaulted restores_string rfl) (takes_pure (f, a))

end

theorem stepsToJson_eq (steps : List Step) : stepsToJson steps = steps.map Step.toJson := by
  induction steps with
  | nil => rfl
  | cons s rest ih => rw [stepsToJson, ih, List.map_cons]

theorem pathsToJson_eq (paths : List (Path × List Step)) :
    pathsToJson paths = paths.map fun p => p.1.toJson (list Step.toJson p.2) := by
  induction paths with
  | nil => rfl
  | cons p rest ih => rw [pathsToJson, ih, stepsToJson_eq, List.map_cons, list]

theorem forkOfJson?_toJson {step : Json → Option Step} {paths : List (Path × List Step)}
    (h : ∀ s ∈ innerSteps paths, step s.toJson = some s) (f : Fork) :
    forkOfJson? step (f.toJson (.array (pathsToJson paths))) = some (f, paths) := by
  refine f.read_toJson ?_
  rw [pathsToJson_eq]
  refine list?_list fun p hp => p.1.read_toJson (list?_list fun s hs => h s ?_)
  exact List.mem_flatMap.mpr ⟨p, hp, hs⟩

theorem Step.depth_lt_of_mem_innerSteps {f : Fork} {paths : List (Path × List Step)} {s : Step}
    (hs : s ∈ innerSteps paths) : s.toJson.depth < (Step.fork f paths).toJson.depth := by
  obtain ⟨p, hp, hs⟩ := List.mem_flatMap.mp hs
  calc s.toJson.depth
      < (list Step.toJson p.2).depth := depth_lt_array (List.mem_map_of_mem hs)
    _ < (p.1.toJson (list Step.toJson p.2)).depth :=
        depth_lt_object (show ("steps", _) ∈ _ by simp)
    _ < (Json.array (pathsToJson paths)).depth := by
        rw [pathsToJson_eq]
        exact depth_lt_array (List.mem_map_of_mem hp)
    _ < (f.toJson (.array (pathsToJson paths))).depth :=
        depth_lt_object (show ("paths", _) ∈ _ by simp)
    _ < (Step.fork f paths).toJson.depth := depth_lt_object List.mem_cons_self

/-- By induction on the fuel, as it is spent: each level of forks takes one unit of it, and the
steps inside are written less deep. -/
theorem Step.ofJsonFuel_toJson {fuel : Nat} (s : Step) (h : s.toJson.depth < fuel) :
    ofJsonFuel fuel s.toJson = some s := by
  induction fuel generalizing s with
  | zero => exact absurd h (Nat.not_lt_zero _)
  | succ fuel ih =>
    cases s with
    | single i => exact congrArg (Option.map Step.single) (Interaction.restores.decode_encode i)
    | chain c => exact congrArg (Option.map Step.chain) (Chain.restores.decode_encode c)
    | fork f paths =>
      have hinner : ∀ s ∈ innerSteps paths, ofJsonFuel fuel s.toJson = some s := fun s hs =>
        ih s (Nat.lt_of_lt_of_le (depth_lt_of_mem_innerSteps hs) (Nat.le_of_lt_succ h))
      exact congrArg (Option.map fun x => Step.fork x.1 x.2) (forkOfJson?_toJson hinner f)

theorem Step.restores : Restores Step.ofJson? Step.toJson where
  decode_encode s := s.ofJsonFuel_toJson (Nat.lt_succ_self _)
  decode_null := rfl

end StepGraph
