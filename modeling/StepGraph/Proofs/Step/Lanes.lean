import StepGraph.Proofs.Step

/-!
What steps stand for, and in which order. Lists of steps and the paths of a fork follow on each
other; only a block with a flat list of lanes is put in another order. There every step of a lane is
told by its place, so that nothing is lost or repeated, even where steps are alike, and the order of
the places is the only one with its properties.
-/
set_option autoImplicit false

namespace StepGraph

structure LaneStep where
  lane : Nat
  place : Nat
  step : Interaction

def laneSteps (lanes : List Lane) : List LaneStep :=
  lanes.zipIdx.flatMap fun x => x.1.interactions.zipIdx.map fun y =>
    { lane := x.2, place := y.2, step := y.1 }

theorem pairwise_laneSteps (lanes : List Lane) : (laneSteps lanes).Pairwise fun s t =>
    s.lane < t.lane ∨ s.lane = t.lane ∧ s.place < t.place := by
  refine List.pairwise_flatMap.mpr ⟨fun x _ => ?_, (pairwise_zipIdx 0 lanes).imp ?_⟩
  · exact List.pairwise_map.mpr ((pairwise_zipIdx 0 _).imp fun h => .inr ⟨rfl, h⟩)
  · intro x y hxy s hs t ht
    obtain ⟨_, _, rfl⟩ := List.mem_map.mp hs
    obtain ⟨_, _, rfl⟩ := List.mem_map.mp ht
    exact .inl hxy

/-- The steps at some of the places. -/
theorem map_step_filter (p : Nat → Bool) (lanes : List Lane) :
    ((laneSteps lanes).filter fun s => p s.place).map (·.step) =
      lanes.flatMap fun l => (l.interactions.zipIdx.filter fun y => p y.2).map Prod.fst := by
  conv => rhs; rw [← List.zipIdx_map_fst 0 lanes, List.flatMap_map]
  rw [laneSteps, List.filter_flatMap, List.map_flatMap]
  refine List.flatMap_congr fun x _ => ?_
  rw [List.filter_map, List.map_map]
  rfl

theorem place_of_mem_zipIdx_one {α : Type} {xs : List α} {y : α × Nat} (h : y ∈ xs.zipIdx 1) :
    (y.2 == 0) = false := by
  have hle := List.le_snd_of_mem_zipIdx h
  exact beq_eq_false_iff_ne.mpr (by omega)

theorem map_fst_filter_head {α : Type} (xs : List α) :
    (xs.zipIdx.filter fun y => y.2 == 0).map Prod.fst = xs.take 1 := by
  cases xs with
  | nil => rfl
  | cons x xs =>
    have hnone : (xs.zipIdx 1).filter (fun y => y.2 == 0) = [] :=
      List.filter_eq_nil_iff.mpr fun y hy => by simp [place_of_mem_zipIdx_one hy]
    simp [List.zipIdx_cons, hnone]

theorem map_fst_filter_tail {α : Type} (xs : List α) :
    (xs.zipIdx.filter fun y => !(y.2 == 0)).map Prod.fst = xs.drop 1 := by
  cases xs with
  | nil => rfl
  | cons x xs =>
    have hall : (xs.zipIdx 1).filter (fun y => !(y.2 == 0)) = xs.zipIdx 1 :=
      List.filter_eq_self.mpr fun y hy => by simp [place_of_mem_zipIdx_one hy]
    simp [List.zipIdx_cons, hall]

/-- Of two steps `s` may stand before `t`: the steps of a lane keep their order, first steps come
before later ones, and both follow the order of the lanes. -/
structure LaneStep.Before (s t : LaneStep) : Prop where
  within : s.lane = t.lane → s.place < t.place
  head : t.place = 0 → s.place = 0
  heads : s.place = 0 → t.place = 0 → s.lane < t.lane
  tails : s.place ≠ 0 → t.place ≠ 0 → s.lane ≤ t.lane

theorem LaneStep.Before.asymm {s t : LaneStep} (hst : s.Before t) (hts : t.Before s) : False := by
  by_cases hs : s.place = 0
  · have ht := hts.head hs
    have hlt := hst.heads hs ht
    have hgt := hts.heads ht hs
    omega
  · have ht : t.place ≠ 0 := fun ht => hs (hst.head ht)
    have hle := hst.tails hs ht
    have hge := hts.tails ht hs
    have hlane : s.lane = t.lane := by omega
    have hlt := hst.within hlane
    have hgt := hts.within hlane.symm
    omega

structure LaysOut (lanes : List Lane) (laid : List LaneStep) : Prop where
  perm : laid.Perm (laneSteps lanes)
  ordered : laid.Pairwise LaneStep.Before

theorem LaysOut.eq {lanes : List Lane} {laid others : List LaneStep} (h : LaysOut lanes laid)
    (ho : LaysOut lanes others) : laid = others :=
  List.Perm.eq_of_pairwise (fun _ _ _ _ hst hts => absurd (hst.asymm hts) id) h.ordered ho.ordered
    (h.perm.trans ho.perm.symm)

def headSteps (lanes : List Lane) : List LaneStep := (laneSteps lanes).filter (·.place == 0)

def tailSteps (lanes : List Lane) : List LaneStep :=
  (laneSteps lanes).filter fun s => !(s.place == 0)

theorem map_step_headsFirst (lanes : List Lane) :
    (headSteps lanes ++ tailSteps lanes).map (·.step) = headsFirst lanes := by
  rw [List.map_append, headSteps, tailSteps, map_step_filter (· == 0),
    map_step_filter fun k => !(k == 0)]
  simp only [map_fst_filter_head, map_fst_filter_tail, headsFirst]

theorem laysOut_headsFirst (lanes : List Lane) :
    LaysOut lanes (headSteps lanes ++ tailSteps lanes) where
  perm := List.filter_append_perm _ _
  ordered := by
    have hhead : ∀ s ∈ headSteps lanes, s.place = 0 :=
      fun s hs => beq_iff_eq.mp (List.mem_filter.mp hs).2
    have htail : ∀ s ∈ tailSteps lanes, s.place ≠ 0 :=
      fun s hs => by simpa using (List.mem_filter.mp hs).2
    refine List.pairwise_append.mpr ⟨?_, ?_, fun s hs t ht => ?_⟩
    · refine ((pairwise_laneSteps lanes).filter _).imp_of_mem fun {s t} hs ht hst => ?_
      have hs := hhead s hs
      have ht := hhead t ht
      constructor <;> omega
    · refine ((pairwise_laneSteps lanes).filter _).imp_of_mem fun {s t} hs ht hst => ?_
      have hs := htail s hs
      have ht := htail t ht
      constructor <;> omega
    · have hs := hhead s hs
      have ht := htail t ht
      constructor <;> omega

structure Fork.IsFlat (f : Fork) (lanes : List Lane) : Prop where
  kind : f.kind = .parallel
  shadow : f.shadow = some lanes
  ne_nil : lanes ≠ []

theorem Fork.IsFlat.lanes_eq {f : Fork} {lanes : List Lane} (h : f.IsFlat lanes) :
    f.lanes = lanes := by
  simp [Fork.lanes, h.kind, h.shadow]

theorem Fork.lanes_eq_nil_of_not_isFlat {f : Fork} (h : ¬∃ lanes, f.IsFlat lanes) :
    f.lanes = [] := by
  rw [lanes]
  split
  · rename_i lanes hkind hshadow
    by_contra hne
    exact h ⟨lanes, hkind, hshadow, hne⟩
  · rfl

/-- Steps stand for what each of them stands for, in order, and so does a fork for the steps in its
paths; but a block with a flat list stands for the steps of its lanes. Each of these comes once, and
they can stand in one order alone: first the first steps of the lanes and then the others lane by
lane. -/
theorem interactions_listed :
    (∀ steps, stepInteractions steps = steps.flatMap Step.interactions) ∧
    (∀ f paths, (¬∃ lanes, f.IsFlat lanes) →
      (Step.fork f paths).interactions = paths.flatMap fun p => p.2.flatMap Step.interactions) ∧
    ∀ f paths lanes, f.IsFlat lanes →
      (Step.fork f paths).interactions.Perm (lanes.flatMap Lane.interactions) ∧
      ∀ steps, (Step.fork f paths).interactions = steps ↔
        ∃ laid, LaysOut lanes laid ∧ laid.map (·.step) = steps := by
  refine ⟨stepInteractions_eq_flatMap, fun f paths hf => ?_, fun f paths lanes hf => ?_⟩
  · rw [Step.interactions_fork, Fork.lanes_eq_nil_of_not_isFlat hf, innerSteps, List.flatMap_assoc]
    rfl
  · have hsteps : (Step.fork f paths).interactions = headsFirst lanes := by
      rw [Step.interactions_fork, hf.lanes_eq, if_neg (by simpa using hf.ne_nil)]
    rw [hsteps]
    refine ⟨headsFirst_perm lanes, fun steps => ?_⟩
    rw [← map_step_headsFirst]
    constructor
    · intro h
      exact ⟨_, laysOut_headsFirst lanes, h⟩
    · intro h
      obtain ⟨laid, hlaid, rfl⟩ := h
      rw [hlaid.eq (laysOut_headsFirst lanes)]

def relayCall (source target : String) : Interaction := { source := ⟨source⟩, target := ⟨target⟩ }

/-- The first and the last lane hold the same call twice, and a lane between them holds nothing. -/
def relayLanes : List Lane :=
  [.chain { members := [relayCall "a" "b", relayCall "b" "c", relayCall "a" "b"] },
   .chain { members := [] }, .single (relayCall "c" "d"),
   .chain { members := [relayCall "b" "c", relayCall "d" "a"] }]

theorem interactions_listed_relay :
    (flatFork "relay" relayLanes).1.IsFlat relayLanes ∧
    (Step.fork (flatFork "relay" relayLanes).1 []).interactions.map (·.source.text) =
      ["a", "c", "b", "b", "a", "d"] ∧
    (Step.fork (flatFork "relay" relayLanes).1 []).interactions.Perm
      (relayLanes.flatMap Lane.interactions) ∧
    ∃ laid, LaysOut relayLanes laid ∧
      laid.map (·.step) = (Step.fork (flatFork "relay" relayLanes).1 []).interactions := by
  have hflat : (flatFork "relay" relayLanes).1.IsFlat relayLanes := ⟨rfl, rfl, nofun⟩
  obtain ⟨hperm, hiff⟩ := interactions_listed.2.2 _ [] _ hflat
  exact ⟨hflat, by rfl, hperm, (hiff _).mp rfl⟩

end StepGraph
