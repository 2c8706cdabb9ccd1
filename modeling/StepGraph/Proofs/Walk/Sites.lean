import Mathlib.Data.List.Basic
import StepGraph.View
import StepGraph.Walk

/-!
Where the steps of a view stand. A site is a step that the walk meets, with its root number and the
paths around it; sites are listed from the tree alone, without a journal. Two paths are told apart
by the places of their forks and of all that is around them, never by their ids, which may repeat.
-/
set_option autoImplicit false

namespace StepGraph

structure Enclosure where
  fork : Fork
  path : Path
  /-- Place of the path in its fork, from one. -/
  index : Nat
  /-- Place of the fork among its neighbours, from zero. -/
  entry : Nat

def Enclosure.place (e : Enclosure) : Nat × Nat := (e.entry, e.index)

structure Site where
  root : Nat
  around : List Enclosure
  step : Interaction

/-- The step lies inside the first of the paths, of which each stands inside the next. -/
def Site.isWithin (around : List Enclosure) (s : Site) : Bool :=
  (around.map Enclosure.place).isSuffixOf (s.around.map Enclosure.place)

mutual

def Step.sites (root entry : Nat) (around : List Enclosure) : Step → List Site
  | .single i => [{ root, around, step := i }]
  | .chain c => c.members.map fun i => { root, around, step := i }
  | .fork f paths =>
    if (Step.fork f paths).isVoid then [] else pathSites root f entry 1 around paths

def pathSites (root : Nat) (f : Fork) (entry n : Nat) (around : List Enclosure) :
    List (Path × List Step) → List Site
  | [] => []
  | (p, steps) :: rest =>
    stepSites root 0 ({ fork := f, path := p, index := n, entry } :: around) steps ++
      pathSites root f entry (n + 1) around rest

def stepSites (root entry : Nat) (around : List Enclosure) : List Step → List Site
  | [] => []
  | s :: rest => s.sites root entry around ++ stepSites root (entry + 1) around rest

end

def Step.rootSites (root entry : Nat) : Step → List Site
  | .single i => [{ root, around := [], step := i }]
  | .chain c => (c.members.zipIdx root).map fun (i, n) => { root := n, around := [], step := i }
  | .fork f paths => (Step.fork f paths).sites root entry []

def rootSites (root entry : Nat) : List Step → List Site
  | [] => []
  | s :: rest => s.rootSites root entry ++ rootSites (root + s.roots) (entry + 1) rest

def View.sites (v : View) : List Site := rootSites 1 0 v.steps

def Visit.met? : Visit → Option Interaction
  | .meet i => some i
  | _ => none

@[simp] theorem Visit.met?_enter (f : Fork) (p : Path) (n : Nat) :
    (Visit.enter f p n).met? = none := rfl

@[simp] theorem Visit.met?_meet (i : Interaction) : (Visit.meet i).met? = some i := rfl

@[simp] theorem Visit.met?_leave : Visit.leave.met? = none := rfl

mutual

theorem Step.filterMap_visits (root entry : Nat) (around : List Enclosure) (s : Step) :
    s.visits.filterMap Visit.met? = (s.sites root entry around).map (·.step) := by
  cases s with
  | single i => simp [Step.visits, Step.sites]
  | chain c => simp [Step.visits, Step.sites, List.filterMap_map, Function.comp_def]
  | fork f paths =>
    rw [Step.visits, Step.sites]
    split
    · rfl
    · exact filterMap_pathVisits root f entry 1 around paths

theorem filterMap_pathVisits (root : Nat) (f : Fork) (entry n : Nat) (around : List Enclosure)
    (paths : List (Path × List Step)) : (pathVisits f n paths).filterMap Visit.met? =
      (pathSites root f entry n around paths).map (·.step) := by
  match paths with
  | [] => rfl
  | (p, steps) :: rest =>
    have hs := filterMap_stepVisits root 0
      ({ fork := f, path := p, index := n, entry } :: around) steps
    have hr := filterMap_pathVisits root f entry (n + 1) around rest
    simp [pathVisits, pathSites, List.filterMap_cons, hs, hr]

theorem filterMap_stepVisits (root entry : Nat) (around : List Enclosure) (steps : List Step) :
    (stepVisits steps).filterMap Visit.met? = (stepSites root entry around steps).map (·.step) := by
  match steps with
  | [] => rfl
  | s :: rest =>
    have hs := s.filterMap_visits root entry around
    have hr := filterMap_stepVisits root (entry + 1) around rest
    simp [stepVisits, stepSites, hs, hr]

end

theorem Step.filterMap_rootVisits (root entry : Nat) (s : Step) :
    (s.rootVisits root).filterMap (·.2.met?) = (s.rootSites root entry).map (·.step) := by
  cases s with
  | single i => rfl
  | chain c =>
    simp [Step.rootVisits, Step.rootSites, List.filterMap_map, Function.comp_def]
  | fork f paths =>
    rw [Step.rootVisits, Step.rootSites, List.filterMap_map, ← Step.filterMap_visits]
    rfl

theorem filterMap_rootVisits (root entry : Nat) (steps : List Step) :
    (rootVisits root steps).filterMap (·.2.met?) = (rootSites root entry steps).map (·.step) := by
  induction steps generalizing root entry with
  | nil => rfl
  | cons s rest ih =>
    simp only [rootVisits, rootSites, List.filterMap_append, List.map_append,
      s.filterMap_rootVisits root entry, ih (root + s.roots) (entry + 1)]

mutual

theorem Step.around_of_mem_sites {root entry : Nat} {around : List Enclosure} (s : Step) {t : Site}
    (h : t ∈ s.sites root entry around) :
    t.root = root ∧ (t.around = around ∨ ∃ e, e.entry = entry ∧ e :: around <:+ t.around) := by
  cases s with
  | single i =>
    rw [Step.sites, List.mem_singleton] at h
    simp [h]
  | chain c =>
    rw [Step.sites, List.mem_map] at h
    obtain ⟨i, _, rfl⟩ := h
    simp
  | fork f paths =>
    rw [Step.sites] at h
    split at h
    · simp at h
    · obtain ⟨hr, e, he, _, hs⟩ := around_of_mem_pathSites paths h
      exact ⟨hr, .inr ⟨e, he, hs⟩⟩

theorem around_of_mem_pathSites {root : Nat} {f : Fork} {entry n : Nat} {around : List Enclosure}
    (paths : List (Path × List Step)) {t : Site} (h : t ∈ pathSites root f entry n around paths) :
    t.root = root ∧ ∃ e, e.entry = entry ∧ n ≤ e.index ∧ e :: around <:+ t.around := by
  match paths with
  | [] => simp [pathSites] at h
  | (p, steps) :: rest =>
    rw [pathSites, List.mem_append] at h
    rcases h with h | h
    · obtain ⟨hr, hs⟩ := around_of_mem_stepSites steps h
      exact ⟨hr, _, rfl, Nat.le_refl n, hs⟩
    · obtain ⟨hr, e, he, hn, hs⟩ := around_of_mem_pathSites rest h
      exact ⟨hr, e, he, by omega, hs⟩

theorem around_of_mem_stepSites {root entry : Nat} {around : List Enclosure} (steps : List Step)
    {t : Site} (h : t ∈ stepSites root entry around steps) :
    t.root = root ∧ around <:+ t.around := by
  match steps with
  | [] => simp [stepSites] at h
  | s :: rest =>
    rw [stepSites, List.mem_append] at h
    rcases h with h | h
    · obtain ⟨hr, hs | ⟨e, _, hs⟩⟩ := s.around_of_mem_sites h
      · exact ⟨hr, hs ▸ List.suffix_rfl⟩
      · exact ⟨hr, (List.suffix_cons e around).trans hs⟩
    · exact around_of_mem_stepSites rest h

end

theorem Step.mem_rootSites {root entry : Nat} (s : Step) {t : Site}
    (h : t ∈ s.rootSites root entry) : root ≤ t.root ∧ t.root < root + s.roots ∧
      (t.around = [] ∨ ∃ e, e.entry = entry ∧ [e] <:+ t.around) := by
  cases s with
  | single i =>
    rw [Step.rootSites, List.mem_singleton] at h
    simp [h, Step.roots]
  | chain c =>
    rw [Step.rootSites, List.mem_map] at h
    obtain ⟨⟨i, n⟩, hm, rfl⟩ := h
    have hn := List.mem_zipIdx hm
    exact ⟨hn.1, hn.2.1, .inl rfl⟩
  | fork f paths =>
    have hroots : (Step.fork f paths).roots = 1 := by
      rw [Step.roots]
      split
      · rename_i hv
        rw [Step.rootSites, Step.sites, if_pos hv] at h
        simp at h
      · rfl
    obtain ⟨hr, hs⟩ := Step.around_of_mem_sites _ h
    exact ⟨by omega, by omega, hs⟩

theorem le_root_of_mem_rootSites {root entry : Nat} (steps : List Step) {t : Site}
    (h : t ∈ rootSites root entry steps) : root ≤ t.root := by
  induction steps generalizing root entry with
  | nil => simp [rootSites] at h
  | cons s rest ih =>
    rw [rootSites, List.mem_append] at h
    rcases h with h | h
    · exact (s.mem_rootSites h).1
    · have hr := ih h
      omega

/-- Only inside forks do sites share a root number. -/
def Site.RootsBefore (s t : Site) : Prop :=
  s.root < t.root ∨ s.root = t.root ∧ s.around ≠ [] ∧ t.around ≠ []

theorem pairwise_zipIdx {α : Type} (k : Nat) (xs : List α) :
    (xs.zipIdx k).Pairwise fun a b => a.2 < b.2 := by
  rw [← List.pairwise_map (f := Prod.snd) (R := (· < ·)), List.zipIdx_map_snd]
  exact List.pairwise_lt_range'

theorem Step.rootSites_pairwise (root entry : Nat) (s : Step) :
    (s.rootSites root entry).Pairwise Site.RootsBefore := by
  cases s with
  | single i => simp [Step.rootSites]
  | chain c =>
    rw [Step.rootSites, List.pairwise_map]
    exact (pairwise_zipIdx root c.members).imp fun h => .inl h
  | fork f paths =>
    refine List.pairwise_of_forall_mem_list fun t ht u hu => .inr ?_
    rw [Step.rootSites, Step.sites] at ht hu
    split at ht
    · simp at ht
    · rename_i hv
      rw [if_neg hv] at hu
      obtain ⟨htr, e, _, _, het⟩ := around_of_mem_pathSites paths ht
      obtain ⟨hur, d, _, _, hdu⟩ := around_of_mem_pathSites paths hu
      exact ⟨htr.trans hur.symm, List.ne_nil_of_mem (het.subset List.mem_cons_self),
        List.ne_nil_of_mem (hdu.subset List.mem_cons_self)⟩

theorem rootSites_pairwise (root entry : Nat) (steps : List Step) :
    (rootSites root entry steps).Pairwise Site.RootsBefore := by
  induction steps generalizing root entry with
  | nil => simp [rootSites]
  | cons s rest ih =>
    rw [rootSites, List.pairwise_append]
    refine ⟨s.rootSites_pairwise root entry, ih _ _, fun t ht u hu => .inl ?_⟩
    have hlt := (s.mem_rootSites ht).2.1
    have hle := le_root_of_mem_rootSites rest hu
    omega

end StepGraph
