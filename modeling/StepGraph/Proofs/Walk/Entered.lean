import StepGraph.Drawing
import StepGraph.Proofs.Journal.History
import StepGraph.Proofs.Walk.Junctions

/-!
The levels that a walk enters. Where forks have different ids, a fork is entered through all of its
paths in turn and no other way, and forks are entered for the first time in the order of their
junctions; so the records of the journal are those of the junctions.
-/
set_option autoImplicit false

namespace StepGraph

open Act

def Visit.level? : Visit → Option Level
  | .enter f p n => some { fork := f, path := p, index := n }
  | .meet _ => none
  | .leave => none

def levelsOf (visits : List Visit) : List Level := visits.filterMap Visit.level?

@[simp] theorem levelsOf_nil : levelsOf [] = [] := rfl

@[simp] theorem levelsOf_append (first second : List Visit) :
    levelsOf (first ++ second) = levelsOf first ++ levelsOf second := List.filterMap_append

@[simp] theorem levelsOf_enter (f : Fork) (p : Path) (n : Nat) (visits : List Visit) :
    levelsOf (.enter f p n :: visits) = { fork := f, path := p, index := n } :: levelsOf visits :=
  rfl

@[simp] theorem levelsOf_leave (visits : List Visit) :
    levelsOf (.leave :: visits) = levelsOf visits := rfl

@[simp] theorem levelsOf_meet (is : List Interaction) : levelsOf (is.map .meet) = [] := by
  simp [levelsOf, Visit.level?]

def pathLevels (f : Fork) (n : Nat) : List (Path × List Step) → List Level
  | [] => []
  | (p, _) :: rest => { fork := f, path := p, index := n } :: pathLevels f (n + 1) rest

def Junction.levels (x : Junction) : List Level := pathLevels x.fork 1 x.paths

abbrev forkId (x : Fork × List (Path × List Step)) : String := x.1.id

mutual

theorem Step.id_of_mem_levelsOf (s : Step) {l : Level} (h : l ∈ levelsOf s.visits) :
    l.fork.id ∈ s.forks.map forkId := by
  cases s with
  | single i => simp [Step.visits, levelsOf, Visit.level?] at h
  | chain c => simp [Step.visits] at h
  | fork f paths =>
    rw [Step.visits] at h
    rw [Step.forks, List.map_cons, List.mem_cons]
    split at h
    · simp at h
    · exact id_of_mem_pathVisits f 1 paths h

theorem id_of_mem_pathVisits (f : Fork) (n : Nat) (paths : List (Path × List Step)) {l : Level}
    (h : l ∈ levelsOf (pathVisits f n paths)) :
    l.fork.id = f.id ∨ l.fork.id ∈ (pathForks paths).map forkId := by
  match paths with
  | [] => simp [pathVisits] at h
  | (p, steps) :: rest =>
    simp only [pathVisits, levelsOf_enter, levelsOf_append, levelsOf_leave, List.mem_cons,
      List.mem_append] at h
    rw [pathForks, List.map_append, List.mem_append]
    rcases h with rfl | h | h
    · exact .inl rfl
    · exact .inr (.inl (id_of_mem_stepVisits steps h))
    · exact (id_of_mem_pathVisits f (n + 1) rest h).imp_right .inr

theorem id_of_mem_stepVisits (steps : List Step) {l : Level}
    (h : l ∈ levelsOf (stepVisits steps)) : l.fork.id ∈ (stepForks steps).map forkId := by
  match steps with
  | [] => simp [stepVisits] at h
  | s :: rest =>
    rw [stepVisits, levelsOf_append, List.mem_append] at h
    rw [stepForks, List.map_append, List.mem_append]
    exact h.imp s.id_of_mem_levelsOf (id_of_mem_stepVisits rest)

end

theorem forkId_mem_of_sublist {xs : List Junction} {ys : List (Fork × List (Path × List Step))}
    (h : (xs.map fun x => (x.fork, x.paths)).Sublist ys) {x : Junction} (hx : x ∈ xs) :
    x.fork.id ∈ ys.map forkId := by
  have hmem := h.subset (List.mem_map_of_mem hx)
  exact List.mem_map_of_mem (f := forkId) hmem

theorem firstsBy_append_of_disjoint {α : Type} {key : α → String} {xs ys : List α}
    (h : ∀ b ∈ ys, key b ∉ xs.map key) :
    firstsBy key (xs ++ ys) = firstsBy key xs ++ firstsBy key ys := by
  rw [firstsBy_append, List.filter_eq_self.mpr]
  intro b hb
  have hb' := h b ((firstsBy_sublist key ys).subset hb)
  simpa using hb'

/- Over the tree. Among the paths of a fork its own levels come between those of the forks inside,
so the path case leaves them out, and the fork case puts the first of them in front. -/
mutual

theorem Step.firsts_visits (entry : Nat) (around : List Enclosure) (s : Step)
    (h : (s.forks.map forkId).Nodup) : firstsBy (·.fork.id) (levelsOf s.visits) =
      (s.junctions entry around).filterMap (·.levels.head?) := by
  cases s with
  | single i => rfl
  | chain c => simp [Step.visits, Step.junctions, firstsBy]
  | fork f paths =>
    rw [Step.forks, List.map_cons] at h
    have hinner := firsts_pathVisits f entry 1 around paths h
    rw [Step.visits, Step.junctions]
    split
    · rfl
    · cases paths with
      | nil => rfl
      | cons q rest =>
        obtain ⟨p, steps⟩ := q
        rw [List.filterMap_cons, ← hinner, pathVisits, levelsOf_enter, firstsBy, List.filter_cons]
        simp [Junction.levels, pathLevels]

theorem firsts_pathVisits (f : Fork) (entry n : Nat) (around : List Enclosure)
    (paths : List (Path × List Step)) (h : (f.id :: (pathForks paths).map forkId).Nodup) :
    (firstsBy (·.fork.id) (levelsOf (pathVisits f n paths))).filter (·.fork.id != f.id) =
      (pathJunctions f entry n around paths).filterMap (·.levels.head?) := by
  match paths with
  | [] => rfl
  | (p, steps) :: rest =>
    rw [pathForks, List.map_append, List.nodup_cons, List.mem_append, not_or,
      List.nodup_append] at h
    obtain ⟨⟨hfs, hfr⟩, hs, hr, hsr⟩ := h
    have hdisjoint : ∀ l ∈ levelsOf (pathVisits f (n + 1) rest),
        l.fork.id ∉ (levelsOf (stepVisits steps)).map (·.fork.id) := by
      intro l hl hmem
      obtain ⟨m, hm, he⟩ := List.mem_map.mp hmem
      have hm' := id_of_mem_stepVisits steps hm
      rcases id_of_mem_pathVisits f (n + 1) rest hl with hf | hl'
      · exact hfs (hf ▸ he ▸ hm')
      · exact hsr _ hm' _ hl' he
    have hfirst : (firstsBy (·.fork.id) (levelsOf (stepVisits steps))).filter
        (·.fork.id != f.id) = firstsBy (·.fork.id) (levelsOf (stepVisits steps)) := by
      rw [List.filter_eq_self]
      intro l hl
      have hl' := id_of_mem_stepVisits steps ((firstsBy_sublist _ _).subset hl)
      rw [bne_iff_ne]
      exact fun he => hfs (he ▸ hl')
    have hsteps := firsts_stepVisits 0 ({ fork := f, path := p, index := n, entry } :: around)
      steps hs
    have hrest := firsts_pathVisits f entry (n + 1) around rest (List.nodup_cons.mpr ⟨hfr, hr⟩)
    rw [pathVisits, levelsOf_enter, levelsOf_append, levelsOf_leave, firstsBy,
      firstsBy_append_of_disjoint hdisjoint, pathJunctions, List.filterMap_append, ← hsteps,
      ← hrest]
    simp [List.filter_append, List.filter_filter, hfirst]

theorem firsts_stepVisits (entry : Nat) (around : List Enclosure) (steps : List Step)
    (h : ((stepForks steps).map forkId).Nodup) :
    firstsBy (·.fork.id) (levelsOf (stepVisits steps)) =
      (stepJunctions entry around steps).filterMap (·.levels.head?) := by
  match steps with
  | [] => rfl
  | s :: rest =>
    rw [stepForks, List.map_append, List.nodup_append] at h
    obtain ⟨hs, hr, hsr⟩ := h
    have hdisjoint : ∀ l ∈ levelsOf (stepVisits rest),
        l.fork.id ∉ (levelsOf s.visits).map (·.fork.id) := by
      intro l hl hmem
      obtain ⟨m, hm, he⟩ := List.mem_map.mp hmem
      exact hsr _ (s.id_of_mem_levelsOf hm) _ (id_of_mem_stepVisits rest hl) he
    rw [stepVisits, levelsOf_append, firstsBy_append_of_disjoint hdisjoint, stepJunctions,
      List.filterMap_append, s.firsts_visits entry around hs,
      firsts_stepVisits (entry + 1) around rest hr]

end

theorem filter_fork_eq_nil {levels : List Level} {ids : List String} {id : String}
    (h : ∀ l ∈ levels, l.fork.id ∈ ids) (hid : id ∉ ids) :
    levels.filter (·.fork.id == id) = [] := by
  rw [List.filter_eq_nil_iff]
  intro l hl he
  exact hid (beq_iff_eq.mp he ▸ h l hl)

theorem filter_pathVisits_own (f : Fork) (n : Nat) (paths : List (Path × List Step))
    (h : f.id ∉ (pathForks paths).map forkId) :
    (levelsOf (pathVisits f n paths)).filter (·.fork.id == f.id) = pathLevels f n paths := by
  induction paths generalizing n with
  | nil => rfl
  | cons q rest ih =>
    obtain ⟨p, steps⟩ := q
    rw [pathForks, List.map_append, List.mem_append, not_or] at h
    have hsteps := filter_fork_eq_nil (fun l hl => id_of_mem_stepVisits steps hl) h.1
    simp [pathVisits, pathLevels, hsteps, ih (n + 1) h.2]

/- A junction is found in one part of the tree, and in the other parts no fork has its id. -/
mutual

theorem Step.filter_visits {entry : Nat} {around : List Enclosure} (s : Step)
    (h : (s.forks.map forkId).Nodup) {x : Junction} (hx : x ∈ s.junctions entry around) :
    (levelsOf s.visits).filter (·.fork.id == x.fork.id) = x.levels := by
  cases s with
  | single i => simp [Step.junctions] at hx
  | chain c => simp [Step.junctions] at hx
  | fork f paths =>
    rw [Step.forks, List.map_cons] at h
    rw [Step.junctions] at hx
    rw [Step.visits]
    split at hx
    · simp at hx
    · rename_i hv
      rw [if_neg hv]
      rcases List.mem_cons.mp hx with rfl | hx
      · exact filter_pathVisits_own f 1 paths (List.nodup_cons.mp h).1
      · exact filter_pathVisits paths h hx

theorem filter_pathVisits {f : Fork} {entry n : Nat} {around : List Enclosure}
    (paths : List (Path × List Step)) (h : (f.id :: (pathForks paths).map forkId).Nodup)
    {x : Junction} (hx : x ∈ pathJunctions f entry n around paths) :
    (levelsOf (pathVisits f n paths)).filter (·.fork.id == x.fork.id) = x.levels := by
  have hmem := forkId_mem_of_sublist (pathJunctions_sublist f entry n around paths) hx
  match paths with
  | [] => simp [pathJunctions] at hx
  | (p, steps) :: rest =>
    have hf : f.id ≠ x.fork.id := fun he => (List.nodup_cons.mp h).1 (he ▸ hmem)
    rw [pathForks, List.map_append, List.nodup_cons, List.mem_append, not_or,
      List.nodup_append] at h
    obtain ⟨⟨_, hfr⟩, hs, hr, hsr⟩ := h
    rw [pathJunctions, List.mem_append] at hx
    rw [pathVisits, levelsOf_enter, List.filter_cons_of_neg (by simpa using hf), levelsOf_append,
      levelsOf_leave, List.filter_append]
    rcases hx with hx | hx
    · have hid := forkId_mem_of_sublist (stepJunctions_sublist _ _ steps) hx
      have hids : x.fork.id ∉ f.id :: (pathForks rest).map forkId :=
        List.not_mem_cons_of_ne_of_not_mem hf.symm fun hid' => hsr _ hid _ hid' rfl
      have hrest := filter_fork_eq_nil
        (fun l hl => List.mem_cons.mpr (id_of_mem_pathVisits f (n + 1) rest hl)) hids
      rw [filter_stepVisits steps hs hx, hrest, List.append_nil]
    · have hid := forkId_mem_of_sublist (pathJunctions_sublist f entry _ around rest) hx
      have hsteps := filter_fork_eq_nil (fun l hl => id_of_mem_stepVisits steps hl)
        fun hid' => hsr _ hid' _ hid rfl
      rw [hsteps, filter_pathVisits rest (List.nodup_cons.mpr ⟨hfr, hr⟩) hx, List.nil_append]

theorem filter_stepVisits {entry : Nat} {around : List Enclosure} (steps : List Step)
    (h : ((stepForks steps).map forkId).Nodup) {x : Junction}
    (hx : x ∈ stepJunctions entry around steps) :
    (levelsOf (stepVisits steps)).filter (·.fork.id == x.fork.id) = x.levels := by
  match steps with
  | [] => simp [stepJunctions] at hx
  | s :: rest =>
    rw [stepForks, List.map_append, List.nodup_append] at h
    obtain ⟨hs, hr, hsr⟩ := h
    rw [stepJunctions, List.mem_append] at hx
    rw [stepVisits, levelsOf_append, List.filter_append]
    rcases hx with hx | hx
    · have hid := forkId_mem_of_sublist (s.junctions_sublist entry around) hx
      have hrest := filter_fork_eq_nil (fun l hl => id_of_mem_stepVisits rest hl)
        fun hid' => hsr _ hid _ hid' rfl
      rw [s.filter_visits hs hx, hrest, List.append_nil]
    · have hid := forkId_mem_of_sublist (stepJunctions_sublist _ _ rest) hx
      have hstep := filter_fork_eq_nil (fun l hl => s.id_of_mem_levelsOf hl)
        fun hid' => hsr _ hid' _ hid rfl
      rw [hstep, filter_stepVisits rest hr hx, List.nil_append]

end

def View.levels (v : View) : List Level := levelsOf (stepVisits v.steps)

theorem Step.map_rootVisits (root : Nat) (s : Step) :
    (s.rootVisits root).map (·.2) = s.visits := by
  cases s with
  | single i => rfl
  | chain c =>
    have hmembers := congrArg (List.map Visit.meet) (List.zipIdx_map_fst root c.members)
    rw [List.map_map] at hmembers
    rw [Step.rootVisits, List.map_map, Step.visits, ← hmembers]
    rfl
  | fork f paths => simp [Step.rootVisits, Function.comp_def]

theorem map_rootVisits (root : Nat) (steps : List Step) :
    (rootVisits root steps).map (·.2) = stepVisits steps := by
  induction steps generalizing root with
  | nil => rfl
  | cons s rest ih => rw [rootVisits, List.map_append, s.map_rootVisits, ih, stepVisits]

namespace Journal

/-- The journal without its counts, on which what is written down does not depend. -/
def uncounted (j : Journal) : Journal :=
  { j with levels := j.levels.map fun l => { l with count := 0 } }

theorem uncounted_leave (j : Journal) : j.leave.2.uncounted = j.uncounted.leave.2 := by
  obtain ⟨levels, forks⟩ := j
  cases levels <;> rfl

theorem uncounted_record (id : EdgeId) (j : Journal) :
    (j.record id).uncounted = j.uncounted.record id := by
  simp only [uncounted, Journal.record, List.foldl_map]
  rfl

theorem uncounted_tally (j : Journal) : j.tally.uncounted = j.uncounted := by
  simp [uncounted, tally]

end Journal

section

variable {α : Type} (resolve : Interaction → Except Fault α)

theorem Walk.exists_acts_visit (w : Walk α) (v : Nat × Visit) :
    ∃ acts, (w.visit resolve v).journal.uncounted = acts.foldl Journal.act w.journal.uncounted ∧
      entered acts = v.2.level?.toList := by
  obtain ⟨root, v⟩ := v
  cases v with
  | enter f p n => exact ⟨[.enter { fork := f, path := p, index := n } (by simp)], rfl, rfl⟩
  | leave => exact ⟨[.leave], w.journal.uncounted_leave, rfl⟩
  | meet i =>
    rw [visit, meet]
    split
    -- Once the walk has failed, or if it fails here, the journal stays as it is.
    · exact ⟨[], rfl, rfl⟩
    · exact ⟨[], rfl, rfl⟩
    · refine ⟨[.record (w.journal.idAt root (w.position root))], ?_, rfl⟩
      rw [place, Journal.uncounted_tally, Journal.uncounted_record]
      rfl

theorem Walk.exists_acts (visits : List (Nat × Visit)) (w : Walk α) :
    ∃ acts, (run resolve visits w).journal.uncounted =
        acts.foldl Journal.act w.journal.uncounted ∧
      entered acts = levelsOf (visits.map (·.2)) := by
  induction visits generalizing w with
  | nil => exact ⟨[], rfl, rfl⟩
  | cons v rest ih =>
    obtain ⟨first, hfirst, hentered⟩ := w.exists_acts_visit resolve v
    obtain ⟨more, hmore, hlevels⟩ := ih (w.visit resolve v)
    refine ⟨first ++ more, ?_, ?_⟩
    · rw [run_cons, hmore, hfirst, List.foldl_append]
    · rw [entered_append, hentered, hlevels, List.map_cons, levelsOf, levelsOf, List.filterMap_cons]
      cases v.2.level? <;> rfl

end

theorem Scene.exists_log_walk (s : Scene) (v : View) :
    ∃ log, (s.walk v.steps).journal.forks = forkRecords v.levels log := by
  obtain ⟨acts, hjournal, hentered⟩ := Walk.exists_acts s.resolve (rootVisits 1 v.steps) {}
  refine ⟨recorded acts, ?_⟩
  have hforks := congrArg Journal.forks hjournal
  rw [View.levels, ← map_rootVisits 1, ← hentered]
  exact hforks.trans (Journal.forks_after acts)

namespace View

variable {v : View} (h : (v.forks.map forkId).Nodup)
include h

theorem firsts_levels : firstsBy (·.fork.id) v.levels =
    v.junctions.filterMap (·.levels.head?) := firsts_stepVisits 0 [] v.steps h

theorem filter_levels {x : Junction} (hx : x ∈ v.junctions) :
    v.levels.filter (·.fork.id == x.fork.id) = x.levels := filter_stepVisits v.steps h hx

end View

end StepGraph
