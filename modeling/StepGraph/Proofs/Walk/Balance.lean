import StepGraph.Proofs.Walk.Failure

/-!
Balanced walks. Wherever a walk has come to, each fork and each list of steps leaves open the levels
that were open before, and on each of them counts as many steps as it places. A walk that fails goes
on closing its levels; one that turns back at once, entering no further path, comes to the same end.
-/
set_option autoImplicit false

namespace StepGraph

variable {α : Type}

namespace Walk

/-- From `w` to `next` steps were placed, and each of them was counted on all levels open before.
These are open again, and no others. -/
def Returns (w next : Walk α) : Prop :=
  ∃ added, next.placed = w.placed ++ added ∧ next.journal.levels =
    w.journal.levels.map fun l => { l with count := l.count + added.length }

namespace Returns

variable {w next last : Walk α}

theorem refl (w : Walk α) : w.Returns w := ⟨[], by simp, by simp⟩

theorem trans (h : w.Returns next) (hl : next.Returns last) : w.Returns last := by
  obtain ⟨added, hplaced, hlevels⟩ := h
  obtain ⟨more, hmore, hlast⟩ := hl
  refine ⟨added ++ more, ?_, ?_⟩
  · rw [hmore, hplaced, List.append_assoc]
  · rw [hlast, hlevels, List.map_map]
    simp only [Function.comp_def, List.length_append, Nat.add_assoc]

theorem meet (resolve : Interaction → Except Fault α) (root : Nat) (i : Interaction)
    (w : Walk α) : w.Returns (w.meet resolve root i) := by
  rw [Walk.meet]
  split
  · exact refl w
  · exact refl w
  · exact ⟨[_], rfl, rfl⟩

theorem meets (resolve : Interaction → Except Fault α) (ms : List (Nat × Interaction))
    (w : Walk α) : w.Returns (run resolve (ms.map fun m => (m.1, .meet m.2)) w) := by
  induction ms generalizing w with
  | nil => exact refl w
  | cons m ms ih => exact (meet resolve m.1 m.2 w).trans (ih _)

/-- What returns to an inner level returns to the outer ones once that is closed. -/
theorem leave {resolve : Interaction → Except Fault α} {root : Nat} {f : Fork} {p : Path} {n : Nat}
    (h : (w.visit resolve (root, .enter f p n)).Returns next) :
    w.Returns (next.visit resolve (root, .leave)) := by
  obtain ⟨added, hplaced, hlevels⟩ := h
  refine ⟨added, hplaced, ?_⟩
  simp only [visit, Journal.enter, List.map_cons] at hlevels
  simp only [visit, Journal.leave, hlevels]

theorem levels_of_placed_eq (h : w.Returns next) (hplaced : next.placed = w.placed) :
    next.journal.levels = w.journal.levels := by
  obtain ⟨added, hadded, hlevels⟩ := h
  obtain rfl : added = [] := by simpa [hplaced] using hadded
  simpa using hlevels

end Returns

end Walk

section

variable (resolve : Interaction → Except Fault α) (root : Nat)

/- Over the tree. Only the paths of a fork open levels, each its own, and close them again. -/
mutual

theorem Step.returns_visits (s : Step) (w : Walk α) :
    w.Returns (Walk.run resolve (s.visits.map (root, ·)) w) := by
  cases s with
  | single i => exact .meet resolve root i w
  | chain c =>
    have h := Walk.Returns.meets resolve (c.members.map (root, ·)) w
    simpa only [Step.visits, List.map_map, Function.comp_def] using h
  | fork f paths =>
    rw [Step.visits]
    split
    · exact .refl w
    · exact returns_pathVisits f 1 paths w

theorem returns_pathVisits (f : Fork) (n : Nat) (paths : List (Path × List Step)) (w : Walk α) :
    w.Returns (Walk.run resolve ((pathVisits f n paths).map (root, ·)) w) := by
  match paths with
  | [] => exact .refl w
  | (p, steps) :: rest =>
    simp only [pathVisits, List.map_cons, List.map_append, Walk.run_cons, Walk.run_append]
    have hinside := returns_stepVisits steps (w.visit resolve (root, .enter f p n))
    exact hinside.leave.trans (returns_pathVisits f (n + 1) rest _)

theorem returns_stepVisits (steps : List Step) (w : Walk α) :
    w.Returns (Walk.run resolve ((stepVisits steps).map (root, ·)) w) := by
  match steps with
  | [] => exact .refl w
  | s :: rest =>
    rw [stepVisits, List.map_append, Walk.run_append]
    exact (s.returns_visits w).trans (returns_stepVisits rest _)

end

theorem Step.returns_rootVisits (s : Step) (w : Walk α) :
    w.Returns (Walk.run resolve (s.rootVisits root) w) := by
  cases s with
  | single i => exact .meet resolve root i w
  | chain c =>
    have h := Walk.Returns.meets resolve ((c.members.zipIdx root).map fun m => (m.2, m.1)) w
    simpa only [Step.rootVisits, List.map_map, Function.comp_def] using h
  | fork f paths => exact Step.returns_visits resolve root _ w

theorem returns_rootVisits (steps : List Step) (w : Walk α) :
    w.Returns (Walk.run resolve (rootVisits root steps) w) := by
  induction steps generalizing root w with
  | nil => exact .refl w
  | cons s rest ih =>
    rw [rootVisits, Walk.run_append]
    exact (s.returns_rootVisits resolve root w).trans (ih _ _)

end

namespace Walk

def BoundsCounts (w : Walk α) : Prop := ∀ l ∈ w.journal.levels, l.count ≤ w.placed.length

variable {resolve : Interaction → Except Fault α} {w : Walk α}

theorem BoundsCounts.visit (h : w.BoundsCounts) (v : Nat × Visit) :
    (w.visit resolve v).BoundsCounts := by
  obtain ⟨root, v⟩ := v
  cases v with
  | enter f p n => exact List.forall_mem_cons.mpr ⟨Nat.zero_le _, h⟩
  | leave =>
    intro l hl
    rw [Walk.visit, Journal.levels_leave] at hl
    exact h l (List.mem_of_mem_tail hl)
  | meet i =>
    rw [Walk.visit, Walk.meet]
    split
    · exact h
    · exact h
    · refine List.forall_mem_map.mpr fun l hl => ?_
      rw [place, List.length_append]
      exact Nat.succ_le_succ (h l hl)

theorem BoundsCounts.run (h : w.BoundsCounts) (visits : List (Nat × Visit)) :
    (Walk.run resolve visits w).BoundsCounts := by
  induction visits generalizing w with
  | nil => exact h
  | cons v visits ih => exact ih (h.visit v)

/-- A walk that has placed fewer steps than a word can count loses nothing by counting in words. -/
theorem journal_place_of_run {visits : List (Nat × Visit)} (hw : run resolve visits {} = w)
    (hlen : w.placed.length + 1 < UInt64.size) (root : Nat) (a : α) : (w.place root a).journal =
      (w.journal.record (w.journal.idAt root (w.position root))).advance := by
  have hempty : ({} : Walk α).BoundsCounts := fun l hl => by simp at hl
  have hcounts : w.BoundsCounts := hw ▸ hempty.run visits
  exact Journal.tally_eq_advance fun l hl =>
    Nat.lt_of_le_of_lt (Nat.succ_le_succ (hcounts l hl)) hlen

end Walk

def Walk.unlessFailed (next : Walk α → Walk α) (w : Walk α) : Walk α :=
  if w.failure.isSome then w else next w

section

variable (resolve : Interaction → Except Fault α) (root : Nat)

mutual

/-- The walk through one step that turns back at its first failure: it closes the paths that it is
in and enters no others. -/
def Step.descend : Step → Walk α → Walk α
  | .single i, w => w.meet resolve root i
  | .chain c, w => Walk.run resolve (c.members.map fun i => (root, .meet i)) w
  | .fork f paths, w => if (Step.fork f paths).isVoid then w else descendPaths f 1 paths w

def descendPaths (f : Fork) (n : Nat) : List (Path × List Step) → Walk α → Walk α
  | [], w => w
  | (p, steps) :: rest, w =>
    ((descendSteps steps (w.visit resolve (root, .enter f p n))).visit resolve
      (root, .leave)).unlessFailed (descendPaths f (n + 1) rest)

def descendSteps : List Step → Walk α → Walk α
  | [], w => w
  | s :: rest, w => (s.descend w).unlessFailed (descendSteps rest)

end

def Step.descendRoot : Step → Walk α → Walk α
  | .single i, w => w.meet resolve root i
  | .chain c, w => Walk.run resolve ((Step.chain c).rootVisits root) w
  | .fork f paths, w => (Step.fork f paths).descend resolve root w

def descendEntries (root : Nat) : List Step → Walk α → Walk α
  | [], w => w
  | s :: rest, w =>
    (s.descendRoot resolve root w).unlessFailed (descendEntries (root + s.roots) rest)

end

namespace Walk

theorem placed_run_of_failed (resolve : Interaction → Except Fault α) {w : Walk α} {fault : Fault}
    (hw : w.failure = some fault) (visits : List (Nat × Visit)) :
    (run resolve visits w).placed = w.placed := by
  induction visits generalizing w with
  | nil => rfl
  | cons v visits ih =>
    have hv : (w.visit resolve v).placed = w.placed := by
      obtain ⟨root, v⟩ := v
      cases v with
      | enter f p n => rfl
      | meet i => simp only [visit, meet, hw]
      | leave => rfl
    have hfailed : (w.visit resolve v).failure = some fault := by
      rw [failure_visit, hw, Option.some_or]
    rw [run_cons, ih hfailed, hv]

/-- The walk `w` and the one that turned back as `d` have the same levels open, have placed the same
steps and have failed by the same fault, if at all; only after a failure do their forks differ. -/
structure EndsAlike (w d : Walk α) : Prop where
  levels : w.journal.levels = d.journal.levels
  placed : w.placed = d.placed
  failure : w.failure = d.failure
  eq_of_sound : d.failure = none → w = d

namespace EndsAlike

variable {resolve : Interaction → Except Fault α} {w d : Walk α}

theorem refl (w : Walk α) : w.EndsAlike w := ⟨rfl, rfl, rfl, fun _ => rfl⟩

theorem leave (h : w.EndsAlike d) (root : Nat) :
    (w.visit resolve (root, .leave)).EndsAlike (d.visit resolve (root, .leave)) where
  levels := by rw [visit, visit, Journal.levels_leave, Journal.levels_leave, h.levels]
  placed := h.placed
  failure := h.failure
  eq_of_sound hd := by rw [h.eq_of_sound hd]

/-- What a failed walk meets further on does not count. -/
theorem unlessFailed (h : w.EndsAlike d) {visits : List (Nat × Visit)} {next : Walk α → Walk α}
    (hreturns : w.Returns (run resolve visits w))
    (hnext : (run resolve visits d).EndsAlike (next d)) :
    (run resolve visits w).EndsAlike (d.unlessFailed next) := by
  rw [Walk.unlessFailed]
  cases hd : d.failure with
  | none =>
    rw [h.eq_of_sound hd]
    exact hnext
  | some fault =>
    -- Nothing more is placed, and so the levels that are returned to are as they were.
    have hw : w.failure = some fault := h.failure.trans hd
    have hplaced := placed_run_of_failed resolve hw visits
    have hfailure : (run resolve visits w).failure = d.failure := by
      rw [failure_run, hw, hd, Option.some_or]
    exact ⟨(hreturns.levels_of_placed_eq hplaced).trans h.levels, hplaced.trans h.placed, hfailure,
      fun hsound => by simp [hd] at hsound⟩

end EndsAlike

structure IsBalanced (w ran turned : Walk α) : Prop where
  run : w.Returns ran
  descent : w.Returns turned
  alike : ran.EndsAlike turned

theorem Returns.balanced {w ran turned : Walk α} (h : w.Returns ran) (ha : ran.EndsAlike turned) :
    w.IsBalanced ran turned where
  run := h
  descent := by rwa [Returns, ← ha.placed, ← ha.levels]
  alike := ha

end Walk

section

variable (resolve : Interaction → Except Fault α) (root : Nat)

mutual

theorem Step.endsAlike_descend (s : Step) (w : Walk α) :
    (Walk.run resolve (s.visits.map (root, ·)) w).EndsAlike (s.descend resolve root w) := by
  cases s with
  | single i => exact .refl _
  | chain c =>
    simp only [Step.visits, Step.descend, List.map_map, Function.comp_def]
    exact .refl _
  | fork f paths =>
    rw [Step.visits, Step.descend]
    split
    · exact .refl w
    · exact endsAlike_descendPaths f 1 paths w

theorem endsAlike_descendPaths (f : Fork) (n : Nat) (paths : List (Path × List Step))
    (w : Walk α) :
    (Walk.run resolve ((pathVisits f n paths).map (root, ·)) w).EndsAlike
      (descendPaths resolve root f n paths w) := by
  match paths with
  | [] => exact .refl w
  | (p, steps) :: rest =>
    simp only [pathVisits, List.map_cons, List.map_append, Walk.run_cons, Walk.run_append,
      descendPaths]
    have hinside := endsAlike_descendSteps steps (w.visit resolve (root, .enter f p n))
    exact (hinside.leave root).unlessFailed (returns_pathVisits resolve root f (n + 1) rest _)
      (endsAlike_descendPaths f (n + 1) rest _)

theorem endsAlike_descendSteps (steps : List Step) (w : Walk α) :
    (Walk.run resolve ((stepVisits steps).map (root, ·)) w).EndsAlike
      (descendSteps resolve root steps w) := by
  match steps with
  | [] => exact .refl w
  | s :: rest =>
    rw [stepVisits, List.map_append, Walk.run_append, descendSteps]
    exact (s.endsAlike_descend w).unlessFailed (returns_stepVisits resolve root rest _)
      (endsAlike_descendSteps rest _)

end

theorem Step.endsAlike_descendRoot (s : Step) (w : Walk α) :
    (Walk.run resolve (s.rootVisits root) w).EndsAlike (s.descendRoot resolve root w) := by
  cases s with
  | single i => exact .refl _
  | chain c => exact .refl _
  | fork f paths => exact Step.endsAlike_descend resolve root _ w

theorem endsAlike_descendEntries (steps : List Step) (w : Walk α) :
    (Walk.run resolve (rootVisits root steps) w).EndsAlike
      (descendEntries resolve root steps w) := by
  induction steps generalizing root w with
  | nil => exact .refl w
  | cons s rest ih =>
    rw [rootVisits, Walk.run_append, descendEntries]
    exact (s.endsAlike_descendRoot resolve root w).unlessFailed
      (returns_rootVisits resolve _ rest _) (ih _ _)

end

def Scene.descent (s : Scene) (steps : List Step) : Walk Resolved :=
  descendEntries s.resolve 1 steps {}

/-- The walk is over. No level is open, so that its forks can be summed up, and the outcome takes
the summary over as it is. -/
structure Walk.EndsWith (w : Walk Resolved) (outcome : Except Fault Layered) : Prop where
  levels : w.journal.levels = []
  exists_summary : ∃ forks, w.journal.summary? = some forks
  ok_iff : ∀ l, outcome = .ok l ↔
    w.failure = none ∧ w.placed = l.placed ∧ w.journal.summary? = some l.forks
  error_iff : ∀ fault, outcome = .error fault ↔ w.failure = some fault

theorem Walk.endsWith_finish {w : Walk Resolved} (hw : w.journal.levels = []) :
    w.EndsWith w.finish := by
  have hsummary : w.journal.summary? = some (w.journal.forks.map (·.summary)) := by
    rw [Journal.summary?, Journal.isIdle, hw, List.isEmpty_nil, if_pos rfl]
  refine ⟨hw, ⟨_, hsummary⟩, fun l => ?_, fun fault => ?_⟩
  · rw [finish, hsummary]
    cases w.failure with
    | none =>
      obtain ⟨placed, forks⟩ := l
      simp
    | some fault => simp
  · rw [finish]
    cases w.failure <;> simp

theorem Walk.EndsAlike.finish_eq {w d : Walk Resolved} (h : w.EndsAlike d) :
    w.finish = d.finish := by
  cases hd : d.failure with
  | none => rw [h.eq_of_sound hd]
  | some fault => rw [finish, finish, h.failure, hd]

/-- From whatever state a walk goes through a fork or through the steps of a path, and whether it
fails there or not, it returns to the levels that were open before, with the steps counted that it
placed. So a whole walk ends outside of any fork, and nothing of its summary is lost. -/
theorem walks_balanced (s : Scene) :
    (∀ (f : Fork) (n : Nat) (paths : List (Path × List Step)) (root : Nat) (w : Walk Resolved),
      w.IsBalanced (Walk.run s.resolve ((pathVisits f n paths).map (root, ·)) w)
        (descendPaths s.resolve root f n paths w)) ∧
    (∀ (steps : List Step) (root : Nat) (w : Walk Resolved),
      w.IsBalanced (Walk.run s.resolve ((stepVisits steps).map (root, ·)) w)
        (descendSteps s.resolve root steps w)) ∧
    ∀ steps : List Step, (s.walk steps).EndsWith (s.place true steps) ∧
      (s.descent steps).EndsWith (s.place true steps) := by
  refine ⟨fun f n paths root w => ?_, fun steps root w => ?_, fun steps => ?_⟩
  · exact (returns_pathVisits s.resolve root f n paths w).balanced (endsAlike_descendPaths ..)
  · exact (returns_stepVisits s.resolve root steps w).balanced (endsAlike_descendSteps ..)
  · have halike : (s.walk steps).EndsAlike (s.descent steps) := endsAlike_descendEntries ..
    have hlevels : (s.walk steps).journal.levels = [] := by
      obtain ⟨_, _, hlevels⟩ := returns_rootVisits s.resolve 1 steps {}
      exact hlevels
    have hplace : s.place true steps = (s.walk steps).finish := rfl
    rw [hplace]
    refine ⟨Walk.endsWith_finish hlevels, ?_⟩
    rw [halike.finish_eq]
    exact Walk.endsWith_finish (halike.levels.symm.trans hlevels)

/-- The first path fails at its second step. After that only the walk that goes on enters the second
path; both have placed one step and closed what they opened. -/
example :
    let call (source target : String) : Step := .single { source := ⟨source⟩, target := ⟨target⟩ }
    let steps : List Step := [.fork { id := "pay", kind := .alternate }
      [({ id := "card" }, [call "shop" "shop", call "shop" "bank"]), ({ id := "cash" }, [])]]
    let s : Scene := { model := {}, viewId := "checkout", order := [⟨"shop"⟩] }
    let records (w : Walk Resolved) := w.journal.forks.map (·.paths.map (·.path.id))
    records (s.walk steps) = [["card", "cash"]] ∧ records (s.descent steps) = [["card"]] ∧
      (s.walk steps).placed.length = 1 ∧ (s.descent steps).placed.length = 1 ∧
      (s.walk steps).journal.isIdle ∧ (s.descent steps).journal.isIdle := by
  decide +kernel

end StepGraph
