import Mathlib.Data.List.Nodup
import StepGraph.Journal

/-!
What a journal has written down. Its forks and the paths of each are told apart by their ids, every
level that was ever open is found among them, and under a path stand the ids that were recorded
while a level of it was open, once for each such level.
-/
set_option autoImplicit false

namespace StepGraph

/-- The ids of a fork and of one of its paths. Levels of the same key are written down together. -/
abbrev Key := String × String

def Level.key (l : Level) : Key := (l.fork.id, l.path.id)

def TrailEntry.key (t : TrailEntry) : Key := (t.forkId, t.pathId)

abbrev Entry := EdgeId × List Key

/-- What stands under a key: every id once for each of its keys that is this one. -/
def idsUnder (key : Key) (log : List Entry) : List EdgeId :=
  log.flatMap fun x => List.replicate (x.2.count key) x.1

theorem idsUnder_concat (key : Key) (log : List Entry) (x : Entry) :
    idsUnder key (log ++ [x]) = idsUnder key log ++ List.replicate (x.2.count key) x.1 := by
  simp [idsUnder]

theorem idsUnder_eq_nil {key : Key} {log : List Entry} (h : ∀ x ∈ log, key ∉ x.2) :
    idsUnder key log = [] := by
  rw [idsUnder, List.flatMap_eq_nil_iff]
  intro x hx
  rw [List.count_eq_zero.mpr (h x hx), List.replicate_zero]

def Lists (forks : List ForkRecord) (key : Key) : Prop :=
  ∃ r ∈ forks, r.fork.id = key.1 ∧ ∃ q ∈ r.paths, q.path.id = key.2

structure Holds (forks : List ForkRecord) (log : List Entry) : Prop where
  nodup_forks : (forks.map (·.fork.id)).Nodup
  nodup_paths : ∀ r ∈ forks, (r.paths.map (·.path.id)).Nodup
  lists : ∀ x ∈ log, ∀ key ∈ x.2, Lists forks key
  ids : ∀ r ∈ forks, ∀ q ∈ r.paths, q.ids = idsUnder (r.fork.id, q.path.id) log

def withFork (fork : Fork) (forks : List ForkRecord) : List ForkRecord :=
  if forks.any (·.fork.id == fork.id) then forks else forks ++ [{ fork := fork }]

namespace ForkRecord

@[simp] theorem fork_enterPath (l : Level) (r : ForkRecord) : (r.enterPath l).fork = r.fork := by
  rw [enterPath]
  split <;> rfl

theorem mem_enterPath {l : Level} {r : ForkRecord} {q : PathRecord} :
    q ∈ (r.enterPath l).paths ↔ q ∈ r.paths ∨
      l.path.id ∉ r.paths.map (·.path.id) ∧ q = { path := l.path, index := l.index } := by
  rw [enterPath]
  split
  · rename_i h
    have hmem : l.path.id ∈ r.paths.map (·.path.id) := by simpa using h
    simp [hmem]
  · rename_i h
    have hmem : l.path.id ∉ r.paths.map (·.path.id) := by simpa using h
    simp [hmem]

theorem nodup_enterPath {l : Level} {r : ForkRecord} (h : (r.paths.map (·.path.id)).Nodup) :
    ((r.enterPath l).paths.map (·.path.id)).Nodup := by
  rw [enterPath]
  split
  · exact h
  · rename_i hnew
    have hmem : l.path.id ∉ r.paths.map (·.path.id) := by simpa using hnew
    rw [List.map_append, List.map_singleton]
    exact List.nodup_append.mpr ⟨h, List.nodup_singleton _, by simpa using hnew⟩

theorem exists_mem_enterPath (l : Level) (r : ForkRecord) :
    ∃ q ∈ (r.enterPath l).paths, q.path.id = l.path.id := by
  by_cases h : l.path.id ∈ r.paths.map (·.path.id)
  · obtain ⟨q, hq, hid⟩ := List.mem_map.mp h
    exact ⟨q, mem_enterPath.mpr (.inl hq), hid⟩
  · exact ⟨_, mem_enterPath.mpr (.inr ⟨h, rfl⟩), rfl⟩

def enterOn (l : Level) (r : ForkRecord) : ForkRecord :=
  if r.fork.id == l.fork.id then r.enterPath l else r

@[simp] theorem fork_enterOn (l : Level) (r : ForkRecord) : (r.enterOn l).fork = r.fork := by
  rw [enterOn]
  split <;> simp

end ForkRecord

theorem ForkRecord.map_enterOn_of_new {l : Level} {forks : List ForkRecord}
    (h : l.fork.id ∉ forks.map (·.fork.id)) : forks.map (·.enterOn l) = forks := by
  refine (List.map_congr_left fun r hr => ?_).trans (List.map_id forks)
  have hne : r.fork.id ≠ l.fork.id := fun he => h (List.mem_map.mpr ⟨r, hr, he⟩)
  simp [enterOn, hne]

theorem withFork_cons (fork : Fork) (r : ForkRecord) (rest : List ForkRecord) :
    withFork fork (r :: rest) =
      if r.fork.id == fork.id then r :: rest else r :: withFork fork rest := by
  cases hr : r.fork.id == fork.id with
  | true => simp [withFork, hr]
  | false =>
    simp only [withFork, List.any_cons, hr, Bool.false_or]
    split <;> rfl

/-- Where forks have different ids, a level is entered on the one of its id, made first if new. -/
theorem Journal.enterFork_eq (l : Level) {forks : List ForkRecord}
    (h : (forks.map (·.fork.id)).Nodup) :
    enterFork l forks = (withFork l.fork forks).map (·.enterOn l) := by
  induction forks with
  | nil => simp [enterFork, withFork, ForkRecord.enterOn]
  | cons r rest ih =>
    rw [List.map_cons, List.nodup_cons] at h
    rw [enterFork, withFork_cons]
    split
    · rename_i hr
      have hnew : l.fork.id ∉ rest.map (·.fork.id) := beq_iff_eq.mp hr ▸ h.1
      rw [List.map_cons, ForkRecord.map_enterOn_of_new hnew, ForkRecord.enterOn, if_pos hr]
    · rename_i hr
      rw [List.map_cons, ih h.2, ForkRecord.enterOn, if_neg hr]

theorem mem_withFork {fork : Fork} {forks : List ForkRecord} {r : ForkRecord} :
    r ∈ withFork fork forks ↔ r ∈ forks ∨
      fork.id ∉ forks.map (·.fork.id) ∧ r = { fork := fork } := by
  rw [withFork]
  split
  · rename_i h
    have hmem : fork.id ∈ forks.map (·.fork.id) := by simpa using h
    simp [hmem]
  · rename_i h
    have hmem : fork.id ∉ forks.map (·.fork.id) := by simpa using h
    simp [hmem]

namespace Holds

variable {forks : List ForkRecord} {log : List Entry}

theorem nil : Holds [] [] := ⟨.nil, by simp, by simp, by simp⟩

/-- A fork that is new holds no paths yet. -/
theorem add_fork (h : Holds forks log) (fork : Fork) : Holds (withFork fork forks) log := by
  refine ⟨?_, fun r hr => ?_, fun x hx key hkey => ?_, fun r hr q hq => ?_⟩
  · rw [withFork]
    split
    · exact h.nodup_forks
    · rename_i hnew
      rw [List.map_append, List.map_singleton]
      exact List.nodup_append.mpr ⟨h.nodup_forks, List.nodup_singleton _, by simpa using hnew⟩
  · rcases mem_withFork.mp hr with hr | ⟨_, rfl⟩
    · exact h.nodup_paths r hr
    · simp
  · obtain ⟨r, hr, hlists⟩ := h.lists x hx key hkey
    exact ⟨r, mem_withFork.mpr (.inl hr), hlists⟩
  · rcases mem_withFork.mp hr with hr | ⟨_, rfl⟩
    · exact h.ids r hr q hq
    · simp at hq

theorem lists_enterOn {key : Key} (h : Lists forks key) (l : Level) :
    Lists (forks.map (·.enterOn l)) key := by
  obtain ⟨r, hr, hid, q, hq, hqid⟩ := h
  refine ⟨r.enterOn l, List.mem_map_of_mem hr, by simpa using hid, q, ?_, hqid⟩
  rw [ForkRecord.enterOn]
  split
  · exact ForkRecord.mem_enterPath.mpr (.inl hq)
  · exact hq

/-- Under a path that is new nothing was recorded, as whatever was recorded has its paths listed. -/
theorem idsUnder_of_new (h : Holds forks log) {r : ForkRecord} (hr : r ∈ forks) {path : String}
    (hnew : path ∉ r.paths.map (·.path.id)) : idsUnder (r.fork.id, path) log = [] := by
  refine idsUnder_eq_nil fun x hx hkey => hnew ?_
  obtain ⟨s, hs, hid, q, hq, hqid⟩ := h.lists x hx _ hkey
  have hsr : s = r := List.inj_on_of_nodup_map h.nodup_forks hs hr hid
  exact List.mem_map.mpr ⟨q, hsr ▸ hq, hqid⟩

theorem enter_on (h : Holds forks log) (l : Level) : Holds (forks.map (·.enterOn l)) log := by
  refine ⟨?_, List.forall_mem_map.mpr fun r hr => ?_,
    fun x hx key hkey => lists_enterOn (h.lists x hx key hkey) l,
    List.forall_mem_map.mpr fun r hr q hq => ?_⟩
  · simpa [Function.comp_def] using h.nodup_forks
  · rw [ForkRecord.enterOn]
    split
    · exact ForkRecord.nodup_enterPath (h.nodup_paths r hr)
    · exact h.nodup_paths r hr
  · rw [ForkRecord.fork_enterOn]
    rw [ForkRecord.enterOn] at hq
    split at hq
    · rcases ForkRecord.mem_enterPath.mp hq with hq | ⟨hnew, rfl⟩
      · exact h.ids r hr q hq
      · exact (h.idsUnder_of_new hr hnew).symm
    · exact h.ids r hr q hq

theorem enter (h : Holds forks log) (l : Level) : Holds (Journal.enterFork l forks) log := by
  rw [Journal.enterFork_eq l h.nodup_forks]
  exact (h.add_fork l.fork).enter_on l

theorem lists_enter (h : Holds forks log) (l : Level) {key : Key}
    (hkey : key = l.key ∨ Lists forks key) : Lists (Journal.enterFork l forks) key := by
  rw [Journal.enterFork_eq l h.nodup_forks]
  rcases hkey with rfl | ⟨r, hr, hid, hpath⟩
  · obtain ⟨r, hr, hid⟩ : ∃ r ∈ withFork l.fork forks, r.fork.id = l.fork.id := by
      by_cases hold : l.fork.id ∈ forks.map (·.fork.id)
      · obtain ⟨r, hr, hid⟩ := List.mem_map.mp hold
        exact ⟨r, mem_withFork.mpr (.inl hr), hid⟩
      · exact ⟨_, mem_withFork.mpr (.inr ⟨hold, rfl⟩), rfl⟩
    have hentered := (congrArg Fork.id (r.fork_enterOn l)).trans hid
    refine ⟨r.enterOn l, List.mem_map_of_mem hr, hentered, ?_⟩
    rw [ForkRecord.enterOn, if_pos (beq_iff_eq.mpr hid)]
    exact r.exists_mem_enterPath l
  · exact lists_enterOn ⟨r, mem_withFork.mpr (.inl hr), hid, hpath⟩ l

end Holds

def ForkRecord.recordUnder (keys : List Key) (id : EdgeId) (r : ForkRecord) : ForkRecord :=
  { r with paths := r.paths.map fun q =>
      { q with ids := q.ids ++ List.replicate (keys.count (r.fork.id, q.path.id)) id } }

theorem ForkRecord.recordUnder_cons (l : Level) (keys : List Key) (id : EdgeId) (r : ForkRecord) :
    r.recordUnder (l.key :: keys) id =
      (if r.fork.id == l.fork.id then r.record l id else r).recordUnder keys id := by
  split
  · rename_i hf
    rw [beq_iff_eq] at hf
    simp only [recordUnder, record, List.map_map, Function.comp_def, ForkRecord.mk.injEq, true_and]
    refine List.map_congr_left fun q _ => ?_
    by_cases hq : q.path.id = l.path.id
    · simp [Level.key, hf, hq, List.replicate_succ]
    · simp [Level.key, hf, hq, Ne.symm hq]
  · rename_i hf
    rw [beq_iff_eq] at hf
    simp [recordUnder, Level.key, Ne.symm hf]

theorem Journal.foldl_recordOn (id : EdgeId) (levels : List Level) (forks : List ForkRecord) :
    levels.foldl (recordOn id) forks = forks.map (·.recordUnder (levels.map Level.key) id) := by
  induction levels generalizing forks with
  | nil => simp [ForkRecord.recordUnder]
  | cons l rest ih =>
    rw [List.foldl_cons, ih, recordOn, List.map_map]
    exact List.map_congr_left fun r _ => (r.recordUnder_cons l _ id).symm

theorem Lists.recordUnder {forks : List ForkRecord} {key : Key} (h : Lists forks key)
    (keys : List Key) (id : EdgeId) : Lists (forks.map (·.recordUnder keys id)) key := by
  obtain ⟨r, hr, hid, q, hq, hqid⟩ := h
  exact ⟨_, List.mem_map_of_mem hr, hid, _, List.mem_map_of_mem hq, hqid⟩

/-- Keys of an entry may stand in any order. -/
theorem Holds.record {forks : List ForkRecord} {log : List Entry} (h : Holds forks log)
    {keys : List Key} {x : Entry} (hkeys : keys.Perm x.2) (hlists : ∀ key ∈ keys, Lists forks key) :
    Holds (forks.map (·.recordUnder keys x.1)) (log ++ [x]) := by
  refine ⟨?_, List.forall_mem_map.mpr fun r hr => ?_, fun y hy key hkey => ?_,
    List.forall_mem_map.mpr fun r hr => List.forall_mem_map.mpr fun q hq => ?_⟩
  · simpa [Function.comp_def, ForkRecord.recordUnder] using h.nodup_forks
  · simpa [Function.comp_def, ForkRecord.recordUnder] using h.nodup_paths r hr
  · rcases List.mem_append.mp hy with hy | hy
    · exact (h.lists y hy key hkey).recordUnder keys x.1
    · rw [List.mem_singleton.mp hy] at hkey
      exact (hlists key (hkeys.mem_iff.mpr hkey)).recordUnder keys x.1
  · rw [idsUnder_concat, ← hkeys.count_eq]
    exact congrArg (· ++ _) (h.ids r hr q hq)

theorem ForkRecord.paths_summary_perm (r : ForkRecord) :
    r.summary.paths.Perm (r.paths.map (pathSummary r.fork)) := List.mergeSort_perm _ _

theorem ForkRecord.mem_summary {r : ForkRecord} {p : PathSummary} :
    p ∈ r.summary.paths ↔ ∃ q ∈ r.paths, pathSummary r.fork q = p := by
  rw [r.paths_summary_perm.mem_iff, List.mem_map]

namespace Holds

variable {forks : List ForkRecord} {log : List Entry}

theorem nodup_summary (h : Holds forks log) :
    ((forks.map (·.summary)).map (·.forkId)).Nodup := by
  rw [List.map_map]
  exact h.nodup_forks

theorem nodup_paths_summary (h : Holds forks log) {c : ForkSummary}
    (hc : c ∈ forks.map (·.summary)) : (c.paths.map (·.pathId)).Nodup := by
  obtain ⟨r, hr, rfl⟩ := List.mem_map.mp hc
  rw [(r.paths_summary_perm.map (·.pathId)).nodup_iff, List.map_map]
  exact h.nodup_paths r hr

theorem exists_summary (h : Holds forks log) {x : Entry} (hx : x ∈ log) {key : Key}
    (hkey : key ∈ x.2) : ∃ c ∈ forks.map (·.summary), c.forkId = key.1 ∧
      ∃ p ∈ c.paths, p.pathId = key.2 := by
  obtain ⟨r, hr, hid, q, hq, hqid⟩ := h.lists x hx key hkey
  exact ⟨r.summary, List.mem_map_of_mem hr, hid, _, ForkRecord.mem_summary.mpr ⟨q, hq, rfl⟩, hqid⟩

theorem edgeIds_summary (h : Holds forks log) {c : ForkSummary} (hc : c ∈ forks.map (·.summary))
    {p : PathSummary} (hp : p ∈ c.paths) : p.edgeIds = idsUnder (c.forkId, p.pathId) log := by
  obtain ⟨r, hr, rfl⟩ := List.mem_map.mp hc
  obtain ⟨q, hq, rfl⟩ := ForkRecord.mem_summary.mp hp
  exact h.ids r hr q hq

end Holds

end StepGraph
