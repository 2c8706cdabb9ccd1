import StepGraph.Proofs.Walk.Entered

/-!
What a journal writes down of forks with different ids. Such forks are told apart by their ids as
well as by their places, so a key is found around a site once or never, and there is one record for
each junction with a path.
-/
set_option autoImplicit false

namespace StepGraph

structure View.HasDistinctIds (v : View) : Prop where
  forks : (v.forks.map (·.1.id)).Nodup
  paths : ∀ x ∈ v.forks, (x.2.map (·.1.id)).Nodup

def View.outlined (v : View) : List Junction := v.junctions.filter (!·.paths.isEmpty)

namespace View

variable {v : View} {x y : Junction} {k : Nat} {p : Path} {steps : List Step}

theorem mem_forks_of_mem_junctions (hx : x ∈ v.junctions) : (x.fork, x.paths) ∈ v.forks :=
  (stepJunctions_sublist 0 [] v.steps).subset (List.mem_map_of_mem hx)

namespace HasDistinctIds

theorem junctions (hv : v.HasDistinctIds) : (v.junctions.map (·.fork.id)).Nodup := by
  have hsub := (stepJunctions_sublist 0 [] v.steps).map forkId
  rw [List.map_map] at hsub
  exact hv.forks.sublist hsub

theorem junction_paths (hv : v.HasDistinctIds) (hx : x ∈ v.junctions) :
    (x.paths.map (·.1.id)).Nodup := hv.paths _ (mem_forks_of_mem_junctions hx)

theorem index_eq (hv : v.HasDistinctIds) (hx : x ∈ v.junctions) {m : Nat} {q : Path}
    {others : List Step} (hp : x.paths[k]? = some (p, steps)) (hq : x.paths[m]? = some (q, others))
    (hid : q.id = p.id) : m = k := by
  have hlt : m < (x.paths.map (·.1.id)).length := by
    rw [List.length_map]
    exact (List.getElem?_eq_some_iff.mp hq).1
  refine (List.getElem?_inj hlt (hv.junction_paths hx)).mp ?_
  rw [List.getElem?_map, List.getElem?_map, hp, hq, Option.map_some, Option.map_some, hid]

end HasDistinctIds

end View

def Enclosure.key (e : Enclosure) : Key := (e.fork.id, e.path.id)

theorem key_openLevels (met : List Site) (around : List Enclosure) :
    (openLevels met around).map Level.key = around.map Enclosure.key := by
  induction around with
  | nil => rfl
  | cons e outer ih => rw [openLevels, List.map_cons, ih, List.map_cons, Level.key, Enclosure.key]

theorem count_map_eq_of_split {α : Type} {f : α → Key} {key : Key} {a : α} {chain xs : List α}
    (h : ∀ inner d outer, xs = inner ++ d :: outer → (f d = key ↔ d :: outer = a :: chain)) :
    (a :: chain <:+ xs → (xs.map f).count key = 1) ∧
      (¬ a :: chain <:+ xs → (xs.map f).count key = 0) := by
  induction xs with
  | nil => simp
  | cons b xs ih =>
    have hb := h [] b xs rfl
    obtain ⟨hone, hnone⟩ := ih fun inner d outer hd => h (b :: inner) d outer (congrArg _ hd)
    rw [List.map_cons, List.count_cons, List.suffix_cons_iff]
    by_cases hkey : f b = key
    -- The chain begins here, so it cannot begin again further on.
    · have hchain := hb.mp hkey
      have hshort : ¬ a :: chain <:+ xs := by
        intro hs
        have hl := hs.length_le
        rw [← hchain, List.length_cons] at hl
        omega
      simp [hkey, hchain, hnone hshort]
    · have hchain : a :: chain ≠ b :: xs := fun he => hkey (hb.mpr he.symm)
      simpa [hkey, hchain] using ⟨hone, hnone⟩

namespace View

variable {v : View} {x : Junction} {k : Nat} {p : Path} {steps : List Step} {t : Site}

theorem key_eq_iff (hv : v.HasDistinctIds) (hx : x ∈ v.junctions)
    (hp : x.paths[k]? = some (p, steps)) (ht : t ∈ v.sites) {inner outer : List Enclosure}
    {d : Enclosure} (hd : t.around = inner ++ d :: outer) :
    d.key = (x.fork.id, p.id) ↔ d :: outer = x.inside (k + 1) p := by
  constructor
  · intro hkey
    obtain ⟨hfork, hpath⟩ := Prod.mk.inj hkey
    obtain ⟨y, hy, m, others, hq, hin⟩ := v.exists_leads ht hd
    have hyd : d.fork = y.fork := congrArg Enclosure.fork (List.cons.inj hin).1
    have hyx : y = x := by
      refine List.inj_on_of_nodup_map hv.junctions hy hx ?_
      rw [← hyd, hfork]
    subst hyx
    obtain rfl := hv.index_eq hx hp hq hpath
    obtain ⟨rfl, rfl⟩ := Prod.mk.inj (Option.some.inj (hp.symm.trans hq))
    exact hin
  · intro hin
    have hd' := (List.cons.inj hin).1
    rw [hd']
    rfl

/-- The key of a path is around the sites inside it, once, and around no others. -/
theorem count_key (hv : v.HasDistinctIds) (hx : x ∈ v.junctions)
    (hp : x.paths[k]? = some (p, steps)) (ht : t ∈ v.sites) :
    (t.around.map Enclosure.key).count (x.fork.id, p.id) =
      (t.isWithin (x.inside (k + 1) p)).toNat := by
  obtain ⟨hone, hnone⟩ := count_map_eq_of_split fun _ _ _ hd => key_eq_iff hv hx hp ht hd
  have hwithin := v.isWithin_iff_suffix hx hp ht
  cases hw : t.isWithin (x.inside (k + 1) p) with
  | true => exact hone (hwithin.mp hw)
  | false => exact hnone fun hs => by simp [hwithin.mpr hs] at hw

end View

theorem getElem?_pathLevels (f : Fork) (n : Nat) (paths : List (Path × List Step)) (k : Nat) :
    (pathLevels f n paths)[k]? =
      paths[k]?.map fun q => { fork := f, path := q.1, index := n + k } := by
  induction paths generalizing n k with
  | nil => rfl
  | cons q rest ih =>
    cases k with
    | zero => rfl
    | succ k =>
      have hindex : n + 1 + k = n + (k + 1) := by omega
      rw [pathLevels, List.getElem?_cons_succ, ih, hindex, List.getElem?_cons_succ]

theorem map_path_pathLevels (f : Fork) (n : Nat) (paths : List (Path × List Step)) :
    (pathLevels f n paths).map (·.path) = paths.map (·.1) := by
  induction paths generalizing n with
  | nil => rfl
  | cons q rest ih => rw [pathLevels, List.map_cons, ih, List.map_cons]

theorem map_index_pathLevels (f : Fork) (n : Nat) (paths : List (Path × List Step)) :
    (pathLevels f n paths).map (·.index) = List.range' n paths.length := by
  induction paths generalizing n with
  | nil => rfl
  | cons q rest ih => rw [pathLevels, List.map_cons, ih, List.length_cons, List.range'_succ]

theorem length_pathLevels (f : Fork) (n : Nat) (paths : List (Path × List Step)) :
    (pathLevels f n paths).length = paths.length := by
  rw [← List.length_map (·.path), map_path_pathLevels, List.length_map]

namespace Junction

def record (log : List Entry) (x : Junction) : ForkRecord where
  fork := x.fork
  paths := x.levels.map fun l => { path := l.path, index := l.index, ids := idsUnder l.key log }

/-- The paths have their numbers in order, so there is nothing to sort. -/
theorem paths_summary_record (log : List Entry) (x : Junction) : (x.record log).summary.paths =
    x.levels.map fun l => ForkRecord.pathSummary x.fork
      { path := l.path, index := l.index, ids := idsUnder l.key log } := by
  have hsorted : (x.levels.map (·.index)).Pairwise (· < ·) := by
    rw [levels, map_index_pathLevels]
    exact List.pairwise_lt_range'
  rw [ForkRecord.summary, record, List.map_map, List.mergeSort_of_pairwise]
  · rfl
  · rw [List.pairwise_map] at hsorted ⊢
    exact hsorted.imp fun h => decide_eq_true (Nat.le_of_lt h)

theorem getElem?_summary_record (log : List Entry) {x : Junction} {k : Nat} {p : Path}
    {steps : List Step} (hp : x.paths[k]? = some (p, steps)) :
    (x.record log).summary.paths[k]? = some (ForkRecord.pathSummary x.fork
      { path := p, index := k + 1, ids := idsUnder (x.fork.id, p.id) log }) := by
  rw [paths_summary_record, List.getElem?_map, levels, getElem?_pathLevels, hp, Nat.add_comm k]
  rfl

end Junction

namespace View

variable {v : View}

theorem forkRecord_levels (hv : v.HasDistinctIds) (log : List Entry) {x : Junction}
    (hx : x ∈ v.junctions) {l : Level} (hl : l.fork = x.fork) :
    forkRecord v.levels log l = x.record log := by
  have hpaths : (x.levels.map (·.path.id)).Nodup := by
    have hids := congrArg (List.map Path.id) (map_path_pathLevels x.fork 1 x.paths)
    rw [List.map_map, List.map_map] at hids
    exact hids ▸ hv.junction_paths hx
  rw [forkRecord, hl, filter_levels hv.forks hx, firstsBy_of_nodup _ hpaths, Junction.record]

theorem forkRecords_levels (hv : v.HasDistinctIds) (log : List Entry) :
    forkRecords v.levels log = v.outlined.map (·.record log) := by
  rw [forkRecords, firsts_levels hv.forks, List.map_filterMap, outlined, ← List.filterMap_eq_map,
    List.filterMap_filter]
  refine List.filterMap_congr fun x hx => ?_
  have hrecord := fun l : Level => forkRecord_levels hv log hx (l := l)
  cases hpaths : x.paths with
  | nil => simp [Junction.levels, hpaths, pathLevels]
  | cons q rest => simp [Junction.levels, hpaths, pathLevels, hrecord]

end View

end StepGraph
