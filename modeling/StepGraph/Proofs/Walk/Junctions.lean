import StepGraph.Proofs.Step
import StepGraph.Proofs.Walk.Placing

/-!
Where a walk parts. A junction is a fork that the walk goes into, with the paths around it. The
sites inside one of its paths follow on each other, and every path around a site begins at a
junction.
-/
set_option autoImplicit false

namespace StepGraph

structure Junction where
  fork : Fork
  paths : List (Path × List Step)
  /-- Place of the fork among its neighbours, from zero. -/
  entry : Nat
  /-- The paths around the fork, the innermost first. -/
  around : List Enclosure

def Junction.inside (x : Junction) (n : Nat) (p : Path) : List Enclosure :=
  { fork := x.fork, path := p, index := n, entry := x.entry } :: x.around

mutual

/-- The junctions of an entry, each before those inside it; void forks are passed by, with all that
is in them. -/
def Step.junctions (entry : Nat) (around : List Enclosure) : Step → List Junction
  | .single _ => []
  | .chain _ => []
  | .fork f paths =>
    if (Step.fork f paths).isVoid then []
    else { fork := f, paths, entry, around } :: pathJunctions f entry 1 around paths

def pathJunctions (f : Fork) (entry n : Nat) (around : List Enclosure) :
    List (Path × List Step) → List Junction
  | [] => []
  | (p, steps) :: rest =>
    stepJunctions 0 ({ fork := f, path := p, index := n, entry } :: around) steps ++
      pathJunctions f entry (n + 1) around rest

def stepJunctions (entry : Nat) (around : List Enclosure) : List Step → List Junction
  | [] => []
  | s :: rest => s.junctions entry around ++ stepJunctions (entry + 1) around rest

end

def View.junctions (v : View) : List Junction := stepJunctions 0 [] v.steps

mutual

theorem Step.junctions_sublist (entry : Nat) (around : List Enclosure) (s : Step) :
    ((s.junctions entry around).map fun x => (x.fork, x.paths)).Sublist s.forks := by
  cases s with
  | single i => exact List.nil_sublist _
  | chain c => exact List.nil_sublist _
  | fork f paths =>
    rw [Step.junctions, Step.forks]
    split
    · exact List.nil_sublist _
    · exact (pathJunctions_sublist f entry 1 around paths).cons_cons _

theorem pathJunctions_sublist (f : Fork) (entry n : Nat) (around : List Enclosure)
    (paths : List (Path × List Step)) :
    ((pathJunctions f entry n around paths).map fun x => (x.fork, x.paths)).Sublist
      (pathForks paths) := by
  match paths with
  | [] => exact List.nil_sublist _
  | (p, steps) :: rest =>
    rw [pathJunctions, pathForks, List.map_append]
    exact (stepJunctions_sublist 0 _ steps).append
      (pathJunctions_sublist f entry (n + 1) around rest)

theorem stepJunctions_sublist (entry : Nat) (around : List Enclosure) (steps : List Step) :
    ((stepJunctions entry around steps).map fun x => (x.fork, x.paths)).Sublist
      (stepForks steps) := by
  match steps with
  | [] => exact List.nil_sublist _
  | s :: rest =>
    rw [stepJunctions, stepForks, List.map_append]
    exact (s.junctions_sublist entry around).append (stepJunctions_sublist (entry + 1) around rest)

end

mutual

theorem Step.around_of_mem_junctions {entry : Nat} {around : List Enclosure} (s : Step)
    {x : Junction} (hx : x ∈ s.junctions entry around) (n : Nat) (p : Path) :
    ∃ e, e.entry = entry ∧ e :: around <:+ x.inside n p := by
  cases s with
  | single i => simp [Step.junctions] at hx
  | chain c => simp [Step.junctions] at hx
  | fork f paths =>
    rw [Step.junctions] at hx
    split at hx
    · simp at hx
    · rcases List.mem_cons.mp hx with rfl | hx
      · exact ⟨_, rfl, List.suffix_rfl⟩
      · obtain ⟨e, he, _, hs⟩ := around_of_mem_pathJunctions paths hx n p
        exact ⟨e, he, hs⟩

theorem around_of_mem_pathJunctions {f : Fork} {entry m : Nat} {around : List Enclosure}
    (paths : List (Path × List Step)) {x : Junction}
    (hx : x ∈ pathJunctions f entry m around paths) (n : Nat) (p : Path) :
    ∃ e, e.entry = entry ∧ m ≤ e.index ∧ e :: around <:+ x.inside n p := by
  match paths with
  | [] => simp [pathJunctions] at hx
  | (q, steps) :: rest =>
    rw [pathJunctions, List.mem_append] at hx
    rcases hx with hx | hx
    · obtain ⟨d, _, hs⟩ := around_of_mem_stepJunctions steps hx n p
      exact ⟨_, rfl, Nat.le_refl m, (List.suffix_cons d _).trans hs⟩
    · obtain ⟨e, he, hm, hs⟩ := around_of_mem_pathJunctions rest hx n p
      exact ⟨e, he, by omega, hs⟩

theorem around_of_mem_stepJunctions {entry : Nat} {around : List Enclosure} (steps : List Step)
    {x : Junction} (hx : x ∈ stepJunctions entry around steps) (n : Nat) (p : Path) :
    ∃ e, entry ≤ e.entry ∧ e :: around <:+ x.inside n p := by
  match steps with
  | [] => simp [stepJunctions] at hx
  | s :: rest =>
    rw [stepJunctions, List.mem_append] at hx
    rcases hx with hx | hx
    · obtain ⟨e, he, hs⟩ := s.around_of_mem_junctions hx n p
      exact ⟨e, by omega, hs⟩
    · obtain ⟨e, he, hs⟩ := around_of_mem_stepJunctions rest hx n p
      exact ⟨e, by omega, hs⟩

end

theorem place_of_mem_stepSites {root entry : Nat} {around : List Enclosure} {steps : List Step}
    {t : Site} (h : t ∈ stepSites root entry around steps) :
    t.around = around ∨ ∃ d, entry ≤ d.entry ∧ d :: around <:+ t.around := by
  induction steps generalizing entry with
  | nil => simp [stepSites] at h
  | cons s rest ih =>
    rw [stepSites, List.mem_append] at h
    rcases h with h | h
    · obtain ⟨_, ha | ⟨d, hd, hs⟩⟩ := s.around_of_mem_sites h
      · exact .inl ha
      · exact .inr ⟨d, by omega, hs⟩
    · rcases ih h with ha | ⟨d, hd, hs⟩
      · exact .inl ha
      · exact .inr ⟨d, by omega, hs⟩

theorem place_of_mem_rootSites {root entry : Nat} {steps : List Step} {t : Site}
    (h : t ∈ rootSites root entry steps) :
    t.around = [] ∨ ∃ d, entry ≤ d.entry ∧ [d] <:+ t.around := by
  induction steps generalizing root entry with
  | nil => simp [rootSites] at h
  | cons s rest ih =>
    rw [rootSites, List.mem_append] at h
    rcases h with h | h
    · obtain ⟨_, _, ha | ⟨d, hd, hs⟩⟩ := s.mem_rootSites h
      · exact .inl ha
      · exact .inr ⟨d, by omega, hs⟩
    · rcases ih h with ha | ⟨d, hd, hs⟩
      · exact .inl ha
      · exact .inr ⟨d, by omega, hs⟩

theorem Enclosure.place_ne_of_entry {d e : Enclosure} (h : d.entry ≠ e.entry) :
    d.place ≠ e.place := fun he => h (congrArg Prod.fst he)

theorem Enclosure.place_ne_of_index {d e : Enclosure} (h : d.index ≠ e.index) :
    d.place ≠ e.place := fun he => h (congrArg Prod.snd he)

/-- A site is not inside a path that comes in through another place. -/
theorem Site.isWithin_eq_false {t : Site} {chain around : List Enclosure} {e : Enclosure}
    (hc : e :: around <:+ chain)
    (ht : t.around = around ∨ ∃ d, d.place ≠ e.place ∧ d :: around <:+ t.around) :
    t.isWithin chain = false := by
  cases hw : t.isWithin chain with
  | false => rfl
  | true =>
    have he : t.isWithin (e :: around) = true :=
      isWithin_iff.mpr ((hc.map Enclosure.place).trans (isWithin_iff.mp hw))
    rcases ht with ha | ⟨d, hne, hd⟩
    · have hl := (isWithin_iff.mp he).length_le
      simp only [ha, List.length_map, List.length_cons] at hl
      omega
    · exact absurd (place_eq_of_isWithin he hd).symm hne

def Site.IsRun (chain : List Enclosure) (run sites : List Site) : Prop :=
  ∃ before after, sites = before ++ run ++ after ∧
    (∀ t ∈ before, t.isWithin chain = false) ∧ ∀ t ∈ after, t.isWithin chain = false

namespace Site.IsRun

variable {chain : List Enclosure} {run sites more : List Site}

theorem refl (chain : List Enclosure) (run : List Site) : IsRun chain run run :=
  ⟨[], [], by simp, List.forall_mem_nil _, List.forall_mem_nil _⟩

theorem append_right (h : IsRun chain run sites) (hmore : ∀ t ∈ more, t.isWithin chain = false) :
    IsRun chain run (sites ++ more) := by
  obtain ⟨before, after, rfl, hb, ha⟩ := h
  refine ⟨before, after ++ more, by simp, hb, fun t ht => ?_⟩
  exact (List.mem_append.mp ht).elim (ha t) (hmore t)

theorem append_left (h : IsRun chain run sites) (hmore : ∀ t ∈ more, t.isWithin chain = false) :
    IsRun chain run (more ++ sites) := by
  obtain ⟨before, after, rfl, hb, ha⟩ := h
  refine ⟨more ++ before, after, by simp, fun t ht => ?_, ha⟩
  exact (List.mem_append.mp ht).elim (hmore t) (hb t)

end Site.IsRun

/-- The sites in one path of a fork among those in all its paths. -/
theorem isRun_pathSites (root : Nat) (f : Fork) (entry n : Nat) (around : List Enclosure)
    {paths : List (Path × List Step)} {k : Nat} {p : Path} {steps : List Step}
    (hp : paths[k]? = some (p, steps)) :
    Site.IsRun ({ fork := f, path := p, index := n + k, entry } :: around)
      (stepSites root 0 ({ fork := f, path := p, index := n + k, entry } :: around) steps)
      (pathSites root f entry n around paths) := by
  induction paths generalizing n k with
  | nil => simp at hp
  | cons q rest ih =>
    obtain ⟨q, first⟩ := q
    rw [pathSites]
    cases k with
    | zero =>
      obtain ⟨rfl, rfl⟩ : q = p ∧ first = steps := by simpa using hp
      refine (Site.IsRun.refl _ _).append_right fun t ht => ?_
      obtain ⟨_, d, _, hd, hs⟩ := around_of_mem_pathSites rest ht
      exact Site.isWithin_eq_false List.suffix_rfl
        (.inr ⟨d, Enclosure.place_ne_of_index (by simp; omega), hs⟩)
    | succ k =>
      have hrest := ih (n + 1) (k := k) (by simpa using hp)
      rw [show n + 1 + k = n + (k + 1) by omega] at hrest
      refine hrest.append_left fun t ht => ?_
      have hs := (around_of_mem_stepSites first ht).2
      exact Site.isWithin_eq_false List.suffix_rfl
        (.inr ⟨_, Enclosure.place_ne_of_index (by simp), hs⟩)

/- Where a list of sites is put together, the junction is in one of the parts, and the sites of the
others come in through other places: another entry, or another path of the same fork. -/
mutual

theorem Step.isRun_sites (root : Nat) {entry : Nat} {around : List Enclosure} (s : Step)
    {x : Junction} (hx : x ∈ s.junctions entry around) {k : Nat} {p : Path} {steps : List Step}
    (hp : x.paths[k]? = some (p, steps)) :
    Site.IsRun (x.inside (k + 1) p) (stepSites root 0 (x.inside (k + 1) p) steps)
      (s.sites root entry around) := by
  cases s with
  | single i => simp [Step.junctions] at hx
  | chain c => simp [Step.junctions] at hx
  | fork f paths =>
    rw [Step.junctions] at hx
    rw [Step.sites]
    split at hx
    · simp at hx
    · rename_i hv
      rw [if_neg hv]
      rcases List.mem_cons.mp hx with rfl | hx
      · have h := isRun_pathSites root f entry 1 around hp
        rwa [Nat.add_comm] at h
      · exact isRun_of_mem_pathJunctions root paths hx hp

theorem isRun_of_mem_pathJunctions (root : Nat) {f : Fork} {entry n : Nat}
    {around : List Enclosure} (paths : List (Path × List Step)) {x : Junction}
    (hx : x ∈ pathJunctions f entry n around paths) {k : Nat} {p : Path} {steps : List Step}
    (hp : x.paths[k]? = some (p, steps)) :
    Site.IsRun (x.inside (k + 1) p) (stepSites root 0 (x.inside (k + 1) p) steps)
      (pathSites root f entry n around paths) := by
  match paths with
  | [] => simp [pathJunctions] at hx
  | (q, first) :: rest =>
    rw [pathJunctions, List.mem_append] at hx
    rw [pathSites]
    rcases hx with hx | hx
    · refine (isRun_of_mem_stepJunctions root first hx hp).append_right fun t ht => ?_
      obtain ⟨e, _, hs⟩ := around_of_mem_stepJunctions first hx (k + 1) p
      obtain ⟨_, d, _, hd, hds⟩ := around_of_mem_pathSites rest ht
      exact Site.isWithin_eq_false ((List.suffix_cons e _).trans hs)
        (.inr ⟨d, Enclosure.place_ne_of_index (by simp; omega), hds⟩)
    · refine (isRun_of_mem_pathJunctions root rest hx hp).append_left fun t ht => ?_
      obtain ⟨e, _, hm, hs⟩ := around_of_mem_pathJunctions rest hx (k + 1) p
      exact Site.isWithin_eq_false hs (.inr ⟨_, Enclosure.place_ne_of_index (by simp; omega),
        (around_of_mem_stepSites first ht).2⟩)

theorem isRun_of_mem_stepJunctions (root : Nat) {entry : Nat} {around : List Enclosure}
    (steps : List Step) {x : Junction} (hx : x ∈ stepJunctions entry around steps) {k : Nat}
    {p : Path} {inner : List Step} (hp : x.paths[k]? = some (p, inner)) :
    Site.IsRun (x.inside (k + 1) p) (stepSites root 0 (x.inside (k + 1) p) inner)
      (stepSites root entry around steps) := by
  match steps with
  | [] => simp [stepJunctions] at hx
  | s :: rest =>
    rw [stepJunctions, List.mem_append] at hx
    rw [stepSites]
    rcases hx with hx | hx
    · refine (s.isRun_sites root hx hp).append_right fun t ht => ?_
      obtain ⟨e, he, hs⟩ := s.around_of_mem_junctions hx (k + 1) p
      refine Site.isWithin_eq_false hs ((place_of_mem_stepSites ht).imp_right ?_)
      rintro ⟨d, hd, hds⟩
      exact ⟨d, Enclosure.place_ne_of_entry (by omega), hds⟩
    · refine (isRun_of_mem_stepJunctions root rest hx hp).append_left fun t ht => ?_
      obtain ⟨e, he, hs⟩ := around_of_mem_stepJunctions rest hx (k + 1) p
      refine Site.isWithin_eq_false hs ((s.around_of_mem_sites ht).2.imp_right ?_)
      rintro ⟨d, hd, hds⟩
      exact ⟨d, Enclosure.place_ne_of_entry (by omega), hds⟩

end

theorem Step.isRun_rootSites (root : Nat) {entry : Nat} (s : Step) {x : Junction}
    (hx : x ∈ s.junctions entry []) {k : Nat} {p : Path} {steps : List Step}
    (hp : x.paths[k]? = some (p, steps)) : ∃ root', Site.IsRun (x.inside (k + 1) p)
      (stepSites root' 0 (x.inside (k + 1) p) steps) (s.rootSites root entry) := by
  cases s with
  | single i => simp [Step.junctions] at hx
  | chain c => simp [Step.junctions] at hx
  | fork f paths => exact ⟨root, Step.isRun_sites root _ hx hp⟩

theorem isRun_rootSites (root : Nat) {entry : Nat} {steps : List Step} {x : Junction}
    (hx : x ∈ stepJunctions entry [] steps) {k : Nat} {p : Path} {inner : List Step}
    (hp : x.paths[k]? = some (p, inner)) : ∃ root', Site.IsRun (x.inside (k + 1) p)
      (stepSites root' 0 (x.inside (k + 1) p) inner) (rootSites root entry steps) := by
  induction steps generalizing root entry with
  | nil => simp [stepJunctions] at hx
  | cons s rest ih =>
    rw [stepJunctions, List.mem_append] at hx
    rw [rootSites]
    rcases hx with hx | hx
    · obtain ⟨root', hrun⟩ := s.isRun_rootSites root hx hp
      refine ⟨root', hrun.append_right fun t ht => ?_⟩
      obtain ⟨e, he, hs⟩ := s.around_of_mem_junctions hx (k + 1) p
      refine Site.isWithin_eq_false hs ((place_of_mem_rootSites ht).imp_right ?_)
      rintro ⟨d, hd, hds⟩
      exact ⟨d, Enclosure.place_ne_of_entry (by omega), hds⟩
    · obtain ⟨root', hrun⟩ := ih (root + s.roots) hx
      refine ⟨root', hrun.append_left fun t ht => ?_⟩
      obtain ⟨e, he, hs⟩ := around_of_mem_stepJunctions rest hx (k + 1) p
      refine Site.isWithin_eq_false hs ((s.mem_rootSites ht).2.2.imp_right ?_)
      rintro ⟨d, hd, hds⟩
      exact ⟨d, Enclosure.place_ne_of_entry (by omega), hds⟩

/-- The sites inside a path of a junction are those of the steps in the path. -/
theorem View.isRun_sites {v : View} {x : Junction} (hx : x ∈ v.junctions) {k : Nat} {p : Path}
    {steps : List Step} (hp : x.paths[k]? = some (p, steps)) :
    ∃ run, Site.IsRun (x.inside (k + 1) p) run v.sites ∧
      ∀ t ∈ run, x.inside (k + 1) p <:+ t.around := by
  obtain ⟨root, hrun⟩ := isRun_rootSites 1 hx hp
  exact ⟨_, hrun, fun t ht => (around_of_mem_stepSites steps ht).2⟩

theorem View.isWithin_iff_suffix {v : View} {x : Junction} (hx : x ∈ v.junctions) {k : Nat}
    {p : Path} {steps : List Step} (hp : x.paths[k]? = some (p, steps)) {t : Site}
    (ht : t ∈ v.sites) :
    t.isWithin (x.inside (k + 1) p) = true ↔ x.inside (k + 1) p <:+ t.around := by
  obtain ⟨run, ⟨before, after, hsites, hb, ha⟩, hin⟩ := v.isRun_sites hx hp
  refine ⟨fun hw => ?_, Site.isWithin_of_suffix⟩
  rw [hsites, List.mem_append, List.mem_append] at ht
  rcases ht with (ht | ht) | ht
  · rw [hb t ht] at hw
    cases hw
  · exact hin t ht
  · rw [ha t ht] at hw
    cases hw

def Junction.Leads (x : Junction) (d : Enclosure) (outer : List Enclosure) : Prop :=
  ∃ k steps, x.paths[k]? = some (d.path, steps) ∧ d :: outer = x.inside (k + 1) d.path

mutual

theorem Step.exists_leads {root entry : Nat} {around : List Enclosure} (s : Step) {t : Site}
    (ht : t ∈ s.sites root entry around) {inner outer : List Enclosure} {d : Enclosure}
    (hd : t.around = inner ++ d :: outer) (hle : around.length ≤ outer.length) :
    ∃ x ∈ s.junctions entry around, x.Leads d outer := by
  have hlong : t.around ≠ around := by
    intro he
    have hl := congrArg List.length (he.symm.trans hd)
    simp only [List.length_append, List.length_cons] at hl
    omega
  cases s with
  | single i =>
    rw [Step.sites, List.mem_singleton] at ht
    exact absurd (congrArg Site.around ht) hlong
  | chain c =>
    rw [Step.sites, List.mem_map] at ht
    obtain ⟨i, _, rfl⟩ := ht
    exact absurd rfl hlong
  | fork f paths =>
    rw [Step.sites] at ht
    rw [Step.junctions]
    split at ht
    · simp at ht
    · rename_i hv
      rw [if_neg hv]
      rcases exists_leads_of_mem_pathSites paths ht hd hle with ⟨x, hx, hl⟩ | ⟨k, steps, hp, he⟩
      · exact ⟨x, List.mem_cons_of_mem _ hx, hl⟩
      · rw [Nat.add_comm] at he
        exact ⟨_, List.mem_cons_self, k, steps, hp, he⟩

theorem exists_leads_of_mem_pathSites {root : Nat} {f : Fork} {entry n : Nat}
    {around : List Enclosure} (paths : List (Path × List Step)) {t : Site}
    (ht : t ∈ pathSites root f entry n around paths) {inner outer : List Enclosure} {d : Enclosure}
    (hd : t.around = inner ++ d :: outer) (hle : around.length ≤ outer.length) :
    (∃ x ∈ pathJunctions f entry n around paths, x.Leads d outer) ∨
      ∃ k steps, paths[k]? = some (d.path, steps) ∧
        d :: outer = { fork := f, path := d.path, index := n + k, entry } :: around := by
  match paths with
  | [] => simp [pathSites] at ht
  | (p, first) :: rest =>
    rw [pathSites, List.mem_append] at ht
    rw [pathJunctions]
    rcases ht with ht | ht
    · have hs := (around_of_mem_stepSites first ht).2
      -- Either this very path is meant, or one further inside.
      rcases Nat.eq_or_lt_of_le hle with heq | hlt
      · have hd' : d :: outer <:+ t.around := hd ▸ List.suffix_append _ _
        have hcons := (List.suffix_of_suffix_length_le hd' hs (by simp [heq])).eq_of_length
          (by simp [heq])
        obtain ⟨rfl, rfl⟩ := List.cons.inj hcons
        exact .inr ⟨0, first, rfl, rfl⟩
      · obtain ⟨x, hx, hl⟩ := exists_leads_of_mem_stepSites first ht hd hlt
        exact .inl ⟨x, List.mem_append_left _ hx, hl⟩
    · rcases exists_leads_of_mem_pathSites rest ht hd hle with ⟨x, hx, hl⟩ | ⟨k, steps, hp, he⟩
      · exact .inl ⟨x, List.mem_append_right _ hx, hl⟩
      · rw [Nat.add_assoc, Nat.add_comm 1] at he
        exact .inr ⟨k + 1, steps, hp, he⟩

theorem exists_leads_of_mem_stepSites {root entry : Nat} {around : List Enclosure}
    (steps : List Step) {t : Site} (ht : t ∈ stepSites root entry around steps)
    {inner outer : List Enclosure} {d : Enclosure} (hd : t.around = inner ++ d :: outer)
    (hle : around.length ≤ outer.length) :
    ∃ x ∈ stepJunctions entry around steps, x.Leads d outer := by
  match steps with
  | [] => simp [stepSites] at ht
  | s :: rest =>
    rw [stepSites, List.mem_append] at ht
    rw [stepJunctions]
    rcases ht with ht | ht
    · obtain ⟨x, hx, hl⟩ := s.exists_leads ht hd hle
      exact ⟨x, List.mem_append_left _ hx, hl⟩
    · obtain ⟨x, hx, hl⟩ := exists_leads_of_mem_stepSites rest ht hd hle
      exact ⟨x, List.mem_append_right _ hx, hl⟩

end

theorem exists_leads_of_mem_rootSites {root entry : Nat} {steps : List Step} {t : Site}
    (ht : t ∈ rootSites root entry steps) {inner outer : List Enclosure} {d : Enclosure}
    (hd : t.around = inner ++ d :: outer) :
    ∃ x ∈ stepJunctions entry [] steps, x.Leads d outer := by
  induction steps generalizing root entry with
  | nil => simp [rootSites] at ht
  | cons s rest ih =>
    rw [rootSites, List.mem_append] at ht
    rw [stepJunctions]
    rcases ht with ht | ht
    · cases s with
      | single i =>
        rw [Step.rootSites, List.mem_singleton] at ht
        simp [ht] at hd
      | chain c =>
        rw [Step.rootSites, List.mem_map] at ht
        obtain ⟨m, _, rfl⟩ := ht
        simp at hd
      | fork f paths =>
        obtain ⟨x, hx, hl⟩ := Step.exists_leads _ ht hd (Nat.zero_le _)
        exact ⟨x, List.mem_append_left _ hx, hl⟩
    · obtain ⟨x, hx, hl⟩ := ih ht
      exact ⟨x, List.mem_append_right _ hx, hl⟩

/-- Every path around a site is one of a junction. -/
theorem View.exists_leads {v : View} {t : Site} (ht : t ∈ v.sites) {inner outer : List Enclosure}
    {d : Enclosure} (hd : t.around = inner ++ d :: outer) : ∃ x ∈ v.junctions, x.Leads d outer :=
  exists_leads_of_mem_rootSites ht hd

end StepGraph
