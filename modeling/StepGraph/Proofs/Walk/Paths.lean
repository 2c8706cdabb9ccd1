import StepGraph.Proofs.Walk.Junctions

/-!
Which path a site stands in. The places of the paths around it tell, and they tell the root number as
well. Numbers of paths alone do not, as forks next to each other number theirs alike; they do where
no path holds two forks that the walk goes into.
-/
set_option autoImplicit false

namespace StepGraph

namespace Site

def places (t : Site) : List (Nat × Nat) := t.around.map Enclosure.place

def indices (t : Site) : List Nat := t.around.map (·.index)

variable {t u : Site} {d e : Enclosure} {outer : List Enclosure}

theorem indices_eq_of_places (h : t.places = u.places) : t.indices = u.indices := by
  have hsnd := congrArg (List.map Prod.snd) h
  rwa [places, places, List.map_map, List.map_map] at hsnd

theorem inside_of_places (h : t.places = u.places) (ht : t.around ≠ []) : u.around ≠ [] := by
  intro hu
  simp [places, hu, ht] at h

theorem isWithin_congr (h : t.places = u.places) (s : Site) :
    s.isWithin t.around = s.isWithin u.around := by
  rw [places, places] at h
  rw [isWithin, isWithin, h]

theorem index_eq_of_indices (hd : d :: outer <:+ t.around) (he : e :: outer <:+ u.around)
    (h : t.indices = u.indices) : d.index = e.index := by
  have hd := hd.map (·.index)
  have he := he.map (·.index)
  rw [← indices, h] at hd
  have heq := (List.suffix_of_suffix_length_le hd he (by simp)).eq_of_length (by simp)
  exact (List.cons.inj heq).1

theorem around_eq_of_indices (h : t.indices = u.indices) (ht : t.around = outer)
    (hu : outer <:+ u.around) : u.around = outer := by
  have hlen := congrArg List.length h
  rw [indices, indices, List.length_map, List.length_map, ht] at hlen
  exact (hu.eq_of_length hlen).symm

end Site

def Step.parts : Step → Bool
  | .fork f paths => !(Step.fork f paths).isVoid
  | _ => false

theorem Step.around_of_mem_sites_of_parts {s : Step} (hs : s.parts = false) {root entry : Nat}
    {around : List Enclosure} {t : Site} (ht : t ∈ s.sites root entry around) :
    t.around = around := by
  cases s with
  | single i =>
    rw [Step.sites, List.mem_singleton] at ht
    rw [ht]
  | chain c =>
    rw [Step.sites, List.mem_map] at ht
    obtain ⟨i, _, rfl⟩ := ht
    rfl
  | fork f paths =>
    rw [Step.parts, Bool.not_eq_false'] at hs
    simp [Step.sites, hs] at ht

theorem Step.around_of_mem_rootSites_of_parts {s : Step} (hs : s.parts = false) {root entry : Nat}
    {t : Site} (ht : t ∈ s.rootSites root entry) : t.around = [] := by
  cases s with
  | single i =>
    rw [Step.rootSites, List.mem_singleton] at ht
    rw [ht]
  | chain c =>
    rw [Step.rootSites, List.mem_map] at ht
    obtain ⟨m, _, rfl⟩ := ht
    rfl
  | fork f paths => exact Step.around_of_mem_sites_of_parts hs ht

theorem places_ne_of_later {root later entry : Nat} {s : Step} {rest : List Step} {t u : Site}
    (ht : t ∈ s.rootSites root entry) (hu : u ∈ rootSites later (entry + 1) rest)
    (hne : t.around ≠ []) : t.places ≠ u.places := by
  intro h
  obtain ⟨_, _, ha | ⟨e, he, hes⟩⟩ := s.mem_rootSites ht
  · exact hne ha
  · have hin : u.isWithin [e] = true := by
      refine Site.isWithin_iff.mpr ?_
      rw [← Site.places, ← h]
      exact hes.map Enclosure.place
    rw [Site.isWithin_eq_false List.suffix_rfl] at hin
    · cases hin
    · refine (place_of_mem_rootSites hu).imp_right fun hd => ?_
      obtain ⟨d, hd, hds⟩ := hd
      exact ⟨d, Enclosure.place_ne_of_entry (by omega), hds⟩

theorem Step.root_eq_of_inside {s : Step} {root entry : Nat} {t u : Site}
    (ht : t ∈ s.rootSites root entry) (hu : u ∈ s.rootSites root entry) (hne : t.around ≠ []) :
    t.root = u.root := by
  cases s with
  | single i => exact absurd (Step.around_of_mem_rootSites_of_parts rfl ht) hne
  | chain c => exact absurd (Step.around_of_mem_rootSites_of_parts rfl ht) hne
  | fork f paths =>
    exact (Step.around_of_mem_sites _ ht).1.trans (Step.around_of_mem_sites _ hu).1.symm

theorem root_eq_of_places {steps : List Step} {root entry : Nat} {t u : Site}
    (ht : t ∈ rootSites root entry steps) (hu : u ∈ rootSites root entry steps)
    (hne : t.around ≠ []) (h : t.places = u.places) : t.root = u.root := by
  induction steps generalizing root entry with
  | nil => simp [rootSites] at ht
  | cons s rest ih =>
    rw [rootSites, List.mem_append] at ht hu
    rcases ht with ht | ht
    · rcases hu with hu | hu
      · exact Step.root_eq_of_inside ht hu hne
      · exact absurd h (places_ne_of_later ht hu hne)
    · rcases hu with hu | hu
      · exact absurd h.symm (places_ne_of_later hu ht (Site.inside_of_places h hne))
      · exact ih ht hu

/-- No path of the fork holds two forks that stand for something, those inside them apart. -/
def PartsOnce (x : Fork × List (Path × List Step)) : Prop :=
  ∀ q ∈ x.2, q.2.countP Step.parts ≤ 1

instance (x : Fork × List (Path × List Step)) : Decidable (PartsOnce x) :=
  inferInstanceAs (Decidable (∀ q ∈ x.2, q.2.countP Step.parts ≤ 1))

theorem Step.parts_of_mem_sites {s : Step} {root entry : Nat} {around : List Enclosure} {t : Site}
    (ht : t ∈ s.sites root entry around) (hne : t.around ≠ around) : s.parts = true := by
  cases hs : s.parts with
  | false => exact absurd (Step.around_of_mem_sites_of_parts hs ht) hne
  | true => rfl

theorem countP_parts_of_mem_stepSites {steps : List Step} {root entry : Nat}
    {around : List Enclosure} {t : Site} (ht : t ∈ stepSites root entry around steps)
    (hne : t.around ≠ around) : 0 < steps.countP Step.parts := by
  induction steps generalizing entry with
  | nil => simp [stepSites] at ht
  | cons s rest ih =>
    rw [stepSites, List.mem_append] at ht
    rcases ht with ht | ht
    · rw [List.countP_cons_of_pos (Step.parts_of_mem_sites ht hne)]
      omega
    · have hpos := ih ht
      rw [List.countP_cons]
      omega

theorem places_eq_of_entries {s : Step} {rest : List Step}
    (hone : (s :: rest).countP Step.parts ≤ 1) {root entry later : Nat} {around : List Enclosure}
    {t u : Site} (ht : t ∈ s.sites root entry around) (hu : u ∈ stepSites root later around rest)
    (h : t.indices = u.indices) : t.places = u.places := by
  by_cases ha : t.around = around
  · have hu' := Site.around_eq_of_indices h ha (around_of_mem_stepSites rest hu).2
    rw [Site.places, Site.places, ha, hu']
  · have hne : u.around ≠ around := by
      intro hu'
      rcases (s.around_of_mem_sites ht).2 with ht' | ⟨e, _, hs⟩
      · exact ha ht'
      · exact ha (Site.around_eq_of_indices h.symm hu' ((List.suffix_cons e around).trans hs))
    have hpos := countP_parts_of_mem_stepSites hu hne
    rw [List.countP_cons_of_pos (Step.parts_of_mem_sites ht ha)] at hone
    omega

/- Over the tree. Inside one fork the numbers of its paths differ, and two sites that go on into
different entries of a path would need two forks there. -/
mutual

theorem Step.places_eq_of_indices (s : Step) (hs : ∀ x ∈ s.forks, PartsOnce x) {root entry : Nat}
    {around : List Enclosure} {t u : Site} (ht : t ∈ s.sites root entry around)
    (hu : u ∈ s.sites root entry around) (h : t.indices = u.indices) : t.places = u.places := by
  cases s with
  | single i =>
    rw [Site.places, Site.places, Step.around_of_mem_sites_of_parts rfl ht,
      Step.around_of_mem_sites_of_parts rfl hu]
  | chain c =>
    rw [Site.places, Site.places, Step.around_of_mem_sites_of_parts rfl ht,
      Step.around_of_mem_sites_of_parts rfl hu]
  | fork f paths =>
    rw [Step.forks, List.forall_mem_cons] at hs
    rw [Step.sites] at ht hu
    split at ht
    · simp at ht
    · rename_i hv
      rw [if_neg hv] at hu
      exact places_eq_of_pathSites paths hs.1 hs.2 ht hu h

theorem places_eq_of_pathSites (paths : List (Path × List Step))
    (hone : ∀ q ∈ paths, q.2.countP Step.parts ≤ 1) (hs : ∀ x ∈ pathForks paths, PartsOnce x)
    {root entry n : Nat} {f : Fork} {around : List Enclosure} {t u : Site}
    (ht : t ∈ pathSites root f entry n around paths)
    (hu : u ∈ pathSites root f entry n around paths) (h : t.indices = u.indices) :
    t.places = u.places := by
  match paths with
  | [] => simp [pathSites] at ht
  | (p, steps) :: rest =>
    rw [List.forall_mem_cons] at hone
    rw [pathForks, List.forall_mem_append] at hs
    rw [pathSites, List.mem_append] at ht hu
    rcases ht with ht | ht
    · rcases hu with hu | hu
      · exact places_eq_of_stepSites steps hone.1 hs.1 ht hu h
      · obtain ⟨_, e, _, hn, hes⟩ := around_of_mem_pathSites rest hu
        have heq := Site.index_eq_of_indices (around_of_mem_stepSites steps ht).2 hes h
        simp only at heq
        omega
    · rcases hu with hu | hu
      · obtain ⟨_, e, _, hn, hes⟩ := around_of_mem_pathSites rest ht
        have heq := Site.index_eq_of_indices hes (around_of_mem_stepSites steps hu).2 h
        simp only at heq
        omega
      · exact places_eq_of_pathSites rest hone.2 hs.2 ht hu h

theorem places_eq_of_stepSites (steps : List Step) (hone : steps.countP Step.parts ≤ 1)
    (hs : ∀ x ∈ stepForks steps, PartsOnce x) {root entry : Nat} {around : List Enclosure}
    {t u : Site} (ht : t ∈ stepSites root entry around steps)
    (hu : u ∈ stepSites root entry around steps) (h : t.indices = u.indices) :
    t.places = u.places := by
  match steps with
  | [] => simp [stepSites] at ht
  | s :: rest =>
    rw [stepForks, List.forall_mem_append] at hs
    rw [stepSites, List.mem_append] at ht hu
    rcases ht with ht | ht
    · rcases hu with hu | hu
      · exact s.places_eq_of_indices hs.1 ht hu h
      · exact places_eq_of_entries hone ht hu h
    · rcases hu with hu | hu
      · exact (places_eq_of_entries hone hu ht h.symm).symm
      · refine places_eq_of_stepSites rest ?_ hs.2 ht hu h
        rw [List.countP_cons] at hone
        omega

end

theorem Step.places_eq_of_rootSites (s : Step) (hs : ∀ x ∈ s.forks, PartsOnce x)
    {root entry : Nat} {t u : Site} (ht : t ∈ s.rootSites root entry)
    (hu : u ∈ s.rootSites root entry) (h : t.indices = u.indices) : t.places = u.places := by
  cases s with
  | single i =>
    rw [Site.places, Site.places, Step.around_of_mem_rootSites_of_parts rfl ht,
      Step.around_of_mem_rootSites_of_parts rfl hu]
  | chain c =>
    rw [Site.places, Site.places, Step.around_of_mem_rootSites_of_parts rfl ht,
      Step.around_of_mem_rootSites_of_parts rfl hu]
  | fork f paths => exact Step.places_eq_of_indices _ hs ht hu h

/-- Where no path holds two forks that stand for something, the numbers in an id tell which path a
step stands in. -/
theorem places_eq_of_indices {steps : List Step} (hs : ∀ x ∈ stepForks steps, PartsOnce x)
    {root entry : Nat} {t u : Site} (ht : t ∈ rootSites root entry steps)
    (hu : u ∈ rootSites root entry steps) (hroot : t.root = u.root) (h : t.indices = u.indices) :
    t.places = u.places := by
  induction steps generalizing root entry with
  | nil => simp [rootSites] at ht
  | cons s rest ih =>
    rw [stepForks, List.forall_mem_append] at hs
    rw [rootSites, List.mem_append] at ht hu
    rcases ht with ht | ht
    · rcases hu with hu | hu
      · exact s.places_eq_of_rootSites hs.1 ht hu h
      · have hlt := (s.mem_rootSites ht).2.1
        have hle := le_root_of_mem_rootSites rest hu
        omega
    · rcases hu with hu | hu
      · have hlt := (s.mem_rootSites hu).2.1
        have hle := le_root_of_mem_rootSites rest ht
        omega
      · exact ih hs.2 ht hu

end StepGraph
