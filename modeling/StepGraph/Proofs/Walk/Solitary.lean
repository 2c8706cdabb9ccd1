import StepGraph.Proofs.Drawing
import StepGraph.Proofs.Walk.Entries

/-!
Entries apart from each other. The steps of an entry get the ids and the trails that they get where
it is the only one and starts at the same root number: no level is open between two entries, and ids
of other root numbers are in nobody's way.
-/
set_option autoImplicit false

namespace StepGraph

theorem IsFirstFree.eq {taken others : List EdgeId} {idAt : Nat → EdgeId} {start p q : Nat}
    (hp : IsFirstFree taken idAt start p) (hq : IsFirstFree others idAt start q)
    (h : ∀ n, idAt n ∈ taken ↔ idAt n ∈ others) : p = q := by
  rcases Nat.lt_trichotomy p q with hlt | heq | hlt
  · exact absurd ((h p).mpr (hq.below p hp.le hlt)) hp.free
  · exact heq
  · exact absurd ((h q).mp (hp.below q hq.le hlt)) hq.free

theorem Journal.exists_idAt (root : Nat) (j : Journal) (position : Nat) :
    ∃ nested, j.idAt root position = .ofSegments root nested := by
  rw [idAt]
  split
  · exact ⟨_, rfl⟩
  · exact ⟨_, rfl⟩

/-- A walk that resolves nothing, and one that goes on as it does after the steps `before`. -/
structure Walk.Follows (s : Scene) (before : List (Placed Resolved)) (u : Walk Interaction)
    (w : Walk Resolved) : Prop where
  sound : u.failure = none
  levels : u.journal.levels = w.journal.levels
  placed : ∃ added, w.placed = before ++ added ∧ List.Forall₂ (·.ResolvesTo s) u.placed added

def AvoidsRoot {α : Type} (root : Nat) (placed : List (Placed α)) : Prop :=
  ∀ p ∈ placed, ∀ nested, p.id ≠ .ofSegments root nested

theorem map_id_of_resolves {s : Scene} {ps : List (Placed Interaction)}
    {qs : List (Placed Resolved)} (h : List.Forall₂ (·.ResolvesTo s) ps qs) :
    ps.map (·.id) = qs.map (·.id) := map_eq_map_of_forall₂ h fun _ _ hpq => hpq.1

namespace Walk.Follows

variable {s : Scene} {before : List (Placed Resolved)} {u : Walk Interaction} {w : Walk Resolved}

theorem position_eq (h : Follows s before u w) {root : Nat} (hbefore : AvoidsRoot root before)
    (hu : u.journal.levels ≠ []) : u.position root = w.position root := by
  have hfree := u.isFirstFree_position root hu
  rw [Journal.idAt_congr h.levels, Journal.nextPosition_congr h.levels] at hfree
  -- Only ids of the root number at hand are tried, and `before` has none of them.
  refine hfree.eq (w.isFirstFree_position root (h.levels ▸ hu)) fun n => ?_
  obtain ⟨added, hadded, hresolves⟩ := h.placed
  obtain ⟨nested, hid⟩ := w.journal.exists_idAt root n
  have hold : .ofSegments root nested ∉ before.map (·.id) := by
    intro hmem
    obtain ⟨p, hp, heq⟩ := List.mem_map.mp hmem
    exact hbefore p hp nested heq
  rw [hid, hadded, List.map_append, List.mem_append, map_id_of_resolves hresolves]
  simp [hold]

theorem place_eq (h : Follows s before u w) {root : Nat} (hbefore : AvoidsRoot root before) :
    u.journal.idAt root (u.position root) = w.journal.idAt root (w.position root) ∧
      u.journal.trailAt (u.position root) = w.journal.trailAt (w.position root) := by
  -- Outside of forks neither the id nor the trail tells the position.
  by_cases hu : u.journal.levels = []
  · have hw : w.journal.levels = [] := h.levels ▸ hu
    simp [Journal.idAt, Journal.isIdle, Journal.trailAt, hu, hw]
  · rw [h.position_eq hbefore hu, Journal.idAt_congr h.levels, Journal.trailAt_congr h.levels]
    exact ⟨rfl, rfl⟩

theorem meet (h : Follows s before u w) {root : Nat} (hbefore : AvoidsRoot root before)
    (i : Interaction) (hok : (w.meet s.resolve root i).failure = none) :
    Follows s before (u.meet .ok root i) (w.meet s.resolve root i) := by
  have hf : w.failure = none := failure_of_failure_visit s.resolve (v := (root, .meet i)) hok
  cases hr : s.resolve i with
  | error fault => simp [Walk.meet, hf, hr] at hok
  | ok r =>
    obtain ⟨added, hadded, hresolves⟩ := h.placed
    obtain ⟨hid, htrail⟩ := h.place_eq hbefore
    simp only [Walk.meet, h.sound, hf, hr, Walk.place]
    constructor
    · rfl
    · simp only [Journal.tally, Journal.record, h.levels]
    · refine ⟨added ++ [_], by rw [hadded, List.append_assoc], ?_⟩
      exact List.rel_append hresolves (.cons ⟨hid, htrail, hr⟩ .nil)

theorem visit (h : Follows s before u w) {v : Nat × Visit} (hbefore : AvoidsRoot v.1 before)
    (hok : (w.visit s.resolve v).failure = none) :
    Follows s before (u.visit .ok v) (w.visit s.resolve v) := by
  obtain ⟨root, v⟩ := v
  cases v with
  | enter f p n => exact ⟨h.sound, congrArg (List.cons _) h.levels, h.placed⟩
  | meet i => exact h.meet hbefore i hok
  | leave =>
    refine ⟨h.sound, ?_, h.placed⟩
    simp only [Walk.visit, Journal.leave, h.levels]
    split
    · exact h.levels
    · rfl

theorem run {visits : List (Nat × Visit)} (h : Follows s before u w)
    (hbefore : ∀ v ∈ visits, AvoidsRoot v.1 before)
    (hok : (Walk.run s.resolve visits w).failure = none) :
    Follows s before (Walk.run .ok visits u) (Walk.run s.resolve visits w) := by
  induction visits generalizing u w with
  | nil => exact h
  | cons v rest ih =>
    rw [List.forall_mem_cons] at hbefore
    rw [Walk.run_cons] at hok
    have hv := h.visit hbefore.1 (failure_of_failure_run s.resolve hok)
    exact ih hv hbefore.2 hok

end Walk.Follows

def Site.Gives (t : Site) (id : EdgeId) : Prop :=
  ∃ nested, id = .ofSegments t.root nested ∧ (nested = [] ↔ t.around = [])

theorem Site.gives_idAt (t : Site) (met : List Site) (position : Nat) :
    t.Gives ((t.journal met).idAt t.root position) := by
  by_cases h : t.around = []
  · exact ⟨[], Site.idAt_journal_of_outside h met position, by simp [h]⟩
  · exact ⟨_, Site.idAt_journal_of_inside h met position, by simp [h]⟩

theorem Placings.gives {α : Type} {resolve : Interaction → Except Fault α}
    {placed : List (Placed α)} {sites : List Site} (h : Placings resolve placed sites) :
    List.Forall₂ (fun t p => resolve t.step = .ok p.content ∧ t.Gives p.id) sites placed := by
  refine h.forall₂ fun _ met t p hp => ⟨hp.resolved, ?_⟩
  obtain ⟨position, hid, _⟩ := hp.place
  exact hid ▸ t.gives_idAt met position

theorem Step.met_rootSites (root n : Nat) (s : Step) :
    (s.rootSites root n).map (·.step) = s.met := by
  rw [← s.filterMap_rootVisits, s.met_rootVisits]

theorem Step.around_of_mem_forkSites {root n : Nat} {f : Fork} {paths : List (Path × List Step)}
    {t : Site} (h : t ∈ (Step.fork f paths).rootSites root n) : t.root = root ∧ t.around ≠ [] := by
  rw [Step.rootSites, Step.sites] at h
  split at h
  · simp at h
  · obtain ⟨hroot, e, _, _, he⟩ := around_of_mem_pathSites paths h
    exact ⟨hroot, List.ne_nil_of_mem (he.subset List.mem_cons_self)⟩

theorem Step.hasIds_of_gives {root n : Nat} {s : Step} {ids : List EdgeId}
    (h : List.Forall₂ Site.Gives (s.rootSites root n) ids) : s.HasIds root ids := by
  cases s with
  | single i =>
    rw [Step.rootSites, List.forall₂_cons_left_iff] at h
    obtain ⟨id, _, ⟨nested, rfl, hnested⟩, hrest, rfl⟩ := h
    rw [List.forall₂_nil_left_iff] at hrest
    rw [hrest, hnested.mpr rfl, Step.HasIds]
  | chain c =>
    rw [Step.HasIds, ← List.zipIdx_map_snd, List.map_map, eq_comm, ← List.forall₂_eq_eq_eq,
      List.forall₂_map_left_iff]
    rw [Step.rootSites, List.forall₂_map_left_iff] at h
    refine h.imp fun m id hid => ?_
    obtain ⟨nested, rfl, hnested⟩ := hid
    rw [hnested.mpr rfl]
    rfl
  | fork f paths =>
    intro id hid
    obtain ⟨t, ht, nested, rfl, hnested⟩ := exists_of_mem_right h hid
    obtain ⟨hroot, haround⟩ := Step.around_of_mem_forkSites ht
    exact ⟨nested, mt hnested.mp haround, by rw [hroot]⟩

def Step.placedAlone (root : Nat) (s : Step) : List (Placed Interaction) :=
  (Walk.run .ok (s.rootVisits root) {}).placed

theorem Step.le_of_mem_rootVisits {root : Nat} {s : Step} {v : Nat × Visit}
    (h : v ∈ s.rootVisits root) : root ≤ v.1 := by
  cases s with
  | single i =>
    rw [Step.rootVisits, List.mem_singleton] at h
    simp [h]
  | chain c =>
    rw [Step.rootVisits, List.mem_map] at h
    obtain ⟨⟨i, n⟩, hm, rfl⟩ := h
    exact (List.mem_zipIdx hm).1
  | fork f paths =>
    rw [Step.rootVisits, List.mem_map] at h
    obtain ⟨v, _, rfl⟩ := h
    exact Nat.le_refl root

theorem Step.hasMet_alone (root : Nat) (s : Step) :
    (Walk.run .ok (s.rootVisits root) {}).HasMet Except.ok (s.rootSites root 0) [] := by
  have hstart : Walk.HasMet Except.ok ({} : Walk Interaction) [] [] := ⟨rfl, .nil⟩
  have hok : (Walk.run .ok (s.rootVisits root) ({} : Walk Interaction)).failure = none := by
    rw [Walk.failure_run, Option.or_eq_none_iff, firstFault_eq_none_iff]
    exact ⟨rfl, fun i _ => ⟨i, rfl⟩⟩
  have hm : Unmet [] [] 0 0 := fun t ht => absurd ht List.not_mem_nil
  exact s.run_rootVisits hstart hm hok

theorem Step.gives_placedAlone (root : Nat) (s : Step) :
    List.Forall₂ (fun t p => t.step = p.content ∧ t.Gives p.id) (s.rootSites root 0)
      (s.placedAlone root) :=
  (s.hasMet_alone root).placings.gives.imp fun _ _ h => ⟨Except.ok.inj h.1, h.2⟩

theorem Step.content_placedAlone (root : Nat) (s : Step) :
    (s.placedAlone root).map (·.content) = s.met := by
  rw [← s.met_rootSites root 0]
  exact (map_eq_map_of_forall₂ (s.gives_placedAlone root) fun _ _ h => h.1).symm

theorem Step.hasIds_placedAlone (root : Nat) (s : Step) :
    s.HasIds root ((s.placedAlone root).map (·.id)) := by
  refine Step.hasIds_of_gives (n := 0) ?_
  rw [List.forall₂_map_right_iff]
  exact (s.gives_placedAlone root).imp fun t p h => h.2

theorem Step.id_of_mem_placedAlone {root : Nat} {s : Step} {p : Placed Interaction}
    (h : p ∈ s.placedAlone root) :
    ∃ r nested, p.id = .ofSegments r nested ∧ r < root + s.roots := by
  obtain ⟨t, ht, _, nested, hid, _⟩ := exists_of_mem_right (s.gives_placedAlone root) h
  exact ⟨t.root, nested, hid, (s.mem_rootSites ht).2.1⟩

structure Walk.IsBetween (root : Nat) (w : Walk Resolved) : Prop where
  levels : w.journal.levels = []
  ids : ∀ p ∈ w.placed, ∃ r nested, p.id = .ofSegments r nested ∧ r < root

theorem Walk.IsBetween.avoidsRoot {root r : Nat} {w : Walk Resolved} (h : w.IsBetween root)
    (hr : root ≤ r) : AvoidsRoot r w.placed := by
  intro p hp nested hid
  obtain ⟨r', nested', hid', hlt⟩ := h.ids p hp
  have heq := EdgeId.ofSegments_inj.mp (hid.symm.trans hid')
  omega

namespace Scene

variable {s : Scene} {w : Walk Resolved} {root : Nat}

theorem run_entry (e : Step) (h : w.IsBetween root)
    (hok : (Walk.run s.resolve (e.rootVisits root) w).failure = none) :
    (Walk.run s.resolve (e.rootVisits root) w).IsBetween (root + e.roots) ∧
      ∃ added, (Walk.run s.resolve (e.rootVisits root) w).placed = w.placed ++ added ∧
        List.Forall₂ (·.ResolvesTo s) (e.placedAlone root) added := by
  -- Between entries no level is open, so that the walk goes on as an empty one begins.
  have hstart : Walk.Follows s w.placed {} w := ⟨rfl, h.levels.symm, [], by simp, .nil⟩
  have hrun := hstart.run (fun v hv => h.avoidsRoot (Step.le_of_mem_rootVisits hv)) hok
  obtain ⟨added, hadded, hresolves⟩ := hrun.placed
  refine ⟨⟨?_, ?_⟩, added, hadded, hresolves⟩
  · rw [← hrun.levels]
    exact (e.hasMet_alone root).levels
  · rw [hadded, List.forall_mem_append]
    constructor
    · intro p hp
      obtain ⟨r, nested, hid, hlt⟩ := h.ids p hp
      exact ⟨r, nested, hid, by omega⟩
    · intro q hq
      obtain ⟨p, hp, hpq⟩ := exists_of_mem_right hresolves hq
      obtain ⟨r, nested, hid, hlt⟩ := Step.id_of_mem_placedAlone hp
      exact ⟨r, nested, hpq.1.symm.trans hid, hlt⟩

theorem run_entries (steps : List Step) (h : w.IsBetween root)
    (hok : (Walk.run s.resolve (rootVisits root steps) w).failure = none) :
    ∃ added, (Walk.run s.resolve (rootVisits root steps) w).placed = w.placed ++ added ∧
      List.Forall₂ (·.ResolvesTo s)
        ((withRoots root steps).flatMap fun (root, e) => e.placedAlone root) added := by
  induction steps generalizing root w with
  | nil => exact ⟨[], (List.append_nil _).symm, .nil⟩
  | cons e rest ih =>
    rw [rootVisits, Walk.run_append] at hok ⊢
    obtain ⟨hbetween, here, hhere, hfirst⟩ := run_entry e h (Walk.failure_of_failure_run _ hok)
    obtain ⟨more, hmore, hrest⟩ := ih hbetween hok
    exact ⟨here ++ more, by rw [hmore, hhere, List.append_assoc], List.rel_append hfirst hrest⟩

end Scene

/-- The steps of an entry at the places that it gives them, whatever stands before and after it. -/
def Step.numbers (branchAware : Bool) (root : Nat) (s : Step) : List (Placed Interaction) :=
  if branchAware then s.placedAlone root else s.flatNumbers root

theorem Scene.resolves_of_place {s : Scene} {v : View} {branchAware : Bool} {l : Layered}
    (h : s.place branchAware v.steps = .ok l) : List.Forall₂ (·.ResolvesTo s)
      (v.entries.flatMap fun (root, e) => e.numbers branchAware root) l.placed := by
  rw [View.entries_eq]
  cases branchAware with
  | false =>
    have hplaced := (placeFlat_eq_ok_iff.mp h).2
    rw [flatNumbers_eq] at hplaced
    exact hplaced
  | true =>
    obtain ⟨hok, rfl⟩ := walk_finish_eq_ok_iff.mp h
    have hstart : Walk.IsBetween 1 {} := ⟨rfl, List.forall_mem_nil _⟩
    obtain ⟨added, hadded, hresolves⟩ := run_entries v.steps hstart hok
    rw [List.nil_append] at hadded
    exact hadded ▸ hresolves

end StepGraph
