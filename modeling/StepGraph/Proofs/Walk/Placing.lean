import Mathlib.Data.List.Forall2
import StepGraph.Proofs.Walk.Failure
import StepGraph.Proofs.Walk.Position
import StepGraph.Proofs.Walk.Sites

/-!
What a walk places. As long as nothing fails, the open levels are the paths around the site at hand,
each with the number of sites met inside it so far, and every placed step fits its site.
-/
set_option autoImplicit false

namespace StepGraph

def openLevels (met : List Site) : List Enclosure → List Level
  | [] => []
  | e :: outer =>
    { fork := e.fork, path := e.path, index := e.index,
      count := met.countP (·.isWithin (e :: outer)) } :: openLevels met outer

def Site.journal (met : List Site) (s : Site) : Journal := { levels := openLevels met s.around }

variable {α : Type}

structure Placed.Fits (resolve : Interaction → Except Fault α) (placed : List (Placed α))
    (met : List Site) (s : Site) (p : Placed α) : Prop where
  resolved : resolve s.step = .ok p.content
  place : ∃ position, p.id = (s.journal met).idAt s.root position ∧
    p.trail = (s.journal met).trailAt position ∧
    (s.around ≠ [] → IsFirstFree (placed.map (·.id)) ((s.journal met).idAt s.root)
      (s.journal met).nextPosition position)

inductive Placings (resolve : Interaction → Except Fault α) :
    List (Placed α) → List Site → Prop where
  | nil : Placings resolve [] []
  | snoc {placed : List (Placed α)} {met : List Site} {p : Placed α} {s : Site} :
    Placings resolve placed met → p.Fits resolve placed met s →
    Placings resolve (placed ++ [p]) (met ++ [s])

namespace Placings

variable {resolve : Interaction → Except Fault α} {placed : List (Placed α)} {sites : List Site}

theorem length_eq (h : Placings resolve placed sites) : placed.length = sites.length := by
  induction h with
  | nil => rfl
  | snoc _ _ ih => simp [ih]

theorem fits (h : Placings resolve placed sites) {k : Nat} {s : Site} {p : Placed α}
    (hs : sites[k]? = some s) (hp : placed[k]? = some p) :
    p.Fits resolve (placed.take k) (sites.take k) s := by
  induction h with
  | nil => simp at hs
  | @snoc placed met q t hm hq ih =>
    have hlen := hm.length_eq
    rcases Nat.lt_trichotomy k met.length with hk | rfl | hk
    · rw [List.getElem?_append_left hk] at hs
      rw [List.getElem?_append_left (by omega)] at hp
      rw [List.take_append_of_le_length (by omega), List.take_append_of_le_length (by omega)]
      exact ih hs hp
    · have hst : t = s := by simpa using hs
      have hqp : q = p := by simpa [← hlen] using hp
      subst hst hqp
      simpa [← hlen] using hq
    · rw [List.getElem?_eq_none (by simp; omega)] at hs
      simp at hs

/-- What fitting steps have in common with their sites holds of all, one by one. -/
theorem forall₂ (h : Placings resolve placed sites) {R : Site → Placed α → Prop}
    (hR : ∀ placed met s p, p.Fits resolve placed met s → R s p) :
    List.Forall₂ R sites placed := by
  induction h with
  | nil => exact .nil
  | snoc _ hp ih => exact List.rel_append ih (.cons (hR _ _ _ _ hp) .nil)

end Placings

structure Walk.HasMet (resolve : Interaction → Except Fault α) (w : Walk α) (met : List Site)
    (around : List Enclosure) : Prop where
  levels : w.journal.levels = openLevels met around
  placings : Placings resolve w.placed met

@[simp] theorem openLevels_eq_nil_iff {met : List Site} {around : List Enclosure} :
    openLevels met around = [] ↔ around = [] := by cases around <;> simp [openLevels]

@[simp] theorem index_openLevels (met : List Site) (around : List Enclosure) :
    (openLevels met around).map (·.index) = around.map (·.index) := by
  induction around with
  | nil => rfl
  | cons e outer ih => simp [openLevels, ih]

namespace Site

theorem idAt_journal_of_outside {s : Site} (h : s.around = []) (met : List Site)
    (position : Nat) : (s.journal met).idAt s.root position = .ofSegments s.root [] := by
  simp [journal, Journal.idAt, Journal.isIdle, h]

theorem idAt_journal_of_inside {s : Site} (h : s.around ≠ []) (met : List Site) (position : Nat) :
    (s.journal met).idAt s.root position =
      .ofSegments s.root ((s.around.map (·.index)).reverse ++ [position]) := by
  simp [journal, Journal.idAt, Journal.isIdle, h]

theorem exists_idAt_journal (met : List Site) (s : Site) (position : Nat) :
    ∃ nested, (s.journal met).idAt s.root position = .ofSegments s.root nested := by
  by_cases h : s.around = []
  · exact ⟨_, idAt_journal_of_outside h met position⟩
  · exact ⟨_, idAt_journal_of_inside h met position⟩

end Site

namespace Site

theorem isWithin_iff {around : List Enclosure} {s : Site} : s.isWithin around = true ↔
    around.map Enclosure.place <:+ s.around.map Enclosure.place := by simp [isWithin]

theorem isWithin_of_suffix {around : List Enclosure} {s : Site} (h : around <:+ s.around) :
    s.isWithin around = true := isWithin_iff.mpr (h.map Enclosure.place)

theorem isWithin_outer {e : Enclosure} {outer : List Enclosure} {s : Site}
    (h : s.isWithin (e :: outer) = true) : s.isWithin outer = true := by
  rw [isWithin_iff] at *
  exact (List.suffix_cons _ _).trans h

/-- Paths inside the same one that hold a site together stand at one place. -/
theorem place_eq_of_isWithin {e d : Enclosure} {outer : List Enclosure} {s : Site}
    (he : s.isWithin (e :: outer) = true) (hd : d :: outer <:+ s.around) : e.place = d.place := by
  have hs := List.suffix_of_suffix_length_le (isWithin_iff.mp he) (hd.map Enclosure.place) (by simp)
  have hl := hs.eq_of_length (by simp)
  simpa using hl

end Site

theorem openLevels_snoc {met : List Site} {s : Site} {around : List Enclosure}
    (h : around <:+ s.around) : openLevels (met ++ [s]) around =
      (openLevels met around).map fun l => { l with count := l.count + 1 } := by
  induction around with
  | nil => rfl
  | cons e outer ih =>
    have hw := Site.isWithin_of_suffix h
    simp [openLevels, List.countP_append, hw, ih ((List.suffix_cons e outer).trans h)]

/-- No site lies inside a path that comes at or after the `index`-th path of the `entry`-th fork
inside the first of the paths `around`. -/
def Unmet (met : List Site) (around : List Enclosure) (entry index : Nat) : Prop :=
  ∀ t ∈ met, ∀ e : Enclosure, entry < e.entry ∨ e.entry = entry ∧ index ≤ e.index →
    t.isWithin (e :: around) = false

namespace Unmet

variable {met new : List Site} {around : List Enclosure} {entry index : Nat}

theorem append (hm : Unmet met around entry index) (hn : Unmet new around entry index) :
    Unmet (met ++ new) around entry index := by
  intro t ht
  exact (List.mem_append.mp ht).elim (hm t) (hn t)

theorem mono {entry' index' : Nat} (hm : Unmet met around entry index)
    (h : entry < entry' ∨ entry' = entry ∧ index ≤ index') : Unmet met around entry' index' :=
  fun t ht e he => hm t ht e (by omega)

theorem inside (hm : Unmet met around entry index) {e : Enclosure} (he : e.entry = entry)
    (hi : index ≤ e.index) : Unmet met (e :: around) 0 0 := by
  intro t ht d _
  cases hd : t.isWithin (d :: e :: around) with
  | false => rfl
  | true => exact absurd (Site.isWithin_outer hd) (by simp [hm t ht e (.inr ⟨he, hi⟩)])

theorem of_around (h : ∀ t ∈ new, t.around = around ∨
    ∃ d, (d.entry < entry ∨ d.entry = entry ∧ d.index < index) ∧ d :: around <:+ t.around) :
    Unmet new around entry index := by
  intro t ht e he
  cases hw : t.isWithin (e :: around) with
  | false => rfl
  | true =>
    rcases h t ht with hs | ⟨d, hd, hs⟩
    · have hl := (Site.isWithin_iff.mp hw).length_le
      simp only [hs, List.length_map, List.length_cons] at hl
      omega
    · have hp := Site.place_eq_of_isWithin hw hs
      simp only [Enclosure.place, Prod.mk.injEq] at hp
      omega

theorem sites (root entry : Nat) (around : List Enclosure) (s : Step) :
    Unmet (s.sites root entry around) around (entry + 1) 0 := by
  refine of_around fun t ht => ?_
  obtain ⟨_, hs | ⟨e, he, hs⟩⟩ := s.around_of_mem_sites ht
  · exact .inl hs
  · exact .inr ⟨e, .inl (by omega), hs⟩

theorem rootSites (root entry : Nat) (s : Step) :
    Unmet (s.rootSites root entry) [] (entry + 1) 0 := by
  refine of_around fun t ht => ?_
  obtain ⟨_, _, hs | ⟨e, he, hs⟩⟩ := s.mem_rootSites ht
  · exact .inl hs
  · exact .inr ⟨e, .inl (by omega), hs⟩

theorem stepSites (root : Nat) (e : Enclosure) (around : List Enclosure) (steps : List Step) :
    Unmet (stepSites root 0 (e :: around) steps) around e.entry (e.index + 1) := by
  refine of_around fun t ht => .inr ⟨e, .inr ⟨rfl, by omega⟩, ?_⟩
  exact (around_of_mem_stepSites steps ht).2

end Unmet

namespace Walk.HasMet

variable {resolve : Interaction → Except Fault α} {w : Walk α} {met : List Site}
  {around : List Enclosure}

theorem enter (hw : w.HasMet resolve met around) (root : Nat) (e : Enclosure)
    (he : ∀ t ∈ met, t.isWithin (e :: around) = false) :
    (w.visit resolve (root, .enter e.fork e.path e.index)).HasMet resolve met (e :: around) := by
  refine ⟨?_, hw.placings⟩
  have hc : met.countP (·.isWithin (e :: around)) = 0 := by
    rw [List.countP_eq_zero]
    intro t ht
    simp [he t ht]
  simp [visit, Journal.enter, openLevels, hc, hw.levels]

theorem leave {e : Enclosure} (hw : w.HasMet resolve met (e :: around)) (root : Nat) :
    (w.visit resolve (root, .leave)).HasMet resolve met around := by
  refine ⟨?_, hw.placings⟩
  simp [visit, Journal.leave, hw.levels, openLevels]

theorem meet (hw : w.HasMet resolve met around) (root : Nat) (i : Interaction)
    (hok : (w.meet resolve root i).failure = none) :
    (w.meet resolve root i).HasMet resolve (met ++ [{ root, around, step := i }]) around := by
  have hf : w.failure = none := failure_of_failure_visit resolve (v := (root, .meet i)) hok
  cases hr : resolve i with
  | error fault => simp [Walk.meet, hf, hr] at hok
  | ok a =>
    have hj : w.journal.levels = (Site.journal met { root, around, step := i }).levels := hw.levels
    simp only [Walk.meet, hf, hr, Walk.place]
    constructor
    · have hs : around <:+ ({ root, around, step := i } : Site).around := List.suffix_rfl
      simp only [Journal.tally, Journal.record, hw.levels, openLevels_snoc hs]
    · refine .snoc hw.placings ⟨hr, w.position root, ?_, ?_, fun ha => ?_⟩
      · exact congrFun (Journal.idAt_congr hj root) _
      · exact congrFun (Journal.trailAt_congr hj) _
      · have hl : w.journal.levels ≠ [] := by
          rw [hw.levels]
          cases around with
          | nil => exact absurd rfl ha
          | cons e outer => simp [openLevels]
        have hp := w.isFirstFree_position root hl
        rwa [Journal.idAt_congr hj, Journal.nextPosition_congr hj] at hp

theorem meets (ms : List (Nat × Interaction)) (hw : w.HasMet resolve met around)
    (hok : (run resolve (ms.map fun m => (m.1, .meet m.2)) w).failure = none) :
    (run resolve (ms.map fun m => (m.1, .meet m.2)) w).HasMet resolve
      (met ++ ms.map fun m => { root := m.1, around, step := m.2 }) around := by
  induction ms generalizing w met with
  | nil => simpa using hw
  | cons m ms ih =>
    rw [List.map_cons, run_cons] at hok ⊢
    have h := ih (hw.meet m.1 m.2 (failure_of_failure_run resolve hok)) hok
    rwa [List.append_assoc] at h

end Walk.HasMet

section

variable {resolve : Interaction → Except Fault α} {root : Nat}

/- Over the tree, with the sites met before as they are. That none of them lies in a path still to
come is what makes the count of a newly opened level right: it starts at zero. -/
mutual

theorem Step.run_visits (s : Step) {entry : Nat} {met : List Site} {around : List Enclosure}
    {w : Walk α} (hw : w.HasMet resolve met around) (hm : Unmet met around entry 0)
    (hok : (Walk.run resolve (s.visits.map (root, ·)) w).failure = none) :
    (Walk.run resolve (s.visits.map (root, ·)) w).HasMet resolve
      (met ++ s.sites root entry around) around := by
  cases s with
  | single i => exact hw.meet root i hok
  | chain c =>
    have h := hw.meets (c.members.map (root, ·))
    simp only [List.map_map, Function.comp_def] at h
    simp only [Step.visits, Step.sites, List.map_map, Function.comp_def] at hok ⊢
    exact h hok
  | fork f paths =>
    rw [Step.visits] at hok ⊢
    rw [Step.sites]
    split
    · simpa using hw
    · rename_i hv
      rw [if_neg hv] at hok
      exact run_pathVisits paths hw (hm.mono (.inr ⟨rfl, by omega⟩)) hok

theorem run_pathVisits {f : Fork} (paths : List (Path × List Step)) {entry n : Nat}
    {met : List Site} {around : List Enclosure} {w : Walk α} (hw : w.HasMet resolve met around)
    (hm : Unmet met around entry n)
    (hok : (Walk.run resolve ((pathVisits f n paths).map (root, ·)) w).failure = none) :
    (Walk.run resolve ((pathVisits f n paths).map (root, ·)) w).HasMet resolve
      (met ++ pathSites root f entry n around paths) around := by
  match paths with
  | [] => simpa [pathVisits, pathSites] using hw
  | (p, steps) :: rest =>
    let e : Enclosure := { fork := f, path := p, index := n, entry }
    simp only [pathVisits, List.map_cons, List.map_append, Walk.run_cons, Walk.run_append]
      at hok ⊢
    have hentered := hw.enter root e fun t ht => hm t ht e (.inr ⟨rfl, Nat.le_refl n⟩)
    have hleft := Walk.failure_of_failure_run resolve hok
    have hinside := run_stepVisits steps hentered (hm.inside rfl (Nat.le_refl n))
      (Walk.failure_of_failure_visit resolve hleft)
    have hmore : Unmet (met ++ stepSites root 0 (e :: around) steps) around entry (n + 1) :=
      (hm.mono (.inr ⟨rfl, by omega⟩)).append (.stepSites root e around steps)
    have h := run_pathVisits rest (hinside.leave root) hmore hok
    rwa [List.append_assoc] at h

theorem run_stepVisits (steps : List Step) {entry : Nat} {met : List Site}
    {around : List Enclosure} {w : Walk α} (hw : w.HasMet resolve met around)
    (hm : Unmet met around entry 0)
    (hok : (Walk.run resolve ((stepVisits steps).map (root, ·)) w).failure = none) :
    (Walk.run resolve ((stepVisits steps).map (root, ·)) w).HasMet resolve
      (met ++ stepSites root entry around steps) around := by
  match steps with
  | [] => simpa [stepVisits, stepSites] using hw
  | s :: rest =>
    simp only [stepVisits, List.map_append, Walk.run_append] at hok ⊢
    have hs := s.run_visits hw hm (Walk.failure_of_failure_run resolve hok)
    have hmore : Unmet (met ++ s.sites root entry around) around (entry + 1) 0 :=
      (hm.mono (.inl (by omega))).append (.sites root entry around s)
    have h := run_stepVisits rest hs hmore hok
    rwa [List.append_assoc] at h

end

theorem Step.run_rootVisits (s : Step) {entry : Nat} {met : List Site} {w : Walk α}
    (hw : w.HasMet resolve met []) (hm : Unmet met [] entry 0)
    (hok : (Walk.run resolve (s.rootVisits root) w).failure = none) :
    (Walk.run resolve (s.rootVisits root) w).HasMet resolve (met ++ s.rootSites root entry) [] := by
  cases s with
  | single i => exact hw.meet root i hok
  | chain c =>
    have h := hw.meets ((c.members.zipIdx root).map fun m => (m.2, m.1))
    simp only [List.map_map, Function.comp_def] at h
    exact h hok
  | fork f paths => exact Step.run_visits _ hw hm hok

theorem run_rootVisits (steps : List Step) {root entry : Nat} {met : List Site} {w : Walk α}
    (hw : w.HasMet resolve met []) (hm : Unmet met [] entry 0)
    (hok : (Walk.run resolve (rootVisits root steps) w).failure = none) :
    (Walk.run resolve (rootVisits root steps) w).HasMet resolve
      (met ++ rootSites root entry steps) [] := by
  induction steps generalizing root entry met w with
  | nil => simpa [rootVisits, rootSites] using hw
  | cons s rest ih =>
    rw [rootVisits, Walk.run_append] at hok ⊢
    have hs := s.run_rootVisits hw hm (Walk.failure_of_failure_run resolve hok)
    have hmore : Unmet (met ++ s.rootSites root entry) [] (entry + 1) 0 :=
      (hm.mono (.inl (by omega))).append (.rootSites root entry s)
    have h := ih hs hmore hok
    rwa [List.append_assoc] at h

end

theorem Scene.hasMet_walk (s : Scene) (v : View) (hok : (s.walk v.steps).failure = none) :
    (s.walk v.steps).HasMet s.resolve v.sites [] := by
  have hstart : Walk.HasMet s.resolve ({} : Walk Resolved) [] [] := ⟨rfl, .nil⟩
  exact run_rootVisits v.steps hstart (fun t ht => absurd ht List.not_mem_nil) hok

/-- A walk that does not fail places the steps of all sites, in order. -/
theorem Scene.placings_walk (s : Scene) (v : View) (hok : (s.walk v.steps).failure = none) :
    Placings s.resolve (s.walk v.steps).placed v.sites := (s.hasMet_walk v hok).placings

/-- A walk that does not fail ends outside of any fork. -/
theorem Scene.isIdle_walk (s : Scene) (v : View) (hok : (s.walk v.steps).failure = none) :
    (s.walk v.steps).journal.isIdle = true := by
  rw [Journal.isIdle, (s.hasMet_walk v hok).levels]
  rfl

end StepGraph
