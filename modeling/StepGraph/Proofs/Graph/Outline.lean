import StepGraph.Proofs.Graph.Coverage
import StepGraph.Proofs.Graph.Summaries
import StepGraph.Proofs.Graph.Trails
import StepGraph.Proofs.Walk.Outline

/-!
The summary as an outline of the view. Where ids are different, it lists the forks that a walk goes
into as they stand in the tree; the edges inside a path follow on each other, and a trail says where
an edge stands among them.
-/
set_option autoImplicit false

namespace StepGraph

/-- What is told of the path numbered `n` of a fork. Edges stand at the sites of the view, in order,
and the ids are those of the edges inside the path. -/
structure PathSummary.Outlines (v : View) (g : Graph) (x : Junction) (n : Nat) (p : Path)
    (s : PathSummary) : Prop where
  pathId : s.pathId = p.id
  index : s.index = n
  isDefault : s.isDefault = x.fork.isDefault p
  name : s.name = p.name
  title : s.title = p.title
  description : s.description = p.description
  tags : s.tags = p.tags
  edgeIds : ∃ before run after, g.edges = before ++ run ++ after ∧ s.edgeIds = run.map (·.id) ∧
    ∀ (i : Nat) (t : Site), v.sites[i]? = some t →
      (t.isWithin (x.inside n p) = true ↔ before.length ≤ i ∧ i < before.length + run.length)

structure ForkSummary.Outlines (v : View) (g : Graph) (x : Junction) (c : ForkSummary) :
    Prop where
  forkId : c.forkId = x.fork.id
  kind : c.kind = x.fork.kind
  label : c.label = x.fork.label
  defaultPath : c.defaultPath = x.fork.defaultPath
  length_paths : c.paths.length = x.paths.length
  paths : ∀ (k : Nat) (p : Path) (steps : List Step), x.paths[k]? = some (p, steps) →
    ∃ s, c.paths[k]? = some s ∧ s.Outlines v g x (k + 1) p

def Graph.log (g : Graph) : List Entry := g.edges.map fun e => (e.id, e.keys)

theorem mem_entriesAround {met : List Site} {around : List Enclosure} {te : TrailEntry}
    (h : te ∈ entriesAround met around) : ∃ inner d outer, around = inner ++ d :: outer ∧
      te = d.trailEntry (met.countP (·.isWithin (d :: outer)) + 1) := by
  induction around with
  | nil => simp [entriesAround] at h
  | cons e outer ih =>
    rcases List.mem_cons.mp h with rfl | h
    · exact ⟨[], e, outer, rfl, rfl⟩
    · obtain ⟨inner, d, out, rfl, hte⟩ := ih h
      exact ⟨e :: inner, d, out, rfl, hte⟩

theorem Placings.keys {α : Type} {resolve : Interaction → Except Fault α}
    {placed : List (Placed α)} {sites : List Site} (h : Placings resolve placed sites) :
    List.Forall₂ (fun t p => (p.trail.getD []).map TrailEntry.key =
      (t.around.map Enclosure.key).reverse) sites placed := by
  refine h.forall₂ fun _ met t p hp => ?_
  obtain ⟨position, _, htrail, _⟩ := hp.place
  rw [htrail, key_trailAt, Site.journal, key_openLevels]

/-- All trail entries but the last count the sites met inside their paths. -/
theorem exists_split_of_fits {α : Type} {resolve : Interaction → Except Fault α}
    {placed : List (Placed α)} {met : List Site} {t : Site} {p : Placed α}
    (h : p.Fits resolve placed met t) {trail : List TrailEntry} (htrail : p.trail = some trail)
    {te : TrailEntry} (hte : te ∈ trail.dropLast) : ∃ inner d outer,
      t.around = inner ++ d :: outer ∧
      te = d.trailEntry (met.countP (·.isWithin (d :: outer)) + 1) := by
  obtain ⟨position, _, hat, _⟩ := h.place
  rw [htrail] at hat
  cases ha : t.around with
  | nil =>
    rw [trailAt_journal_of_outside ha] at hat
    cases hat
  | cons e outer =>
    rw [trailAt_journal_of_inside ha, Option.some.injEq] at hat
    rw [hat, List.reverse_cons, List.dropLast_concat, List.mem_reverse] at hte
    obtain ⟨inner, d, out, rfl, hd⟩ := mem_entriesAround hte
    exact ⟨e :: inner, d, out, rfl, hd⟩

section

variable {key : Key} {chain : List Enclosure} {sites : List Site} {edges : List Edge}

def Edge.Counts (key : Key) (chain : List Enclosure) (t : Site) (e : Edge) : Prop :=
  e.keys.count key = (t.isWithin chain).toNat

theorem idsUnder_of_outside (h : List.Forall₂ (Edge.Counts key chain) sites edges)
    (hout : ∀ t ∈ sites, t.isWithin chain = false) :
    idsUnder key (edges.map fun e => (e.id, e.keys)) = [] := by
  induction h with
  | nil => rfl
  | cons he _ ih =>
    rw [List.forall_mem_cons] at hout
    have hrest := ih hout.2
    rw [Edge.Counts, hout.1] at he
    simpa [idsUnder, he] using hrest

theorem idsUnder_of_inside (h : List.Forall₂ (Edge.Counts key chain) sites edges)
    (hin : ∀ t ∈ sites, t.isWithin chain = true) :
    idsUnder key (edges.map fun e => (e.id, e.keys)) = edges.map (·.id) := by
  induction h with
  | nil => rfl
  | cons he _ ih =>
    rw [List.forall_mem_cons] at hin
    have hrest := ih hin.2
    rw [Edge.Counts, hin.1] at he
    simpa [idsUnder, he] using hrest

/-- The ids of edges at a run of sites follow on each other. -/
theorem exists_run_of_counts (h : List.Forall₂ (Edge.Counts key chain) sites edges)
    {inside : List Site} (hrun : Site.IsRun chain inside sites)
    (hin : ∀ t ∈ inside, t.isWithin chain = true) :
    ∃ before run after, edges = before ++ run ++ after ∧
      idsUnder key (edges.map fun e => (e.id, e.keys)) = run.map (·.id) ∧
      ∀ (i : Nat) (t : Site), sites[i]? = some t →
        (t.isWithin chain = true ↔ before.length ≤ i ∧ i < before.length + run.length) := by
  obtain ⟨first, last, rfl, hfirst, hlast⟩ := hrun
  obtain ⟨_, after, rfl, hleft, hafter⟩ := forall₂_append_left_iff.mp h
  obtain ⟨before, run, rfl, hbefore, hrun⟩ := forall₂_append_left_iff.mp hleft
  refine ⟨before, run, after, rfl, ?_, fun i t ht => ?_⟩
  · have hb := idsUnder_of_outside hbefore hfirst
    have hr := idsUnder_of_inside hrun hin
    have ha := idsUnder_of_outside hafter hlast
    simp only [idsUnder, List.map_append, List.flatMap_append] at hb hr ha ⊢
    rw [hb, hr, ha, List.nil_append, List.append_nil]
  · rw [← hbefore.length_eq, ← hrun.length_eq]
    rcases Nat.lt_or_ge i first.length with hi | hi
    · rw [List.append_assoc, List.getElem?_append_left hi] at ht
      have hout := hfirst t (List.mem_of_getElem? ht)
      simp only [hout, Bool.false_eq_true, false_iff]
      omega
    · rw [List.append_assoc, List.getElem?_append_right hi] at ht
      rcases Nat.lt_or_ge (i - first.length) inside.length with hm | hm
      · rw [List.getElem?_append_left hm] at ht
        have hin := hin t (List.mem_of_getElem? ht)
        simp only [hin, true_iff]
        omega
      · rw [List.getElem?_append_right hm] at ht
        have hout := hlast t (List.mem_of_getElem? ht)
        simp only [hout, Bool.false_eq_true, false_iff]
        omega

/-- An edge inside a path comes after as many as there are sites before its own in the path. -/
theorem getElem?_idsUnder (h : List.Forall₂ (Edge.Counts key chain) sites edges) {i : Nat}
    {t : Site} {e : Edge} (ht : sites[i]? = some t) (he : edges[i]? = some e)
    (hin : t.isWithin chain = true) : (idsUnder key (edges.map fun e => (e.id, e.keys)))[
      (sites.take i).countP (·.isWithin chain)]? = some e.id := by
  induction h generalizing i with
  | nil => simp at ht
  | @cons s d sites edges hd _ ih =>
    rw [Edge.Counts] at hd
    cases i with
    | zero =>
      obtain rfl : s = t := by simpa using ht
      obtain rfl : d = e := by simpa using he
      rw [hin] at hd
      simp [idsUnder, hd]
    | succ i =>
      have hrest := ih (by simpa using ht) (by simpa using he)
      rw [List.take_succ_cons, List.countP_cons]
      cases hs : s.isWithin chain with
      | true =>
        rw [hs] at hd
        simpa [idsUnder, hd] using hrest
      | false =>
        rw [hs] at hd
        simpa [idsUnder, hd] using hrest

end

section

variable {model : Model} {options : Options} {v : View} {g : Graph}

theorem View.forks_graphOf_eq_none_iff (theme : Theme) (v : View) (order : List Name)
    (nodes : List Node) (l : Layered) :
    (v.graphOf theme order nodes l).forks = none ↔ l.forks = [] := by
  rw [View.graphOf]
  cases l.forks <;> simp

theorem exists_placings_of_draw (h : v.draw model options = .ok g)
    (haware : options.branchAware = true) : ∃ (s : Scene) (theme : Theme) (order : List Name)
      (placed : List (Placed Resolved)), Placings s.resolve placed v.sites ∧
        g.edges = placed.map (edgeOf theme order) := by
  obtain ⟨selected, l, nodes, _, hl, _, rfl⟩ := View.draw_eq_ok_iff.mp h
  rw [haware] at hl
  exact ⟨_, _, _, _, Scene.placings_of_place hl, rfl⟩

theorem keys_of_draw (h : v.draw model options = .ok g) (haware : options.branchAware = true) :
    List.Forall₂ (fun t e => e.keys = (t.around.map Enclosure.key).reverse) v.sites g.edges := by
  obtain ⟨s, theme, order, placed, hplacings, hedges⟩ := exists_placings_of_draw h haware
  rw [hedges, List.forall₂_map_right_iff]
  exact hplacings.keys

/-- The forks of the summary are those that the walk entered, with the ids of the edges. -/
theorem forks_of_draw (h : v.draw model options = .ok g) (haware : options.branchAware = true) :
    g.forks.getD [] = (forkRecords v.levels g.log).map (·.summary) ∧
      (g.forks = none ↔ g.forks.getD [] = []) := by
  obtain ⟨selected, l, nodes, _, hl, _, rfl⟩ := View.draw_eq_ok_iff.mp h
  rw [haware] at hl
  obtain ⟨hok, rfl⟩ := Scene.walk_finish_eq_ok_iff.mp hl
  let scene := v.sceneOf model selected
  obtain ⟨log, hlog⟩ := scene.exists_log_walk v
  have hholds := (scene.agrees_walk v.steps).holds
  rw [hlog] at hholds
  refine ⟨?_, ?_⟩
  · rw [View.getD_forks_graphOf, Journal.summary?, Scene.isIdle_walk _ v hok, if_pos rfl,
      Option.getD_some, hlog, forkRecords_eq_of_holds hholds, Graph.log, View.graphOf, List.map_map]
    rfl
  · rw [View.getD_forks_graphOf, View.forks_graphOf_eq_none_iff]

section

variable (h : v.draw model options = .ok g) (haware : options.branchAware = true)
  (hids : v.HasDistinctIds)
include h haware hids

theorem counts_of_draw {x : Junction} (hx : x ∈ v.junctions) {k : Nat} {p : Path}
    {steps : List Step} (hp : x.paths[k]? = some (p, steps)) :
    List.Forall₂ (Edge.Counts (x.fork.id, p.id) (x.inside (k + 1) p)) v.sites g.edges := by
  have hkeys := (List.forall₂_and_left _ _).mpr ⟨fun t ht => ht, keys_of_draw h haware⟩
  refine hkeys.imp fun t e hte => ?_
  obtain ⟨ht, he⟩ := hte
  rw [Edge.Counts, he, List.count_reverse, View.count_key hids hx hp ht]

theorem outlines_record {x : Junction} (hx : x ∈ v.junctions) :
    (x.record g.log).summary.Outlines v g x := by
  refine ⟨rfl, rfl, rfl, rfl, ?_, fun k p steps hp => ?_⟩
  · rw [x.paths_summary_record, List.length_map, Junction.levels, length_pathLevels]
  · obtain ⟨inside, hrun, hin⟩ := v.isRun_sites hx hp
    have hcounts := counts_of_draw h haware hids hx hp
    refine ⟨_, Junction.getElem?_summary_record g.log hp, rfl, rfl, rfl, rfl, rfl, rfl, rfl, ?_⟩
    exact exists_run_of_counts hcounts hrun fun t ht => Site.isWithin_of_suffix (hin t ht)

/-- A trail entry other than the last leads to the edge in the summary. -/
theorem exists_edgeIds_of_draw {e : Edge} (he : e ∈ g.edges) {trail : List TrailEntry}
    (htrail : e.trail = some trail) {te : TrailEntry} (hte : te ∈ trail.dropLast) :
    ∃ x ∈ v.outlined, x.fork.id = te.forkId ∧ ∃ p ∈ (x.record g.log).summary.paths,
      p.pathId = te.pathId ∧ ∃ n, te.position = n + 1 ∧ p.edgeIds[n]? = some e.id := by
  obtain ⟨s, theme, order, placed, hplacings, hedges⟩ := exists_placings_of_draw h haware
  obtain ⟨i, hi⟩ := List.mem_iff_getElem?.mp he
  obtain ⟨q, hq, rfl⟩ : ∃ q, placed[i]? = some q ∧ edgeOf theme order q = e := by
    rwa [hedges, List.getElem?_map, Option.map_eq_some_iff] at hi
  obtain ⟨t, ht⟩ : ∃ t, v.sites[i]? = some t := by
    rw [← Option.isSome_iff_exists, isSome_getElem?, ← hplacings.length_eq]
    exact (List.getElem?_eq_some_iff.mp hq).1
  obtain ⟨inner, d, outer, hd, rfl⟩ := exists_split_of_fits (hplacings.fits ht hq) htrail hte
  -- The path of the trail entry is one of a junction, and the summary has a record of it.
  obtain ⟨x, hx, k, steps, hp, hin⟩ := v.exists_leads (List.mem_of_getElem? ht) hd
  have hfork : x.fork = d.fork := (congrArg Enclosure.fork (List.cons.inj hin).1).symm
  have hwithin : t.isWithin (d :: outer) = true := Site.isWithin_of_suffix ⟨inner, hd.symm⟩
  rw [hin] at hwithin ⊢
  have hcounts := counts_of_draw h haware hids hx hp
  have hpath := Junction.getElem?_summary_record g.log hp
  refine ⟨x, ?_, congrArg Fork.id hfork, _, List.mem_of_getElem? hpath, rfl, _, rfl,
    getElem?_idsUnder hcounts ht hi hwithin⟩
  rw [View.outlined, List.mem_filter]
  refine ⟨hx, ?_⟩
  have hne := List.ne_nil_of_mem (List.mem_of_getElem? hp)
  simpa using hne

/-- Where the forks of a view have different ids, and the paths of each, the summary lists the forks
that the walk enters through some path, as they come in the tree, with all of their paths. The edges
inside a path follow on each other, and a trail names their places. -/
theorem outline_of_draw :
    List.Forall₂ (fun t e => e.Draws t.step) v.sites g.edges ∧
    (g.forks = none ↔ v.outlined = []) ∧
    List.Forall₂ (fun x c => c.Outlines v g x) v.outlined (g.forks.getD []) ∧
    ∀ e ∈ g.edges, ∀ trail, e.trail = some trail → ∀ te ∈ trail.dropLast,
      ∃ c ∈ g.forks.getD [], c.forkId = te.forkId ∧ ∃ p ∈ c.paths, p.pathId = te.pathId ∧
        ∃ n, te.position = n + 1 ∧ p.edgeIds[n]? = some e.id := by
  obtain ⟨hforks, hnone⟩ := forks_of_draw h haware
  rw [View.forkRecords_levels hids, List.map_map] at hforks
  rw [hnone, hforks, List.map_eq_nil_iff]
  refine ⟨?_, Iff.rfl, ?_, fun e he trail htrail te hte => ?_⟩
  · exact List.forall₂_map_left_iff.mp (edges_draw_met h haware)
  · rw [List.forall₂_map_right_iff, List.forall₂_same]
    exact fun x hx => outlines_record h haware hids (List.mem_filter.mp hx).1
  · obtain ⟨x, hx, hfork, hpath⟩ := exists_edgeIds_of_draw h haware hids he htrail hte
    exact ⟨_, List.mem_map_of_mem hx, hfork, hpath⟩

end

end

theorem outline_of_draw_checkout :
    ∃ g, checkoutView.draw checkoutModel { branchAware := true } = .ok g ∧
      ({ branchAware := true } : Options).branchAware = true ∧ checkoutView.HasDistinctIds ∧
      List.Forall₂ (fun t e => e.Draws t.step) checkoutView.sites g.edges ∧
      (g.forks = none ↔ checkoutView.outlined = []) ∧
      List.Forall₂ (fun x c => c.Outlines checkoutView g x) checkoutView.outlined
        (g.forks.getD []) ∧
      ∀ e ∈ g.edges, ∀ trail, e.trail = some trail → ∀ te ∈ trail.dropLast,
        ∃ c ∈ g.forks.getD [], c.forkId = te.forkId ∧ ∃ p ∈ c.paths, p.pathId = te.pathId ∧
          ∃ n, te.position = n + 1 ∧ p.edgeIds[n]? = some e.id := by
  obtain ⟨g, hg, _⟩ := exists_draw_checkout
  have hids : checkoutView.HasDistinctIds := ⟨by decide, by decide⟩
  exact ⟨g, hg, rfl, hids, outline_of_draw hg rfl hids⟩

/-- The first block has a flat list but no path, so it is passed through without being entered. -/
def bareView : View where
  id := "bare"
  steps :=
    let ask := checkoutCall "shop.web" "bank"
    [.fork { id := "bare", kind := .parallel, shadow := some [.single ask] } [],
     .fork { id := "full", kind := .alternate } [({ id := "only" }, [.single ask])]]

theorem bare_fork_not_outlined :
    ∃ g, bareView.draw checkoutModel { branchAware := true } = .ok g ∧ bareView.HasDistinctIds ∧
      (g.forks.getD []).map (·.forkId) ≠ bareView.junctions.map (·.fork.id) := by
  obtain ⟨g, hg, hforks⟩ : ∃ g,
      bareView.draw checkoutModel { branchAware := true } = .ok g ∧
        (g.forks.getD []).map (·.forkId) = ["full"] := exists_ok_of_map_toOption (by decide +kernel)
  refine ⟨g, hg, ⟨by decide, by decide⟩, ?_⟩
  rw [hforks]
  decide

end StepGraph
