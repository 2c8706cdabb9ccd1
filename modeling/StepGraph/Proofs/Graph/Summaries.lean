import StepGraph.Proofs.Graph.EdgeIds
import StepGraph.Proofs.Journal

/-!
The summary of the forks that a walk went through. It is made of the same levels as the trails of
the edges, so either of them can be read off the other, whatever ids forks and paths bear.
-/
set_option autoImplicit false

namespace StepGraph

def Placed.entry {α : Type} (p : Placed α) : Entry :=
  (p.id, (p.trail.getD []).map TrailEntry.key)

theorem key_trailAt (j : Journal) (position : Nat) :
    ((j.trailAt position).getD []).map TrailEntry.key = (j.levels.map Level.key).reverse := by
  rw [Journal.trailAt]
  cases j.levels with
  | nil => rfl
  | cons l outer => simp [Function.comp_def, Level.trailEntry, TrailEntry.key, Level.key]

namespace Walk

variable {α : Type}

structure Agrees (w : Walk α) : Prop where
  holds : Holds w.journal.forks (w.placed.map Placed.entry)
  lists : ∀ l ∈ w.journal.levels, Lists w.journal.forks l.key

namespace Agrees

variable {w : Walk α}

theorem enter (h : w.Agrees) (l : Level) :
    Agrees { w with journal := w.journal.enter l } := by
  refine ⟨h.holds.enter l, fun k hk => h.holds.lists_enter l ?_⟩
  rcases List.mem_cons.mp hk with rfl | hk
  · exact .inl rfl
  · exact .inr (h.lists k hk)

theorem place (h : w.Agrees) (root : Nat) (a : α) : (w.place root a).Agrees := by
  have hlisted : ∀ key ∈ w.journal.levels.map Level.key, Lists w.journal.forks key :=
    List.forall_mem_map.mpr h.lists
  let p : Placed α :=
    { id := w.journal.idAt root (w.position root), trail := w.journal.trailAt (w.position root),
      content := a }
  have hperm : (w.journal.levels.map Level.key).Perm p.entry.2 := by
    rw [Placed.entry, key_trailAt]
    exact (List.reverse_perm _).symm
  have hforks : (w.place root a).journal.forks =
      w.journal.forks.map (·.recordUnder (w.journal.levels.map Level.key) p.entry.1) :=
    Journal.foldl_recordOn _ _ _
  constructor
  · rw [hforks, show (w.place root a).placed = w.placed ++ [p] from rfl, List.map_append]
    exact h.holds.record hperm hlisted
  · rw [hforks]
    refine List.forall_mem_map.mpr fun l hl => ?_
    exact (h.lists l hl).recordUnder _ _

theorem leave (h : w.Agrees) : Agrees { w with journal := w.journal.leave.2 } := by
  obtain ⟨hholds, hlists⟩ := h
  rw [Journal.leave]
  split
  · exact ⟨hholds, hlists⟩
  · rename_i l outer hlevels
    exact ⟨hholds, fun k hk => hlists k (hlevels ▸ List.mem_cons_of_mem l hk)⟩

theorem visit {resolve : Interaction → Except Fault α} (h : w.Agrees) (v : Nat × Visit) :
    (w.visit resolve v).Agrees := by
  obtain ⟨root, v⟩ := v
  cases v with
  | enter f p n => exact h.enter _
  | leave => exact h.leave
  | meet i =>
    rw [Walk.visit, Walk.meet]
    split
    · exact h
    · exact ⟨h.holds, h.lists⟩
    · exact h.place root _

theorem run {resolve : Interaction → Except Fault α} (h : w.Agrees) (visits : List (Nat × Visit)) :
    (Walk.run resolve visits w).Agrees := by
  induction visits generalizing w with
  | nil => exact h
  | cons v rest ih => exact ih (h.visit v)

end Agrees

end Walk

theorem Scene.agrees_walk (s : Scene) (steps : List Step) : (s.walk steps).Agrees :=
  Walk.Agrees.run ⟨.nil, by simp⟩ _

def Edge.keys (e : Edge) : List Key := (e.trail.getD []).map TrailEntry.key

theorem View.getD_forks_graphOf (theme : Theme) (v : View) (order : List Name) (nodes : List Node)
    (l : Layered) : (v.graphOf theme order nodes l).forks.getD [] = l.forks := by
  rw [View.graphOf]
  split
  · rename_i h
    exact (List.isEmpty_iff.mp h).symm
  · rfl

/-- What a graph that a walk numbered holds of forks, under the ids of its edges. -/
theorem holds_of_draw {model : Model} {options : Options} {v : View} {g : Graph}
    (h : v.draw model options = .ok g) (haware : options.branchAware = true) :
    ∃ forks, Holds forks (g.edges.map fun e => (e.id, e.keys)) ∧
      g.forks.getD [] = forks.map (·.summary) := by
  obtain ⟨selected, l, nodes, _, hl, _, rfl⟩ := View.draw_eq_ok_iff.mp h
  rw [haware] at hl
  obtain ⟨hok, rfl⟩ := Scene.walk_finish_eq_ok_iff.mp hl
  refine ⟨((v.sceneOf model selected).walk v.steps).journal.forks, ?_, ?_⟩
  · rw [View.graphOf, List.map_map]
    exact ((v.sceneOf model selected).agrees_walk v.steps).holds
  · rw [View.getD_forks_graphOf, Journal.summary?, Scene.isIdle_walk _ v hok]
    rfl

/-- In the summary of a walk no fork stands twice, and in none of its forks a path. Each fork and
path that a trail names is there; and under a path stand, in the order of the edges, their ids, each
as often as its trail names the path. -/
theorem summary_of_draw {model : Model} {options : Options} {v : View} {g : Graph}
    (h : v.draw model options = .ok g) (haware : options.branchAware = true) :
    ((g.forks.getD []).map (·.forkId)).Nodup ∧
    (∀ c ∈ g.forks.getD [], (c.paths.map (·.pathId)).Nodup) ∧
    (∀ e ∈ g.edges, ∀ key ∈ e.keys, ∃ c ∈ g.forks.getD [], c.forkId = key.1 ∧
      ∃ p ∈ c.paths, p.pathId = key.2) ∧
    ∀ c ∈ g.forks.getD [], ∀ p ∈ c.paths,
      p.edgeIds = g.edges.flatMap fun e =>
        List.replicate (e.keys.count (c.forkId, p.pathId)) e.id := by
  obtain ⟨forks, hholds, hforks⟩ := holds_of_draw h haware
  rw [hforks]
  refine ⟨hholds.nodup_summary, fun c hc => hholds.nodup_paths_summary hc, ?_, ?_⟩
  · intro e he key hkey
    exact hholds.exists_summary (List.mem_map_of_mem he) hkey
  · intro c hc p hp
    rw [hholds.edgeIds_summary hc hp, idsUnder, List.flatMap_map]

/-- One path lies in another of its name, and next to a third. -/
def echoView : View where
  id := "echo"
  steps :=
    let ask := Step.single (checkoutCall "shop.web" "bank")
    [.fork { id := "ask", kind := .alternate }
      [({ id := "again" },
        [ask, .fork { id := "ask", kind := .parallel }
          [({ id := "again" }, [ask]), ({ id := "again" }, [ask])]])]]

theorem exists_draw_echo :
    ∃ g, echoView.draw checkoutModel { branchAware := true } = .ok g ∧
      (g.forks.getD []).flatMap (·.paths.map fun p => (p.pathId, p.edgeIds.map (·.text))) =
        [("again", ["step-01.01.01", "step-01.01.01.01", "step-01.01.01.01", "step-01.01.02.01",
          "step-01.01.02.01"])] :=
  exists_ok_of_map_toOption (by decide +kernel)

theorem summary_of_draw_echo :
    ∃ g, echoView.draw checkoutModel { branchAware := true } = .ok g ∧
      ({ branchAware := true } : Options).branchAware = true ∧
      ((g.forks.getD []).map (·.forkId)).Nodup ∧
      (∀ c ∈ g.forks.getD [], (c.paths.map (·.pathId)).Nodup) ∧
      (∀ e ∈ g.edges, ∀ key ∈ e.keys, ∃ c ∈ g.forks.getD [], c.forkId = key.1 ∧
        ∃ p ∈ c.paths, p.pathId = key.2) ∧
      ∀ c ∈ g.forks.getD [], ∀ p ∈ c.paths,
        p.edgeIds = g.edges.flatMap fun e =>
          List.replicate (e.keys.count (c.forkId, p.pathId)) e.id := by
  obtain ⟨g, hg, _⟩ := exists_draw_echo
  exact ⟨g, hg, rfl, summary_of_draw hg rfl⟩

end StepGraph
