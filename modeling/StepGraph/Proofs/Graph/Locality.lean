import StepGraph.Proofs.Graph.Entries

/-!
The places of edges are local to their entry. Two drawings agree on the ids and the trails of an
entry that starts at one root number in both, whatever stands around it. So what is added to the end
of a view leaves the other entries alone, and so does an edit of a fork that is not void before and
not void after.
-/
set_option autoImplicit false

namespace StepGraph

def Edge.spot (e : Edge) : EdgeId × Option (List TrailEntry) := (e.id, e.trail)

def Step.spots (branchAware : Bool) (root : Nat) (s : Step) :
    List (EdgeId × Option (List TrailEntry)) :=
  (s.numbers branchAware root).map fun p => (p.id, p.trail)

theorem exists_spotted_runs_of_draw {model : Model} {options : Options} {v : View} {g : Graph}
    (h : v.draw model options = .ok g) : ∃ runs, runs.flatten = g.edges ∧
      List.Forall₂ (fun x run => x.2.IsDrawn options.branchAware x.1 run) v.entries runs ∧
      runs.map (·.map Edge.spot) = v.entries.map fun x => x.2.spots options.branchAware x.1 := by
  obtain ⟨runs, hflatten, hruns⟩ := exists_numbered_runs_of_draw h
  refine ⟨runs, hflatten, hruns.imp fun _ _ hrun => Step.isDrawn_of_drawsAt hrun, ?_⟩
  refine (map_eq_map_of_forall₂ hruns fun x run hrun => ?_).symm
  refine map_eq_map_of_forall₂ hrun fun p e he => ?_
  rw [Edge.spot, he.id, he.trail]

theorem withRoots_append (root : Nat) (first last : List Step) :
    withRoots root (first ++ last) =
      withRoots root first ++ withRoots (root + (first.map Step.roots).sum) last := by
  induction first generalizing root with
  | nil => rfl
  | cons s rest ih => simp [withRoots, ih, Nat.add_assoc]

@[simp] theorem length_withRoots (root : Nat) (steps : List Step) :
    (withRoots root steps).length = steps.length := by
  induction steps generalizing root with
  | nil => rfl
  | cons s rest ih => simp [withRoots, ih]

theorem View.entries_prefix {v w : View} (h : v.steps <+: w.steps) : v.entries <+: w.entries := by
  obtain ⟨added, hadded⟩ := h
  rw [v.entries_eq, w.entries_eq, ← hadded, withRoots_append]
  exact List.prefix_append _ _

/-- A fork in the tree is exchanged for another one, neither of them void. -/
inductive Step.Edits : Step → Step → Prop where
  | exchange {f g : Fork} {paths others : List (Path × List Step)} :
    (Step.fork f paths).isVoid = false → (Step.fork g others).isVoid = false →
    Edits (.fork f paths) (.fork g others)
  | inside {f : Fork} {first last : List (Path × List Step)} {p : Path} {before after : List Step}
    {s t : Step} : Edits s t → Edits (.fork f (first ++ (p, before ++ s :: after) :: last))
      (.fork f (first ++ (p, before ++ t :: after) :: last))

namespace Step.Edits

variable {s t : Step}

/-- Around an edited fork no fork becomes void, or ceases to be. -/
theorem isVoid_eq (h : s.Edits t) : s.isVoid = t.isVoid := by
  induction h with
  | exchange hs ht => rw [hs, ht]
  | @inside f first last p before after s t _ ih =>
    have hempty : s.interactions = [] ↔ t.interactions = [] := by
      rw [← List.isEmpty_iff, ← List.isEmpty_iff]
      exact Bool.eq_iff_iff.mp ih
    -- Lanes alone decide what a fork stands for; without any it stands for what is in its paths.
    rw [isVoid, isVoid, interactions_fork, interactions_fork, Bool.eq_iff_iff]
    by_cases hlanes : f.lanes.isEmpty
    · simp [hlanes, innerSteps, hempty]
    · simp [hlanes]

theorem roots_eq (h : s.Edits t) : s.roots = t.roots := by
  have hvoid := h.isVoid_eq
  cases h with
  | exchange hs ht => rw [roots, roots, hvoid]
  | inside h => rw [roots, roots, hvoid]

theorem getElem?_entries {v w : View} {before after : List Step} (h : s.Edits t)
    (hv : v.steps = before ++ s :: after) (hw : w.steps = before ++ t :: after) {k : Nat}
    (hk : k ≠ before.length) : v.entries[k]? = w.entries[k]? := by
  rw [v.entries_eq, w.entries_eq, hv, hw, withRoots_append, withRoots_append, withRoots, withRoots,
    h.roots_eq]
  rw [List.getElem?_append, List.getElem?_append, length_withRoots]
  by_cases hlt : k < before.length
  · rw [if_pos hlt, if_pos hlt]
  · obtain ⟨n, hn⟩ : ∃ n, k - before.length = n + 1 := ⟨k - before.length - 1, by omega⟩
    rw [if_neg hlt, if_neg hlt, hn, List.getElem?_cons_succ, List.getElem?_cons_succ]

end Step.Edits

/-- An entry has one root number in two views: its edges have the same ids and trails in both. -/
theorem spots_of_draws {model other : Model} {options choices : Options} {v w : View} {g h : Graph}
    (hmode : options.branchAware = choices.branchAware)
    (hv : v.draw model options = .ok g) (hw : w.draw other choices = .ok h) :
    ∃ runs others : List (List Edge), runs.flatten = g.edges ∧ others.flatten = h.edges ∧
      List.Forall₂ (fun x run => x.2.IsDrawn options.branchAware x.1 run) v.entries runs ∧
      List.Forall₂ (fun x run => x.2.IsDrawn choices.branchAware x.1 run) w.entries others ∧
      (∀ m n : Nat, v.entries[m]? = w.entries[n]? →
        (runs.map (·.map Edge.spot))[m]? = (others.map (·.map Edge.spot))[n]?) ∧
      (v.steps <+: w.steps → g.edges.map Edge.spot <+: h.edges.map Edge.spot) ∧
      ∀ before after s t, v.steps = before ++ s :: after → w.steps = before ++ t :: after →
        s.Edits t → ∀ k, k ≠ before.length →
          (runs.map (·.map Edge.spot))[k]? = (others.map (·.map Edge.spot))[k]? := by
  obtain ⟨runs, hruns, hdrawn, hspots⟩ := exists_spotted_runs_of_draw hv
  obtain ⟨others, hothers, hdrawn', hspots'⟩ := exists_spotted_runs_of_draw hw
  rw [← hmode] at hspots'
  have hlocal : ∀ m n : Nat, v.entries[m]? = w.entries[n]? →
      (runs.map (·.map Edge.spot))[m]? = (others.map (·.map Edge.spot))[n]? := by
    intro m n hmn
    rw [hspots, hspots', List.getElem?_map, List.getElem?_map, hmn]
  refine ⟨runs, others, hruns, hothers, hdrawn, hdrawn', hlocal, fun hprefix => ?_, ?_⟩
  · rw [← hruns, ← hothers, List.map_flatten, List.map_flatten, hspots, hspots']
    obtain ⟨added, hadded⟩ := View.entries_prefix hprefix
    rw [← hadded, List.map_append, List.flatten_append]
    exact List.prefix_append _ _
  · intro before after s t hvs hws hedits k hk
    exact hlocal k k (hedits.getElem?_entries hvs hws hk)

def payment (tell : Step) : Step :=
  .fork { id := "pay", kind := .alternate }
    [({ id := "card" }, [tell, .single (checkoutCall "bank" "shop.web")]),
     ({ id := "cash" }, [.single (checkoutCall "shop.web" "shop.cart")])]

def tellBank : Step :=
  .fork { id := "tell", kind := .parallel }
    [({ id := "post" }, [.single (checkoutCall "shop.web" "bank")])]

def tellBoth : Step :=
  .fork { id := "tell-both", kind := .parallel }
    [({ id := "call" }, [.single (checkoutCall "shop.web" "bank")]),
     ({ id := "mail" }, [.single (checkoutCall "shop.web" "mail")])]

def purchaseView (tell : Step) (more : List Step) : View where
  id := "purchase"
  steps := [.single (checkoutCall "shop.cart" "shop.web"), payment tell] ++ more

def receipt : Step := .single (checkoutCall "shop.web" "mail")

/-- A receipt is added to the end of a view; then the fork inside the payment is edited. -/
theorem spots_of_draws_purchase :
    ∃ g h i, (purchaseView tellBank []).draw checkoutModel { branchAware := true } = .ok g ∧
      (purchaseView tellBank [receipt]).draw checkoutModel { branchAware := true } = .ok h ∧
      (purchaseView tellBoth [receipt]).draw checkoutModel { branchAware := true } = .ok i ∧
      g.edges.map Edge.spot <+: h.edges.map Edge.spot ∧
      ∃ runs others : List (List Edge), runs.flatten = h.edges ∧ others.flatten = i.edges ∧
        (payment tellBank).Edits (payment tellBoth) ∧
        ∀ k, k ≠ 1 → (runs.map (·.map Edge.spot))[k]? = (others.map (·.map Edge.spot))[k]? := by
  obtain ⟨g, hg, _⟩ : ∃ g, (purchaseView tellBank []).draw checkoutModel
      { branchAware := true } = .ok g ∧ g.edgeIds.length = 4 :=
    exists_ok_of_map_toOption (by decide +kernel)
  obtain ⟨h, hh, _⟩ : ∃ h, (purchaseView tellBank [receipt]).draw checkoutModel
      { branchAware := true } = .ok h ∧ h.edgeIds.length = 5 :=
    exists_ok_of_map_toOption (by decide +kernel)
  obtain ⟨i, hi, _⟩ : ∃ i, (purchaseView tellBoth [receipt]).draw checkoutModel
      { branchAware := true } = .ok i ∧ i.edgeIds.length = 6 :=
    exists_ok_of_map_toOption (by decide +kernel)
  have hedits : (payment tellBank).Edits (payment tellBoth) :=
    @Step.Edits.inside _ [] _ _ [] _ _ _ (.exchange (by decide) (by decide))
  obtain ⟨_, _, _, _, _, _, _, hprefix, _⟩ := spots_of_draws rfl hg hh
  obtain ⟨runs, others, hruns, hothers, _, _, _, _, hlocal⟩ := spots_of_draws rfl hh hi
  refine ⟨g, h, i, hg, hh, hi, hprefix ⟨[receipt], rfl⟩, runs, others, hruns, hothers, hedits, ?_⟩
  exact hlocal [.single (checkoutCall "shop.cart" "shop.web")] [receipt] _ _ rfl rfl hedits

end StepGraph
