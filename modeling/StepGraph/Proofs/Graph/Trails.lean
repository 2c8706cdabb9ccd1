import StepGraph.Proofs.Graph.EdgeIds

/-!
The trails of edges that a walk numbers. A trail and an id say the same of a step: through which
paths one comes to it, and at which place of the innermost one it stands.
-/
set_option autoImplicit false

namespace StepGraph

def Enclosure.trailEntry (e : Enclosure) (position : Nat) : TrailEntry where
  forkId := e.fork.id
  pathId := e.path.id
  kind := e.fork.kind
  pathIndex := e.index
  position
  pathName := e.path.name
  pathTitle := e.path.title
  isDefault := e.fork.isDefault e.path

/-- The edge of a site, when the sites `met` have theirs before it. A trail begins with the
outermost path, and on all but the innermost one it counts the edges before this one that lie in
the path. -/
structure Edge.StandsAt (met : List Site) (s : Site) (e : Edge) : Prop where
  source : e.source = s.step.source
  target : e.target = s.step.target
  origin : e.origin = s.step.origin
  trail_eq_none_iff : e.trail = none ↔ s.around = []
  id_of_outside : s.around = [] → e.id = .ofSegments s.root []
  length_trail : ∀ trail, e.trail = some trail → trail.length = s.around.length
  level : ∀ trail, e.trail = some trail → ∀ inner d outer, s.around = inner ++ d :: outer →
    ∃ position, trail[outer.length]? = some (d.trailEntry position) ∧
      (inner ≠ [] → position = 1 + met.countP (·.isWithin (d :: outer)))
  id_of_inside : ∀ trail, e.trail = some trail → ∃ last, trail.getLast? = some last ∧
    e.id = .ofSegments s.root (trail.map (·.pathIndex) ++ [last.position])

def entriesAround (met : List Site) : List Enclosure → List TrailEntry
  | [] => []
  | d :: outer => d.trailEntry (met.countP (·.isWithin (d :: outer)) + 1) :: entriesAround met outer

theorem trailEntry_openLevels (met : List Site) (around : List Enclosure) :
    (openLevels met around).map (·.trailEntry) = entriesAround met around := by
  induction around with
  | nil => rfl
  | cons d outer ih =>
    rw [openLevels, List.map_cons, ih]
    rfl

@[simp] theorem length_entriesAround (met : List Site) (around : List Enclosure) :
    (entriesAround met around).length = around.length := by
  induction around with
  | nil => rfl
  | cons d outer ih => simp [entriesAround, ih]

@[simp] theorem pathIndex_entriesAround (met : List Site) (around : List Enclosure) :
    (entriesAround met around).map (·.pathIndex) = around.map (·.index) := by
  induction around with
  | nil => rfl
  | cons d outer ih => simp [entriesAround, ih, Enclosure.trailEntry]

theorem getElem?_entriesAround (met : List Site) (inner : List Enclosure) (d : Enclosure)
    (outer : List Enclosure) : (entriesAround met (inner ++ d :: outer))[inner.length]? =
      some (d.trailEntry (met.countP (·.isWithin (d :: outer)) + 1)) := by
  induction inner with
  | nil => rfl
  | cons c inner ih =>
    rw [List.cons_append, entriesAround, List.length_cons, List.getElem?_cons_succ, ih]

/-- Read from the outermost path on, a path stands where as many paths are around it. -/
theorem getElem?_reverse_entriesAround (met : List Site) (inner : List Enclosure) (d : Enclosure)
    (outer : List Enclosure) : (entriesAround met (inner ++ d :: outer)).reverse[outer.length]? =
      some (d.trailEntry (met.countP (·.isWithin (d :: outer)) + 1)) := by
  have hlen : (entriesAround met (inner ++ d :: outer)).length =
      inner.length + outer.length + 1 := by simp [Nat.add_assoc]
  have hindex : inner.length + outer.length + 1 - 1 - outer.length = inner.length := by omega
  rw [List.getElem?_reverse (by omega), hlen, hindex, getElem?_entriesAround]

theorem trailAt_journal_of_outside {s : Site} (h : s.around = []) (met : List Site)
    (position : Nat) : (s.journal met).trailAt position = none := by
  simp [Site.journal, Journal.trailAt, openLevels, h]

theorem trailAt_journal_of_inside {s : Site} {d : Enclosure} {outer : List Enclosure}
    (h : s.around = d :: outer) (met : List Site) (position : Nat) :
    (s.journal met).trailAt position =
      some (d.trailEntry position :: entriesAround met outer).reverse := by
  simp only [Site.journal, Journal.trailAt, openLevels, h, trailEntry_openLevels]
  rfl

theorem standsAt_edgeOf {s : Scene} {placed : List (Placed Resolved)} {met : List Site} {t : Site}
    {p : Placed Resolved} (h : p.Fits s.resolve placed met t) (theme : Theme) (order : List Name) :
    (edgeOf theme order p).StandsAt met t := by
  obtain ⟨hsource, htarget, horigin, _, _⟩ := Scene.ends_of_resolve h.resolved
  obtain ⟨position, hid, htrail, _⟩ := h.place
  cases ha : t.around with
  | nil =>
    have hnone : p.trail = none := htrail.trans (trailAt_journal_of_outside ha met position)
    have hroot : p.id = .ofSegments t.root [] :=
      hid.trans (Site.idAt_journal_of_outside ha met position)
    constructor <;> simp [edgeOf, hsource, htarget, horigin, hnone, hroot, ha]
  | cons d outer =>
    have hsome : p.trail = some (d.trailEntry position :: entriesAround met outer).reverse :=
      htrail.trans (trailAt_journal_of_inside ha met position)
    have hinside := hid.trans (Site.idAt_journal_of_inside (by simp [ha]) met position)
    refine ⟨hsource, htarget, horigin, by simp [edgeOf, hsome, ha], by simp [ha], ?_, ?_, ?_⟩
    · simp [edgeOf, hsome, ha]
    · simp only [edgeOf, hsome, Option.some.injEq, forall_eq', ha]
      intro inner c out hsplit
      cases inner with
      | nil =>
        cases hsplit
        exact ⟨position, by simp, fun hne => absurd rfl hne⟩
      | cons b inner =>
        obtain ⟨rfl, rfl⟩ : d = b ∧ outer = inner ++ c :: out := by simpa using hsplit
        refine ⟨met.countP (·.isWithin (c :: out)) + 1, ?_, fun _ => Nat.add_comm _ _⟩
        rw [List.reverse_cons, List.getElem?_append_left (by simp; omega),
          getElem?_reverse_entriesAround]
    · simp only [edgeOf, hsome, Option.some.injEq, forall_eq', hinside, ha]
      refine ⟨d.trailEntry position, ?_, ?_⟩
      · simp
      · simp [Enclosure.trailEntry]

/-- A walk gives one edge for each site of the view, in order, and every edge stands at its site. -/
theorem edges_standAt_of_draw {model : Model} {options : Options} {v : View} {g : Graph}
    (h : v.draw model options = .ok g) (haware : options.branchAware = true) :
    g.edges.length = v.sites.length ∧
    ∀ (k : Nat) (s : Site) (e : Edge), v.sites[k]? = some s → g.edges[k]? = some e →
      e.StandsAt (v.sites.take k) s := by
  obtain ⟨selected, l, nodes, _, hl, _, rfl⟩ := View.draw_eq_ok_iff.mp h
  rw [haware] at hl
  have hplacings := Scene.placings_of_place hl
  refine ⟨?_, fun k s e hs he => ?_⟩
  · simp [View.graphOf, hplacings.length_eq]
  · simp only [View.graphOf, List.getElem?_map, Option.map_eq_some_iff] at he
    obtain ⟨p, hp, rfl⟩ := he
    exact standsAt_edgeOf (hplacings.fits hs hp) _ _

theorem edges_standAt_of_draw_checkout :
    ∃ g, checkoutView.draw checkoutModel { branchAware := true } = .ok g ∧
      ({ branchAware := true } : Options).branchAware = true ∧
      g.edges.length = checkoutView.sites.length ∧
      ∀ (k : Nat) (s : Site) (e : Edge), checkoutView.sites[k]? = some s → g.edges[k]? = some e →
        e.StandsAt (checkoutView.sites.take k) s := by
  obtain ⟨g, hg, _⟩ := exists_draw_checkout
  exact ⟨g, hg, rfl, edges_standAt_of_draw hg rfl⟩

example : checkoutView.sites.map (fun s => (s.root, s.around.map (·.index))) =
    [(1, []), (2, [1, 1]), (2, [1, 1]), (2, [2, 1]), (2, [1, 1]), (2, [1]), (2, [2])] := rfl

end StepGraph
