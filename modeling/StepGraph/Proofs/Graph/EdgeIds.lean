import StepGraph.Proofs.Drawing
import StepGraph.Proofs.Walk.FlatNumbers

/-!
The ids of the edges of a graph. A walk gives a step outside of forks a root number that nothing
else bears, and any other step an id that is still free; so in both numberings an id names one edge.
-/
set_option autoImplicit false

namespace StepGraph

namespace Placings

variable {α : Type} {resolve : Interaction → Except Fault α} {placed : List (Placed α)}
  {sites : List Site}

theorem exists_site (h : Placings resolve placed sites) {p : Placed α} (hp : p ∈ placed) :
    ∃ s ∈ sites, ∃ nested, p.id = .ofSegments s.root nested := by
  induction h with
  | nil => simp at hp
  | @snoc placed met q s _ hq ih =>
    rw [List.mem_append, List.mem_singleton] at hp
    rcases hp with hp | rfl
    · obtain ⟨t, ht, hid⟩ := ih hp
      exact ⟨t, List.mem_append_left _ ht, hid⟩
    · obtain ⟨position, hid, _⟩ := hq.place
      obtain ⟨nested, hn⟩ := s.exists_idAt_journal met position
      exact ⟨s, by simp, nested, hid.trans hn⟩

theorem nodup (h : Placings resolve placed sites) (hs : sites.Pairwise Site.RootsBefore) :
    (placed.map (·.id)).Nodup := by
  induction h with
  | nil => simp
  | @snoc placed met p s hm hp ih =>
    rw [List.pairwise_append] at hs
    obtain ⟨hbefore, _, hlast⟩ := hs
    rw [List.map_append, List.map_singleton, List.nodup_append]
    refine ⟨ih hbefore, List.nodup_singleton _, ?_⟩
    simp only [List.mem_map, List.mem_singleton, forall_eq, forall_exists_index, and_imp,
      forall_apply_eq_imp_iff₂]
    intro q hq heq
    obtain ⟨position, hid, _, hfree⟩ := hp.place
    by_cases ha : s.around = []
    · obtain ⟨t, ht, nested, hqid⟩ := hm.exists_site hq
      rw [hid, Site.idAt_journal_of_outside ha, hqid, EdgeId.ofSegments_inj] at heq
      rcases hlast t ht s (List.mem_singleton_self s) with hlt | ⟨_, _, hne⟩
      · omega
      · exact hne ha
    · refine (hfree ha).free (List.mem_map.mpr ⟨q, hq, ?_⟩)
      rw [heq, hid]

end Placings

section

variable {s : Scene} {v : View} {branchAware : Bool} {l : Layered}

theorem Scene.id_flatNumbers_of_place (h : s.place false v.steps = .ok l) :
    (flatNumbers 1 v.steps).map (·.id) = l.placed.map (·.id) :=
  map_eq_map_of_forall₂ (Scene.placeFlat_eq_ok_iff.mp h).2 fun _ _ hpq => hpq.1

theorem Scene.nodup_of_place (h : s.place branchAware v.steps = .ok l) :
    (l.placed.map (·.id)).Nodup := by
  cases branchAware with
  | true => exact (Scene.placings_of_place h).nodup (rootSites_pairwise 1 0 v.steps)
  | false =>
    rw [← Scene.id_flatNumbers_of_place h]
    exact flatNumbers_nodup 1 v.steps

theorem Scene.exists_ofSegments_of_place (h : s.place branchAware v.steps = .ok l)
    {p : Placed Resolved} (hp : p ∈ l.placed) : ∃ root nested, p.id = .ofSegments root nested := by
  cases branchAware with
  | true =>
    obtain ⟨t, _, nested, hid⟩ := (Scene.placings_of_place h).exists_site hp
    exact ⟨t.root, nested, hid⟩
  | false =>
    have hmem : p.id ∈ (flatNumbers 1 v.steps).map (·.id) := by
      rw [Scene.id_flatNumbers_of_place h]
      exact List.mem_map_of_mem hp
    obtain ⟨q, hq, hid⟩ := List.mem_map.mp hmem
    obtain ⟨root, nested, hqid, _⟩ := id_of_mem_flatNumbers v.steps hq
    exact ⟨root, nested, hid ▸ hqid⟩

end

section

variable {model : Model} {options : Options} {v : View} {g : Graph}

theorem nodup_ids_of_draw (h : v.draw model options = .ok g) : (g.edges.map (·.id)).Nodup := by
  obtain ⟨selected, l, nodes, _, hl, _, rfl⟩ := View.draw_eq_ok_iff.mp h
  simpa [View.graphOf, edgeOf, Function.comp_def] using Scene.nodup_of_place hl

theorem exists_ofSegments_of_draw (h : v.draw model options = .ok g) {e : Edge} (he : e ∈ g.edges) :
    ∃ root nested, e.id = .ofSegments root nested := by
  obtain ⟨selected, l, nodes, _, hl, _, rfl⟩ := View.draw_eq_ok_iff.mp h
  obtain ⟨p, hp, rfl⟩ := List.mem_map.mp he
  exact Scene.exists_ofSegments_of_place hl hp

theorem EdgeId.text_inj {a b : EdgeId} : a.text = b.text ↔ a = b := by
  cases a
  cases b
  simp

theorem Graph.edge?_eq_some_of_nodup (hg : (g.edges.map (·.id)).Nodup) {e : Edge}
    (he : e ∈ g.edges) : g.edge? e.id.text = some e := by
  obtain ⟨d, hd⟩ : ∃ d, g.edge? e.id.text = some d := by
    rw [← Option.isSome_iff_exists, edge?, List.find?_isSome]
    exact ⟨e, he, by simp⟩
  have hid : d.id = e.id := by simpa [EdgeId.text_inj] using List.find?_some hd
  rw [hd, List.inj_on_of_nodup_map hg (List.mem_of_find?_eq_some hd) he hid]

/-- Whatever tree of steps was drawn and however it was numbered, an id is the id of one edge, is
recognised as an id and finds its edge. -/
theorem edgeIds_of_draw (h : v.draw model options = .ok g) : g.edgeIds.Nodup ∧
    ∀ e ∈ g.edges, EdgeId.parse? e.id.text = some e.id ∧ g.edge? e.id.text = some e := by
  have hids := nodup_ids_of_draw h
  refine ⟨?_, fun e he => ⟨?_, Graph.edge?_eq_some_of_nodup hids he⟩⟩
  · have htexts := hids.map (f := EdgeId.text) fun a b => EdgeId.text_inj.mp
    rwa [List.map_map] at htexts
  · obtain ⟨root, nested, hid⟩ := exists_ofSegments_of_draw h he
    rw [hid, EdgeId.parse?_ofSegments]

end

def checkoutModel : Model where
  elements := ["shop", "shop.web", "shop.cart", "shop.cart.store", "bank", "mail"].map
    fun n => { id := ⟨n⟩ }

def checkoutCall (source target : String) : Interaction :=
  { source := ⟨source⟩, target := ⟨target⟩ }

/-- In the first path of `pay` two forks stand next to each other, the first one written flatly. -/
def checkoutView : View where
  id := "checkout"
  rules := [.including ["shop"]]
  steps :=
    let reserve := flatFork "reserve"
      [.chain { members := [checkoutCall "shop.cart" "shop.cart.store",
          checkoutCall "shop.cart.store" "shop.cart"] },
       .single (checkoutCall "shop.web" "bank")]
    [.single (checkoutCall "shop.web" "shop.cart.store"),
     .fork { id := "pay", kind := .alternate, defaultPath := some "card" }
       [({ id := "card" },
          [.fork reserve.1 reserve.2,
           .fork { id := "tell", kind := .parallel }
             [({ id := "post" }, [.single (checkoutCall "bank" "mail")])],
           .single (checkoutCall "mail" "shop.web")]),
        ({ id := "cash" }, [.single (checkoutCall "shop.web" "shop.web")])]]

/-- The fork `tell` counts from one again, and so its step is moved on to the third position. -/
theorem exists_draw_checkout :
    ∃ g, checkoutView.draw checkoutModel { branchAware := true } = .ok g ∧ g.edgeIds =
      ["step-01", "step-02.01.01.01", "step-02.01.01.02", "step-02.01.02.01", "step-02.01.01.03",
       "step-02.01.05", "step-02.02.01"] :=
  exists_ok_of_map_toOption (by decide +kernel)

theorem edgeIds_of_draw_checkout :
    ∃ g, checkoutView.draw checkoutModel { branchAware := true } = .ok g ∧ g.edgeIds.Nodup ∧
      ∀ e ∈ g.edges, EdgeId.parse? e.id.text = some e.id ∧ g.edge? e.id.text = some e := by
  obtain ⟨g, hg, _⟩ := exists_draw_checkout
  exact ⟨g, hg, edgeIds_of_draw hg⟩

end StepGraph
