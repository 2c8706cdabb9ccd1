import StepGraph.Proofs.Graph.Forest

/-!
The order in which a graph lists its nodes. It is made of the selected elements and of those that the
steps refer to, and it decides which nodes are drawn as holding others.
-/
set_option autoImplicit false

namespace StepGraph

/-- The names are those of the model that the steps refer to, by where they do so first. -/
structure View.RefersTo (v : View) (model : Model) (referenced : List Name) : Prop where
  mem_iff : ∀ n, n ∈ referenced ↔ model.contains n = true ∧
    ∃ i ∈ stepInteractions v.steps, n = i.source ∨ n = i.target
  ordered : referenced.Pairwise fun a b =>
    ((stepInteractions v.steps).flatMap Interaction.endpoints).idxOf a <
      ((stepInteractions v.steps).flatMap Interaction.endpoints).idxOf b

theorem View.refersTo_referencedElements (v : View) (model : Model) :
    v.RefersTo model (referencedElements model v.steps) where
  mem_iff n := by
    rw [mem_referencedElements, and_comm]
    simp [Interaction.endpoints]
  ordered := by
    rw [referencedElements, eraseDups_filter]
    exact (pairwise_idxOf_eraseDups _).filter _

theorem View.RefersTo.nodup {v : View} {model : Model} {referenced : List Name}
    (h : v.RefersTo model referenced) : referenced.Nodup := by
  refine h.ordered.imp fun {a b} hlt hab => ?_
  rw [hab] at hlt
  exact Nat.lt_irrefl _ hlt

/-- The nodes are those of the selected elements and of the ones referred to, and the compounds are
the nodes that hold others. -/
structure EnlistedBy (selected referenced compounds : List Name) (g : Graph) : Prop where
  nodup : (g.nodes.map (·.id)).Nodup
  mem_iff : ∀ a, (∃ n ∈ g.nodes, n.id = a) ↔ a ∈ selected ∨ a ∈ referenced
  order : g.nodes.map (·.id) = parentsFirst id
    (selected.filter referenced.contains ++
      (referenced.filter (!selected.contains ·) ++ selected.filter (!referenced.contains ·)))
  exists_of_compound : ∀ a ∈ compounds, ∃ n ∈ g.nodes, n.id = a
  compound_iff : ∀ n ∈ g.nodes,
    n.id ∈ compounds ↔ ∃ m ∈ g.nodes, n.id.isAncestorOf m.id = true
  holds_iff : ∀ n ∈ g.nodes, (∃ m ∈ g.nodes, n.id.isAncestorOf m.id = true) ↔ n.children ≠ []

/-- A node holds another one if and only if it takes one in. -/
theorem NestsBy.holds_iff {order : List Name} {g : Graph} (h : NestsBy order g) {n : Node}
    (hn : n ∈ g.nodes) :
    (∃ m ∈ g.nodes, n.id.isAncestorOf m.id = true) ↔ n.children ≠ [] := by
  rw [h.children n hn]
  constructor
  · intro hm
    obtain ⟨m, hm, hnm⟩ := hm
    obtain ⟨c, hc, hparent, _⟩ := exists_child (h.id_mem hn) (h.id_mem hm) hnm
    exact List.ne_nil_of_mem (mem_childrenIn.mpr ⟨hc, hparent⟩)
  · intro hne
    obtain ⟨c, hc⟩ := List.exists_mem_of_ne_nil _ hne
    obtain ⟨hc, hparent⟩ := mem_childrenIn.mp hc
    obtain ⟨m, hm, rfl⟩ := h.mem_order.mp hc
    exact ⟨m, hm, (parentIn_eq_some_iff.mp hparent).2.1⟩

theorem NestsBy.enlistedBy {model : Model} {v : View} {selected : List Name} {g : Graph}
    (h : NestsBy (v.rosterOf model selected).order g) (hs : selected.Nodup) :
    EnlistedBy selected (referencedElements model v.steps)
      (v.rosterOf model selected).compounds g where
  nodup := h.ids ▸ h.nodup
  mem_iff a := h.mem_order.symm.trans Roster.mem_order
  order := by
    rw [h.ids]
    exact Roster.order_eq hs (v.refersTo_referencedElements model).nodup
  exists_of_compound a ha := h.mem_order.mp (Roster.mem_compounds.mp ha).1
  compound_iff n hn := by
    refine Roster.mem_compounds.trans ?_
    constructor
    · intro hm
      obtain ⟨_, a, ha, hna⟩ := hm
      obtain ⟨m, hm, rfl⟩ := h.mem_order.mp ha
      exact ⟨m, hm, hna⟩
    · intro hm
      obtain ⟨m, hm, hnm⟩ := hm
      exact ⟨h.id_mem hn, m.id, h.id_mem hm, hnm⟩
  holds_iff n hn := h.holds_iff hn

/-- However a view was numbered, its nodes stand in the order of its roster: also an element that a
rule excludes has a node if a step refers to it. -/
theorem enlistedBy_of_draw {model : Model} {options : Options} {v : View} {g : Graph}
    (h : v.draw model options = .ok g) :
    ∃ selected, selectedElements model v.rules = .ok selected ∧
      v.RefersTo model (referencedElements model v.steps) ∧
      EnlistedBy selected (referencedElements model v.steps)
        (v.rosterOf model selected).compounds g := by
  obtain ⟨selected, l, nodes, hsel, _, hnodes, rfl⟩ := View.draw_eq_ok_iff.mp h
  exact ⟨selected, hsel, v.refersTo_referencedElements model,
    (nestsBy_graphOf hsel hnodes l).enlistedBy (enrols_selectedElements hsel).nodup⟩

/-- The step to `shop.web` brings back what a rule excludes, and the cart moves before its store. -/
def deliveryView : View where
  id := "delivery"
  rules := [.including ["mail", "shop.*", "bank"], .excluding ["shop.web"]]
  steps := [.single (checkoutCall "shop.cart.store" "bank"),
    .single (checkoutCall "bank" "shop.web")]

theorem exists_draw_delivery :
    ∃ g, deliveryView.draw checkoutModel { branchAware := true } = .ok g ∧
      g.nodes.map (·.id.text) = ["bank", "shop.cart", "shop.cart.store", "shop.web", "mail"] :=
  exists_ok_of_map_toOption (by decide +kernel)

theorem enlistedBy_of_draw_delivery :
    ∃ g, deliveryView.draw checkoutModel { branchAware := true } = .ok g ∧
      ∃ selected, selectedElements checkoutModel deliveryView.rules = .ok selected ∧
        deliveryView.RefersTo checkoutModel
          (referencedElements checkoutModel deliveryView.steps) ∧
        EnlistedBy selected (referencedElements checkoutModel deliveryView.steps)
          (deliveryView.rosterOf checkoutModel selected).compounds g := by
  obtain ⟨g, hg, _⟩ := exists_draw_delivery
  exact ⟨g, hg, enlistedBy_of_draw hg⟩

end StepGraph
