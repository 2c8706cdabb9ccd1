import StepGraph.Proofs.Graph.EdgeIds
import StepGraph.Proofs.Graph.Nodes

/-!
The nodes of a graph as a forest. Which node holds which is read off the names alone, also where
names between them are missing from the view; parents, children, levels and depths all tell the same
tree.
-/
set_option autoImplicit false

namespace StepGraph

structure Graph.IsForest (g : Graph) : Prop where
  nodup : (g.nodes.map (·.id)).Nodup
  /-- The parent is the innermost node around. -/
  parent_eq_some_iff : ∀ n ∈ g.nodes, ∀ p, n.parent = some p ↔
    (∃ m ∈ g.nodes, m.id = p) ∧ p.isAncestorOf n.id = true ∧
      ∀ m ∈ g.nodes, m.id.isAncestorOf n.id = true → m.id.isSameOrAncestorOf p = true
  parent_eq_none_iff : ∀ n ∈ g.nodes,
    n.parent = none ↔ ∀ m ∈ g.nodes, m.id.isAncestorOf n.id = false
  parent_before : ∀ (k : Nat) (n : Node) (p : Name), g.nodes[k]? = some n → n.parent = some p →
    ∃ (j : Nat) (m : Node), j < k ∧ g.nodes[j]? = some m ∧ m.id = p
  children : ∀ n ∈ g.nodes, n.children = (g.nodes.filter (·.parent == some n.id)).map (·.id)
  level : ∀ n ∈ g.nodes, n.level = g.nodes.countP (·.id.isAncestorOf n.id)
  level_root : ∀ n ∈ g.nodes, n.parent = none → n.level = 0
  level_child : ∀ n ∈ g.nodes, ∀ m ∈ g.nodes, n.parent = some m.id → n.level = m.level + 1
  depth_leaf : ∀ n ∈ g.nodes, n.children = [] → n.depth = 0
  /-- One more than the greatest depth of a child. -/
  depth_inner : ∀ n ∈ g.nodes, n.children ≠ [] →
    (∃ c ∈ g.nodes, c.parent = some n.id ∧ n.depth = c.depth + 1) ∧
      ∀ c ∈ g.nodes, c.parent = some n.id → c.depth + 1 ≤ n.depth

/-- The nodes stand as listed in `order` and have their places in the tree from it. -/
structure NestsBy (order : List Name) (g : Graph) : Prop where
  ids : g.nodes.map (·.id) = order
  nodup : order.Nodup
  first : ParentsFirst id order
  parent : ∀ n ∈ g.nodes, n.parent = parentIn order n.id
  children : ∀ n ∈ g.nodes, n.children = childrenIn order n.id
  level : ∀ n ∈ g.nodes, n.level = levelIn order n.id
  depth : ∀ n ∈ g.nodes, n.depth = heightIn order n.id

theorem nestsBy_graphOf {model : Model} {theme : Theme} {v : View} {selected : List Name}
    {nodes : List Node} (hsel : selectedElements model v.rules = .ok selected)
    (hnodes : nodesOf model (v.rosterOf model selected) v.rules theme = .ok nodes) (l : Layered) :
    NestsBy (v.rosterOf model selected).order
      (v.graphOf theme (v.rosterOf model selected).order nodes l) := by
  have hfirst := Roster.parentsFirst_order selected (referencedElements model v.steps)
  obtain ⟨styles, hstyles, _⟩ := nodesOf_eq_ok_iff.mp hnodes
  have hall : ∀ n ∈ (v.graphOf theme (v.rosterOf model selected).order nodes l).nodes,
      n.parent = parentIn (v.rosterOf model selected).order n.id ∧
      n.children = childrenIn (v.rosterOf model selected).order n.id ∧
      n.level = levelIn (v.rosterOf model selected).order n.id ∧
      n.depth = heightIn (v.rosterOf model selected).order n.id := by
    intro n hn
    obtain ⟨m, hm, rfl⟩ := List.mem_map.mp hn
    obtain ⟨e, _, hmn⟩ := eq_nodeOf_of_mem hfirst hstyles hnodes hm
    rw [hmn]
    exact ⟨rfl, rfl, rfl, rfl⟩
  constructor
  · rw [ids_graphOf, id_nodesOf hnodes]
  · exact (enrols_rosterOf hsel).nodup
  · exact hfirst
  · exact fun n hn => (hall n hn).1
  · exact fun n hn => (hall n hn).2.1
  · exact fun n hn => (hall n hn).2.2.1
  · exact fun n hn => (hall n hn).2.2.2

namespace NestsBy

variable {order : List Name} {g : Graph}

theorem mem_order (h : NestsBy order g) {a : Name} : a ∈ order ↔ ∃ m ∈ g.nodes, m.id = a := by
  rw [← h.ids, List.mem_map]

theorem id_mem (h : NestsBy order g) {n : Node} (hn : n ∈ g.nodes) : n.id ∈ order :=
  h.mem_order.mpr ⟨n, hn, rfl⟩

theorem forall_mem_iff (h : NestsBy order g) {P : Name → Prop} :
    (∀ a ∈ order, P a) ↔ ∀ m ∈ g.nodes, P m.id := by
  rw [← h.ids, List.forall_mem_map]

theorem mem_childrenIn_iff (h : NestsBy order g) {n : Name} {a : Name} :
    a ∈ childrenIn order n ↔ ∃ c ∈ g.nodes, c.id = a ∧ c.parent = some n := by
  rw [mem_childrenIn, h.mem_order]
  constructor
  · rintro ⟨⟨c, hc, rfl⟩, hparent⟩
    exact ⟨c, hc, rfl, (h.parent c hc).trans hparent⟩
  · rintro ⟨c, hc, rfl, hparent⟩
    exact ⟨⟨c, hc, rfl⟩, (h.parent c hc).symm.trans hparent⟩

theorem depth_lt_of_parent (h : NestsBy order g) {c n : Node} (hc : c ∈ g.nodes)
    (hn : n ∈ g.nodes) (hparent : c.parent = some n.id) : c.depth < n.depth := by
  rw [h.depth c hc, h.depth n hn]
  exact heightIn_lt_of_parentIn (h.id_mem hc) ((h.parent c hc).symm.trans hparent)

theorem exists_deepest (h : NestsBy order g) {n : Node} (hn : n ∈ g.nodes)
    (hne : n.children ≠ []) : ∃ c ∈ g.nodes, c.parent = some n.id ∧ n.depth = c.depth + 1 := by
  rw [h.children n hn] at hne
  have hheights : (childrenIn order n.id).map (fun c => heightIn order c + 1) ≠ [] :=
    mt List.map_eq_nil_iff.mp hne
  have hmem := List.maximum_mem (List.foldr_max_of_ne_nil hheights).symm
  obtain ⟨a, ha, hmax⟩ := List.mem_map.mp hmem
  obtain ⟨c, hc, rfl, hparent⟩ := h.mem_childrenIn_iff.mp ha
  refine ⟨c, hc, hparent, ?_⟩
  rw [h.depth n hn, h.depth c hc, heightIn_eq (h.id_mem hn)]
  exact hmax.symm

theorem isForest (h : NestsBy order g) : g.IsForest where
  nodup := h.ids.symm ▸ h.nodup
  parent_eq_some_iff n hn p := by
    rw [h.parent n hn, parentIn_eq_some_iff, h.mem_order, h.forall_mem_iff]
  parent_eq_none_iff n hn := by
    rw [h.parent n hn, parentIn_eq_none_iff, h.forall_mem_iff]
  parent_before k n p hk hparent := by
    have hn := List.mem_of_getElem? hk
    obtain ⟨hp, hpn, _⟩ := parentIn_eq_some_iff.mp ((h.parent n hn).symm.trans hparent)
    obtain ⟨m, hm, rfl⟩ := h.mem_order.mp hp
    obtain ⟨j, hj⟩ := List.getElem?_of_mem hm
    have hsorted : ParentsFirst (·.id) g.nodes := by
      have hfirst := h.first
      rwa [← h.ids, parentsFirst_map] at hfirst
    exact ⟨j, m, hsorted.lt_of_isAncestorOf hj hk hpn, hj, rfl⟩
  children n hn := by
    rw [h.children n hn, childrenIn, ← h.ids, List.filter_map, h.ids]
    refine congrArg _ (List.filter_congr fun c hc => ?_)
    rw [Function.comp_apply, h.parent c hc]
  level n hn := by
    rw [h.level n hn, levelIn_eq_countP h.nodup, ← h.ids, List.countP_map]
    rfl
  level_root n hn hparent := by
    rw [h.level n hn, levelIn_of_parentIn_eq_none ((h.parent n hn).symm.trans hparent)]
  level_child n hn m hm hparent := by
    rw [h.level n hn, h.level m hm,
      levelIn_of_parentIn_eq_some ((h.parent n hn).symm.trans hparent)]
  depth_leaf n hn hleaf := by
    rw [h.children n hn] at hleaf
    rw [h.depth n hn, heightIn_eq (h.id_mem hn), hleaf]
    rfl
  depth_inner n hn hne :=
    ⟨h.exists_deepest hn hne, fun c hc hparent => h.depth_lt_of_parent hc hn hparent⟩

end NestsBy

/-- However a view was numbered, the nodes of its graph are a forest. -/
theorem isForest_of_draw {model : Model} {options : Options} {v : View} {g : Graph}
    (h : v.draw model options = .ok g) : g.IsForest := by
  obtain ⟨selected, l, nodes, hsel, _, hnodes, rfl⟩ := View.draw_eq_ok_iff.mp h
  exact (nestsBy_graphOf hsel hnodes l).isForest

theorem isForest_of_draw_checkout :
    ∃ g, checkoutView.draw checkoutModel { branchAware := true } = .ok g ∧ g.IsForest := by
  obtain ⟨g, hg, _⟩ := exists_draw_checkout
  exact ⟨g, hg, isForest_of_draw hg⟩

end StepGraph
