import StepGraph.Proofs.Graph.EdgeIds
import StepGraph.Proofs.Graph.Nodes
import StepGraph.Proofs.Name.Hierarchy

/-!
Which edges a node notes. The parent of an edge is found on the way up from the common ancestor of
its ends, and the edge is noted on the way from each end up to the parent. Of the nodes in the view
these are the end and the nodes around it that do not hold the other end, whichever names between
them are missing from the view.
-/
set_option autoImplicit false

namespace StepGraph

theorem isRising_cons_ancestors (n : Name) : Name.IsRising (n :: n.ancestors) :=
  List.pairwise_cons.mpr ⟨fun _ ha => Name.mem_ancestors.mp ha, Name.isRising_ancestors n⟩

theorem mem_cons_ancestors {a n : Name} :
    a ∈ n :: n.ancestors ↔ a.isSameOrAncestorOf n = true := by
  rw [List.mem_cons, Name.mem_ancestors, Name.isSameOrAncestorOf_iff]

section

variable {order : List Name} {source target n p : Name}

theorem edgeParent_eq_some_iff : edgeParent order source target = some p ↔
    p ∈ order ∧ p.isAncestorOf source = true ∧ p.isAncestorOf target = true ∧
      ∀ q ∈ order, q.isAncestorOf source = true → q.isAncestorOf target = true →
        q.isSameOrAncestorOf p = true := by
  rw [edgeParent, Option.bind_eq_some_iff]
  constructor
  · intro h
    obtain ⟨c, hc, hp⟩ := h
    obtain ⟨hpc, hpo, hq⟩ := (isRising_cons_ancestors c).find?_eq_some_iff.mp hp
    have hboth := Name.isAncestorOf_both_iff.mpr ⟨c, hc, mem_cons_ancestors.mp hpc⟩
    refine ⟨by simpa using hpo, hboth.1, hboth.2, fun q hqo hqs hqt => ?_⟩
    obtain ⟨d, hd, hqd⟩ := Name.isAncestorOf_both_iff.mp ⟨hqs, hqt⟩
    cases hc.symm.trans hd
    exact hq q (mem_cons_ancestors.mpr hqd) (by simpa using hqo)
  · intro h
    obtain ⟨hpo, hps, hpt, hq⟩ := h
    obtain ⟨c, hc, hpc⟩ := Name.isAncestorOf_both_iff.mp ⟨hps, hpt⟩
    refine ⟨c, hc, (isRising_cons_ancestors c).find?_eq_some_iff.mpr
      ⟨mem_cons_ancestors.mpr hpc, by simpa using hpo, fun q hqc hqo => ?_⟩⟩
    have hboth := Name.isAncestorOf_both_iff.mpr ⟨c, hc, mem_cons_ancestors.mp hqc⟩
    exact hq q (by simpa using hqo) hboth.1 hboth.2

theorem exists_edgeParent (hn : n ∈ order) (hs : n.isAncestorOf source = true)
    (ht : n.isAncestorOf target = true) :
    ∃ p, edgeParent order source target = some p ∧ n.isSameOrAncestorOf p = true := by
  obtain ⟨c, hc, hnc⟩ := Name.isAncestorOf_both_iff.mp ⟨hs, ht⟩
  obtain ⟨p, hp⟩ : ∃ p, climbTo order c = some p := by
    rw [← Option.isSome_iff_exists, climbTo, List.find?_isSome]
    exact ⟨n, mem_cons_ancestors.mpr hnc, by simpa using hn⟩
  have he : edgeParent order source target = some p := by rw [edgeParent, hc, Option.bind_some, hp]
  exact ⟨p, he, (edgeParent_eq_some_iff.mp he).2.2.2 n hn hs ht⟩

theorem findsDeepest_edgeParent (order : List Name) (source target : Name) :
    Name.FindsDeepest (fun n => n ∈ order ∧ Name.IsAroundBoth source target n)
      (edgeParent order source target) := by
  refine Name.findsDeepest_of_same_or (fun p hp => ?_) fun hnone h => ?_
  · obtain ⟨hpo, hps, hpt, hq⟩ := edgeParent_eq_some_iff.mp hp
    exact ⟨⟨hpo, hps, hpt⟩, fun q ⟨hqo, hqs, hqt⟩ => hq q hqo hqs hqt⟩
  · obtain ⟨n, hn, hs, ht⟩ := h
    obtain ⟨p, hp, _⟩ := exists_edgeParent hn hs ht
    simp [hnone] at hp

theorem edgeParent_ne_source (order : List Name) (source target : Name) :
    edgeParent order source target ≠ some source := by
  intro h
  have hsource := (edgeParent_eq_some_iff.mp h).2.1
  simp at hsource

theorem edgeParent_comm (order : List Name) (source target : Name) :
    edgeParent order source target = edgeParent order target source := by
  refine Option.ext fun p => ?_
  rw [edgeParent_eq_some_iff, edgeParent_eq_some_iff]
  constructor
  · intro h
    obtain ⟨hpo, hps, hpt, hq⟩ := h
    exact ⟨hpo, hpt, hps, fun q hqo hqt hqs => hq q hqo hqs hqt⟩
  · intro h
    obtain ⟨hpo, hpt, hps, hq⟩ := h
    exact ⟨hpo, hps, hpt, fun q hqo hqs hqt => hq q hqo hqt hqs⟩

theorem edgeParent_ne_target (order : List Name) (source target : Name) :
    edgeParent order source target ≠ some target := by
  rw [edgeParent_comm]
  exact edgeParent_ne_source order target source

theorem mem_upTo_edgeParent (hn : n ∈ order) : n ∈ upTo (edgeParent order source target) source ↔
    n = source ∨ n.isAncestorOf source = true ∧ n.isAncestorOf target = false := by
  rw [upTo, List.mem_cons, (Name.isRising_ancestors source).mem_takeWhile, Name.mem_ancestors]
  refine or_congr_right (and_congr_right fun hns => ?_)
  simp only [Name.mem_ancestors, bne_iff_ne]
  constructor
  · intro hbelow
    cases hnt : n.isAncestorOf target with
    | false => rfl
    | true =>
      obtain ⟨p, hp, hnp⟩ := exists_edgeParent hn hns hnt
      exact absurd hp.symm (hbelow p (edgeParent_eq_some_iff.mp hp).2.1 hnp)
  · intro hnt q _ hnq hq
    have hqt := (edgeParent_eq_some_iff.mp hq.symm).2.2.1
    simp [Name.isAncestorOf_of_same_or hnq hqt] at hnt

end

/-- The edge starts at `n`, or it starts inside `n` and does not end there. -/
def Edge.goesOutOf (e : Edge) (n : Name) : Bool :=
  n == e.source || (n.isAncestorOf e.source && !n.isAncestorOf e.target)

def Edge.comesInto (e : Edge) (n : Name) : Bool :=
  n == e.target || (n.isAncestorOf e.target && !n.isAncestorOf e.source)

section

variable {model : Model} {options : Options} {v : View} {g : Graph}

theorem leaves_edgeOf {theme : Theme} {order : List Name} {n : Name} (hn : n ∈ order)
    (p : Placed Resolved) :
    (edgeOf theme order p).leaves n = (edgeOf theme order p).goesOutOf n := by
  rw [Bool.eq_iff_iff, Edge.leaves, List.contains_iff_mem]
  refine (mem_upTo_edgeParent hn).trans ?_
  simp [Edge.goesOutOf, edgeOf]

theorem enters_edgeOf {theme : Theme} {order : List Name} {n : Name} (hn : n ∈ order)
    (p : Placed Resolved) :
    (edgeOf theme order p).enters n = (edgeOf theme order p).comesInto n := by
  rw [Bool.eq_iff_iff, Edge.enters, List.contains_iff_mem]
  simp only [edgeOf]
  rw [edgeParent_comm, mem_upTo_edgeParent hn]
  simp [Edge.comesInto]

theorem noted_of_draw (h : v.draw model options = .ok g) {n : Node} (hn : n ∈ g.nodes) :
    n.outEdges = (g.edges.filter (·.goesOutOf n.id)).map (·.id) ∧
      n.inEdges = (g.edges.filter (·.comesInto n.id)).map (·.id) := by
  obtain ⟨selected, l, nodes, _, _, hnodes, rfl⟩ := View.draw_eq_ok_iff.mp h
  obtain ⟨m, hm, rfl⟩ := List.mem_map.mp hn
  have ho : m.id ∈ (v.rosterOf model selected).order := by
    rw [← id_nodesOf hnodes]
    exact List.mem_map_of_mem hm
  constructor
  · refine congrArg _ (List.filter_congr fun e he => ?_)
    obtain ⟨p, _, rfl⟩ := List.mem_map.mp he
    exact leaves_edgeOf ho p
  · refine congrArg _ (List.filter_congr fun e he => ?_)
    obtain ⟨p, _, rfl⟩ := List.mem_map.mp he
    exact enters_edgeOf ho p

theorem mem_map_id_filter (h : v.draw model options = .ok g) {f : Edge → Bool} {e : Edge}
    (he : e ∈ g.edges) : e.id ∈ (g.edges.filter f).map (·.id) ↔ f e = true := by
  rw [List.mem_map]
  constructor
  · intro h
    obtain ⟨d, hd, hid⟩ := h
    obtain ⟨hdg, hfd⟩ := List.mem_filter.mp hd
    rwa [← List.inj_on_of_nodup_map (nodup_ids_of_draw h) hdg he hid]
  · intro hf
    exact ⟨e, List.mem_filter.mpr ⟨he, hf⟩, rfl⟩

/-- A node notes, each once and in their order, the edges that cross its border or end at it; what
runs inside of it is not noted. -/
theorem node_edges_of_draw (h : v.draw model options = .ok g) {n : Node} (hn : n ∈ g.nodes) :
    n.outEdges = (g.edges.filter (·.goesOutOf n.id)).map (·.id) ∧ n.outEdges.Nodup ∧
    n.inEdges = (g.edges.filter (·.comesInto n.id)).map (·.id) ∧ n.inEdges.Nodup ∧
    ∀ e ∈ g.edges, n.id.isAncestorOf e.source = true → n.id.isAncestorOf e.target = true →
      e.id ∉ n.outEdges ∧ e.id ∉ n.inEdges := by
  have hids := nodup_ids_of_draw h
  obtain ⟨hout, hin⟩ := noted_of_draw h hn
  refine ⟨hout, ?_, hin, ?_, fun e he hs ht => ⟨?_, ?_⟩⟩
  · rw [hout]
    exact hids.sublist (List.filter_sublist.map _)
  · rw [hin]
    exact hids.sublist (List.filter_sublist.map _)
  · rw [hout, mem_map_id_filter h he]
    simp [Edge.goesOutOf, Name.ne_of_isAncestorOf hs, hs, ht]
  · rw [hin, mem_map_id_filter h he]
    simp [Edge.comesInto, Name.ne_of_isAncestorOf ht, hs, ht]

end

theorem node_edges_of_draw_checkout :
    ∃ g, checkoutView.draw checkoutModel { branchAware := true } = .ok g ∧
      ∃ n ∈ g.nodes, n.id = ⟨"shop"⟩ ∧
        n.outEdges = (g.edges.filter (·.goesOutOf n.id)).map (·.id) ∧ n.outEdges.Nodup ∧
        n.inEdges = (g.edges.filter (·.comesInto n.id)).map (·.id) ∧ n.inEdges.Nodup ∧
        ∀ e ∈ g.edges, n.id.isAncestorOf e.source = true → n.id.isAncestorOf e.target = true →
          e.id ∉ n.outEdges ∧ e.id ∉ n.inEdges := by
  obtain ⟨g, hg, hfirst⟩ : ∃ g, checkoutView.draw checkoutModel { branchAware := true } = .ok g ∧
      g.nodes.head?.map (·.id) = some ⟨"shop"⟩ := exists_ok_of_map_toOption (by decide +kernel)
  obtain ⟨n, hn, hid⟩ := Option.map_eq_some_iff.mp hfirst
  have hmem := List.mem_of_head? hn
  exact ⟨g, hg, n, hmem, hid, node_edges_of_draw hg hmem⟩

def Graph.Encloses (g : Graph) (e : Edge) (n : Name) : Prop :=
  (∃ m ∈ g.nodes, m.id = n) ∧ Name.IsAroundBoth e.source e.target n

theorem encloses_graphOf {theme : Theme} {v : View} {order : List Name} {nodes : List Node}
    {l : Layered} (hids : nodes.map (·.id) = order) (e : Edge) :
    (v.graphOf theme order nodes l).Encloses e =
      fun n => n ∈ order ∧ Name.IsAroundBoth e.source e.target n := by
  funext n
  rw [Graph.Encloses, ← List.mem_map, ids_graphOf, hids]

/-- The parent of an edge is the deepest node around both of its ends; where no node is, the edge has
no parent. An end is never the parent, even if the other one lies inside of it. -/
theorem parent_of_draw {model : Model} {options : Options} {v : View} {g : Graph}
    (h : v.draw model options = .ok g) {e : Edge} (he : e ∈ g.edges) :
    Name.FindsDeepest (g.Encloses e) e.parent ∧
    e.parent ≠ some e.source ∧ e.parent ≠ some e.target := by
  obtain ⟨selected, l, nodes, _, _, hnodes, rfl⟩ := View.draw_eq_ok_iff.mp h
  rw [encloses_graphOf (id_nodesOf hnodes)]
  obtain ⟨p, _, rfl⟩ := List.mem_map.mp he
  refine ⟨?_, ?_, ?_⟩
  · exact findsDeepest_edgeParent _ p.content.source p.content.target
  · exact edgeParent_ne_source _ p.content.source p.content.target
  · exact edgeParent_ne_target _ p.content.source p.content.target

/-- The container right around the store is missing from the view. -/
def restockView : View where
  id := "restock"
  rules := [.including ["shop"]]
  steps := [.single (checkoutCall "shop.cart.store" "shop.cart.store"),
    .single (checkoutCall "bank" "shop.web")]

theorem parent_of_draw_restock :
    ∃ g, restockView.draw checkoutModel {} = .ok g ∧ ∃ e ∈ g.edges,
      e.source = ⟨"shop.cart.store"⟩ ∧ e.parent = some ⟨"shop"⟩ ∧
      Name.FindsDeepest (g.Encloses e) e.parent ∧
      e.parent ≠ some e.source ∧ e.parent ≠ some e.target := by
  obtain ⟨g, hg, hfirst⟩ : ∃ g, restockView.draw checkoutModel {} = .ok g ∧
      g.edges.head?.map (fun e => (e.source, e.parent)) =
        some (⟨"shop.cart.store"⟩, some ⟨"shop"⟩) := exists_ok_of_map_toOption (by decide +kernel)
  obtain ⟨e, he, hends⟩ := Option.map_eq_some_iff.mp hfirst
  obtain ⟨hsource, hparent⟩ := Prod.mk.inj hends
  have hmem := List.mem_of_head? he
  exact ⟨g, hg, e, hmem, hsource, hparent, parent_of_draw hg hmem⟩

end StepGraph
