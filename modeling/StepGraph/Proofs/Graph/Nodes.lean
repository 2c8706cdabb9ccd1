import StepGraph.Proofs.Graph.Settling
import StepGraph.Proofs.Outcome
import StepGraph.Proofs.Roster

/-!
What the nodes of a view take from its roster. Their places in the tree depend on which elements are
enrolled; the order of these decides in which order nodes, and those inside a node, are listed.
-/
set_option autoImplicit false

namespace StepGraph

section

variable {order others : List Name}

theorem contains_perm (h : order.Perm others) : order.contains = others.contains :=
  funext fun _ => h.contains_eq

theorem parentIn_perm (h : order.Perm others) : parentIn order = parentIn others := by
  funext n
  rw [parentIn, parentIn, contains_perm h]

theorem levelIn_perm (h : order.Perm others) : levelIn order = levelIn others := by
  funext n
  rw [levelIn, levelIn, contains_perm h]

theorem childrenIn_perm (h : order.Perm others) (n : Name) :
    (childrenIn order n).Perm (childrenIn others n) := by
  rw [childrenIn, childrenIn, parentIn_perm h]
  exact h.filter _

theorem heightIn_perm (h : order.Perm others) : heightIn order = heightIn others := by
  funext n
  rw [heightIn, heightIn, levelIn_perm h]
  exact ((h.filter _).map _).foldr_eq 0

end

/-- The same node; those inside it may be listed in another order. -/
structure Node.Agrees (n m : Node) : Prop where
  children : n.children.Perm m.children
  rest : m = { n with children := m.children }

theorem nodeOf_agrees {r q : Roster} (horder : r.order.Perm q.order)
    (hcompounds : ∀ n, n ∈ r.compounds ↔ n ∈ q.compounds) (theme : Theme)
    (styles : List StyleMatch) (e : Element) (n : Name) :
    ((nodeOf theme styles r e n).settledIn r.order).Agrees
      ((nodeOf theme styles q e n).settledIn q.order) where
  children := childrenIn_perm horder n
  rest := by
    have hc : r.compounds.contains n = q.compounds.contains n := by
      rw [Bool.eq_iff_iff, List.contains_iff_mem, List.contains_iff_mem, hcompounds]
    simp only [nodeOf, Node.settledIn, parentIn_perm horder, levelIn_perm horder,
      heightIn_perm horder, hc]

section

variable {model : Model} {roster : Roster} {rules : List Rule} {theme : Theme} {nodes : List Node}

theorem nodesOf_eq_ok_iff : nodesOf model roster rules theme = .ok nodes ↔
    ∃ styles, styleMatches rules = .ok styles ∧ ∃ alone, List.Forall₂ (fun n node =>
      ∃ e, model.element? n = some e ∧ node = nodeOf theme styles roster e n)
      roster.order alone ∧ settle alone = nodes := by
  simp only [nodesOf, bind_eq_ok_iff, pure_eq_ok_iff, mapM_eq_ok_iff]
  refine exists_congr fun styles => and_congr_right fun _ => exists_congr fun alone =>
    and_congr_left fun _ => iff_of_eq ?_
  refine congrArg (List.Forall₂ · roster.order alone) ?_
  funext n node
  cases model.element? n <;> simp [eq_comm]

theorem areAlone_nodeOf {styles : List StyleMatch} (h : List.Forall₂ (fun n node =>
      ∃ e, model.element? n = some e ∧ node = nodeOf theme styles roster e n) roster.order nodes) :
    AreAlone roster.order nodes := by
  have hall : ∀ node ∈ nodes, ∃ n e, node = nodeOf theme styles roster e n := by
    intro node hnode
    obtain ⟨n, _, e, _, he⟩ := exists_of_mem_right h hnode
    exact ⟨n, e, he⟩
  refine ⟨?_, fun node hnode => ?_, fun node hnode => ?_⟩
  · rw [← List.map_id roster.order]
    refine (map_eq_map_of_forall₂ h fun n node hnode => ?_).symm
    obtain ⟨e, _, rfl⟩ := hnode
    rfl
  · obtain ⟨n, e, rfl⟩ := hall node hnode
    rfl
  · obtain ⟨n, e, rfl⟩ := hall node hnode
    exact ⟨rfl, rfl⟩

theorem id_nodesOf (h : nodesOf model roster rules theme = .ok nodes) :
    nodes.map (·.id) = roster.order := by
  obtain ⟨styles, _, alone, halone, rfl⟩ := nodesOf_eq_ok_iff.mp h
  rw [map_id_settle, (areAlone_nodeOf halone).ids]

/-- The nodes are those of the elements on the roster, each with what lies inside. -/
theorem eq_nodeOf_of_mem (hfirst : ParentsFirst id roster.order) {styles : List StyleMatch}
    (hstyles : styleMatches rules = .ok styles)
    (h : nodesOf model roster rules theme = .ok nodes) {n : Node} (hn : n ∈ nodes) :
    ∃ e, model.element? n.id = some e ∧
      n = (nodeOf theme styles roster e n.id).settledIn roster.order := by
  obtain ⟨_, hs, alone, halone, rfl⟩ := nodesOf_eq_ok_iff.mp h
  cases hs.symm.trans hstyles
  rw [(areAlone_nodeOf halone).settle_eq hfirst] at hn
  obtain ⟨m, hm, rfl⟩ := List.mem_map.mp hn
  obtain ⟨name, _, e, he, rfl⟩ := exists_of_mem_right halone hm
  exact ⟨e, he, rfl⟩

/-- Nodes of enrolled elements can only fail by a style that cannot be read. -/
theorem faultOf_nodesOf (h : model.Enrols roster.order) (rules : List Rule) (theme : Theme) :
    faultOf (nodesOf model roster rules theme) = faultOf (styleMatches rules) := by
  cases hs : styleMatches rules with
  | error fault =>
    rw [nodesOf, hs]
    rfl
  | ok styles =>
    have hall : ∀ n ∈ roster.order, ∃ node, ∃ e, model.element? n = some e ∧
        node = nodeOf theme styles roster e n := by
      intro n hn
      have hsome := h.contains n hn
      rw [← model.isSome_element?, Option.isSome_iff_exists] at hsome
      obtain ⟨e, he⟩ := hsome
      exact ⟨_, e, he, rfl⟩
    obtain ⟨alone, halone⟩ := exists_forall₂_iff.mpr hall
    rw [nodesOf_eq_ok_iff.mpr ⟨styles, hs, alone, halone, rfl⟩]
    rfl

theorem nodesOf_agree {r q : Roster} (hr : ParentsFirst id r.order) (hq : ParentsFirst id q.order)
    (horder : r.order.Perm q.order) (hcompounds : ∀ n, n ∈ r.compounds ↔ n ∈ q.compounds)
    {others : List Node} (h : nodesOf model r rules theme = .ok nodes)
    (ho : nodesOf model q rules theme = .ok others) :
    ∀ n ∈ nodes, ∀ m ∈ others, n.id = m.id → n.Agrees m := by
  intro n hn m hm hid
  obtain ⟨styles, hstyles, _⟩ := nodesOf_eq_ok_iff.mp h
  obtain ⟨e, he, heq⟩ := eq_nodeOf_of_mem hr hstyles h hn
  obtain ⟨d, hd, hdeq⟩ := eq_nodeOf_of_mem hq hstyles ho hm
  rw [hid] at he heq
  cases he.symm.trans hd
  rw [heq, hdeq]
  exact nodeOf_agrees horder hcompounds theme styles e m.id

end

end StepGraph
