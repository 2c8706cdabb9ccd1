import Mathlib.Data.List.MinMax
import Mathlib.Order.Nat
import StepGraph.Graph.Nodes
import StepGraph.Proofs.Name.Ancestry
import StepGraph.Proofs.Name.ParentsFirst

/-!
The tree that a roster makes of its elements. Levels are counted down from the roots; heights follow
from the levels of what lies inside, and they obey the rule by which depths are settled: a node
reaches one level further down than the deepest node it takes in. So entering the nodes backward in
their parents gives every node all its children, in order, and its height.
-/
set_option autoImplicit false

namespace StepGraph

theorem Name.ancestors_of_split {n p : Name} {inner outer : List Name}
    (h : n.ancestors = inner ++ p :: outer) : outer = p.ancestors := by
  induction inner generalizing n with
  | nil =>
    cases hn : n.parent with
    | none => simp [Name.ancestors_of_parent_eq_none hn] at h
    | some q =>
      rw [Name.ancestors_of_parent_eq_some hn, List.nil_append, List.cons.injEq] at h
      rw [← h.2, h.1]
  | cons a inner ih =>
    cases hn : n.parent with
    | none => simp [Name.ancestors_of_parent_eq_none hn] at h
    | some q =>
      rw [Name.ancestors_of_parent_eq_some hn, List.cons_append, List.cons.injEq] at h
      exact ih h.2

section

variable {order : List Name} {n p d : Name}

theorem parentIn_eq_some_iff : parentIn order n = some p ↔
    p ∈ order ∧ p.isAncestorOf n = true ∧
      ∀ q ∈ order, q.isAncestorOf n = true → q.isSameOrAncestorOf p = true := by
  rw [parentIn, (Name.isRising_ancestors n).find?_eq_some_iff]
  simp only [Name.mem_ancestors, List.contains_iff_mem]
  constructor
  · rintro ⟨hpn, hp, hq⟩
    exact ⟨hp, hpn, fun q hqo hqn => hq q hqn hqo⟩
  · rintro ⟨hp, hpn, hq⟩
    exact ⟨hpn, hp, fun q hqn hqo => hq q hqo hqn⟩

theorem parentIn_eq_none_iff :
    parentIn order n = none ↔ ∀ q ∈ order, q.isAncestorOf n = false := by
  rw [parentIn, List.find?_eq_none]
  simp only [Name.mem_ancestors, List.contains_iff_mem]
  constructor
  · intro h q hqo
    by_contra hqn
    exact h q (by simpa using hqn) hqo
  · intro h q hqn hqo
    simp [h q hqo] at hqn

theorem levelIn_of_parentIn_eq_none (h : parentIn order n = none) : levelIn order n = 0 := by
  rw [levelIn, List.countP_eq_zero]
  exact List.find?_eq_none.mp h

theorem levelIn_of_parentIn_eq_some (h : parentIn order n = some p) :
    levelIn order n = levelIn order p + 1 := by
  obtain ⟨hp, inner, outer, hsplit, hinner⟩ := List.find?_eq_some_iff_append.mp h
  have houter := Name.ancestors_of_split hsplit
  have hzero : inner.countP order.contains = 0 := by
    rw [List.countP_eq_zero]
    intro a ha
    simpa using hinner a ha
  rw [levelIn, hsplit, List.countP_append, hzero, List.countP_cons_of_pos hp, houter, levelIn]
  omega

theorem levelIn_eq_countP (h : order.Nodup) (n : Name) :
    levelIn order n = order.countP (·.isAncestorOf n) := by
  rw [levelIn, List.countP_eq_length_filter, List.countP_eq_length_filter]
  refine List.Perm.length_eq ?_
  rw [List.perm_ext_iff_of_nodup (n.nodup_ancestors.filter _) (h.filter _)]
  intro a
  simp only [List.mem_filter, Name.mem_ancestors, List.contains_iff_mem, and_comm]

/-- On the way up from `d` to `n` there is a node that `n` takes in. -/
theorem exists_child (hn : n ∈ order) (hd : d ∈ order) (h : n.isAncestorOf d = true) :
    ∃ c ∈ order, parentIn order c = some n ∧ c.isSameOrAncestorOf d = true := by
  generalize hk : d.chars.length = k
  induction k using Nat.strongRecOn generalizing d with
  | ind k ih =>
    cases hp : parentIn order d with
    | none =>
      have hnone := parentIn_eq_none_iff.mp hp n hn
      simp [h] at hnone
    | some p =>
      obtain ⟨hpo, hpd, hnearest⟩ := parentIn_eq_some_iff.mp hp
      rcases Name.isSameOrAncestorOf_iff.mp (hnearest n hn h) with rfl | hnp
      · exact ⟨d, hd, hp, Name.isSameOrAncestorOf_iff.mpr (.inl rfl)⟩
      · have hshorter := Name.length_lt_of_isAncestorOf hpd
        obtain ⟨c, hco, hcn, hcp⟩ := ih _ (by omega) hpo hnp rfl
        have hcd := Name.isAncestorOf_of_same_or hcp hpd
        exact ⟨c, hco, hcn, Name.isSameOrAncestorOf_iff.mpr (.inr hcd)⟩

def childrenIn (order : List Name) (n : Name) : List Name :=
  order.filter fun c => parentIn order c == some n

def heightIn (order : List Name) (n : Name) : Nat :=
  ((order.filter n.isAncestorOf).map fun d => levelIn order d - levelIn order n).foldr max 0

theorem mem_childrenIn {c : Name} :
    c ∈ childrenIn order n ↔ c ∈ order ∧ parentIn order c = some n := by
  simp [childrenIn]

theorem le_heightIn (hd : d ∈ order) (h : n.isAncestorOf d = true) :
    levelIn order d - levelIn order n ≤ heightIn order n :=
  List.le_max_of_le' 0 (List.mem_map.mpr ⟨d, List.mem_filter.mpr ⟨hd, h⟩, rfl⟩) (Nat.le_refl _)

theorem heightIn_le {k : Nat}
    (h : ∀ d ∈ order, n.isAncestorOf d = true → levelIn order d - levelIn order n ≤ k) :
    heightIn order n ≤ k := by
  refine List.max_le_of_forall_le _ k (List.forall_mem_map.mpr fun d hd => ?_)
  obtain ⟨hdo, hnd⟩ := List.mem_filter.mp hd
  exact h d hdo hnd

theorem heightIn_lt_of_parentIn {c : Name} (hc : c ∈ order) (h : parentIn order c = some n) :
    heightIn order c < heightIn order n := by
  have hlevel := levelIn_of_parentIn_eq_some h
  have hnc := (parentIn_eq_some_iff.mp h).2.1
  have hone := le_heightIn hc hnc
  have hinner : heightIn order c ≤ heightIn order n - 1 := by
    refine heightIn_le fun d hd hcd => ?_
    have hle := le_heightIn hd (Name.isAncestorOf_trans hnc hcd)
    omega
  omega

/-- A node reaches one level further down than the deepest of its children. -/
theorem heightIn_eq (hn : n ∈ order) : heightIn order n =
    ((childrenIn order n).map fun c => heightIn order c + 1).foldr max 0 := by
  refine Nat.le_antisymm (heightIn_le fun d hd hnd => ?_) ?_
  · obtain ⟨c, hco, hcn, hcd⟩ := exists_child hn hd hnd
    have hlevel := levelIn_of_parentIn_eq_some hcn
    have hchild : heightIn order c + 1 ∈ (childrenIn order n).map fun c => heightIn order c + 1 :=
      List.mem_map_of_mem (mem_childrenIn.mpr ⟨hco, hcn⟩)
    refine List.le_max_of_le' 0 hchild ?_
    rcases Name.isSameOrAncestorOf_iff.mp hcd with rfl | hcd
    · omega
    · have hle := le_heightIn hd hcd
      omega
  · refine List.max_le_of_forall_le _ _ (List.forall_mem_map.mpr fun c hc => ?_)
    obtain ⟨hco, hcn⟩ := mem_childrenIn.mp hc
    exact heightIn_lt_of_parentIn hco hcn

end

theorem map_id_settleAt (k : Nat) (nodes : List Node) :
    (settleAt k nodes).map (·.id) = nodes.map (·.id) := by
  unfold settleAt
  split
  · rw [List.map_map]
    refine List.map_congr_left fun n _ => ?_
    rw [Function.comp_apply, apply_ite Node.id]
    exact ite_self n.id
  · rfl

theorem map_id_settle (nodes : List Node) : (settle nodes).map (·.id) = nodes.map (·.id) := by
  rw [settle]
  induction List.range nodes.length with
  | nil => rfl
  | cons k ks ih => rw [List.foldr_cons, map_id_settleAt, ih]

/-- Nodes listed as `order`, which know their parents but nothing of what lies inside. -/
structure AreAlone (order : List Name) (nodes : List Node) : Prop where
  ids : nodes.map (·.id) = order
  parent : ∀ n ∈ nodes, n.parent = parentIn order n.id
  alone : ∀ n ∈ nodes, n.children = [] ∧ n.depth = 0

def Node.enteredBy (order : List Name) (done : List Node) (n : Node) : Node :=
  { n with
    children := (done.filter (·.parent == some n.id)).map (·.id)
    depth := ((done.filter (·.parent == some n.id)).map fun c =>
      heightIn order c.id + 1).foldr max 0 }

def Node.settledIn (order : List Name) (n : Node) : Node :=
  { n with children := childrenIn order n.id, depth := heightIn order n.id }

theorem Node.enteredBy_cons (order : List Name) (c : Node) (done : List Node) (n : Node) :
    n.enteredBy order (c :: done) = if c.parent == some n.id
      then (c.settledIn order).adopt (n.enteredBy order done) else n.enteredBy order done := by
  by_cases h : (c.parent == some n.id) = true
  · simp only [enteredBy, List.filter_cons, if_pos h, List.map_cons, List.foldr_cons, adopt,
      settledIn, Nat.max_comm]
  · simp only [enteredBy, List.filter_cons, if_neg h]

namespace AreAlone

variable {order : List Name} {nodes : List Node}

theorem childrenIn_eq (h : AreAlone order nodes) (n : Name) :
    childrenIn order n = (nodes.filter (·.parent == some n)).map (·.id) := by
  have hparent : nodes.filter (fun c => parentIn order c.id == some n) =
      nodes.filter (·.parent == some n) :=
    List.filter_congr fun c hc => by rw [h.parent c hc]
  rw [← hparent, childrenIn]
  conv => lhs; rw [← h.ids, List.filter_map]
  rw [h.ids]
  rfl

theorem enteredBy_all (h : AreAlone order nodes) {n : Node} (hn : n ∈ nodes) :
    n.enteredBy order nodes = n.settledIn order := by
  have hmem : n.id ∈ order := h.ids ▸ List.mem_map_of_mem hn
  have hheight := heightIn_eq hmem
  rw [h.childrenIn_eq, List.map_map] at hheight
  rw [Node.enteredBy, Node.settledIn, h.childrenIn_eq, hheight]
  rfl

theorem enteredBy_nil (h : AreAlone order nodes) : nodes.map (·.enteredBy order []) = nodes := by
  refine (List.map_congr_left fun n hn => ?_).trans (List.map_id nodes)
  obtain ⟨hchildren, hdepth⟩ := h.alone n hn
  simp [Node.enteredBy, ← hchildren, ← hdepth]

/-- What a node takes in stands after it. -/
theorem filter_drop (h : AreAlone order nodes) (hfirst : ParentsFirst id order) {k : Nat} {c : Node}
    (hc : nodes[k]? = some c) : (nodes.drop (k + 1)).filter (·.parent == some c.id) =
      nodes.filter (·.parent == some c.id) := by
  have hbefore : (nodes.take (k + 1)).filter (·.parent == some c.id) = [] := by
    have hsorted : ParentsFirst (·.id) nodes := by
      rwa [← h.ids, parentsFirst_map] at hfirst
    refine List.filter_eq_nil_iff.mpr fun m hm hparent => ?_
    rw [beq_iff_eq, h.parent m (List.mem_of_mem_take hm)] at hparent
    obtain ⟨j, hj, hmj⟩ := List.mem_take_iff_getElem.mp hm
    have hmj : nodes[j]? = some m := List.getElem?_eq_some_iff.mpr ⟨by omega, hmj⟩
    have hlt := hsorted.lt_of_isAncestorOf hc hmj (parentIn_eq_some_iff.mp hparent).2.1
    omega
  conv => rhs; rw [← List.take_append_drop (k + 1) nodes, List.filter_append, hbefore]
  rfl

theorem settleAt_enteredBy (h : AreAlone order nodes) (hfirst : ParentsFirst id order) {k : Nat}
    (hk : k < nodes.length) :
    settleAt k (nodes.map (·.enteredBy order (nodes.drop (k + 1)))) =
      nodes.map (·.enteredBy order (nodes.drop k)) := by
  have hget : nodes[k]? = some nodes[k] := List.getElem?_eq_getElem hk
  have hwhole : nodes[k].enteredBy order (nodes.drop (k + 1)) = nodes[k].settledIn order := by
    rw [← h.enteredBy_all (List.getElem_mem hk), Node.enteredBy, h.filter_drop hfirst hget]
    rfl
  simp only [settleAt, List.getElem?_map, hget, Option.map_some, hwhole, List.map_map]
  refine List.map_congr_left fun n _ => ?_
  rw [List.drop_eq_getElem_cons hk, Node.enteredBy_cons]
  rfl

/-- The nodes settled backward have their children and their heights. -/
theorem settle_eq (h : AreAlone order nodes) (hfirst : ParentsFirst id order) :
    settle nodes = nodes.map (·.settledIn order) := by
  have hback : ∀ k ≤ nodes.length,
      (List.range k).foldr settleAt (nodes.map (·.enteredBy order (nodes.drop k))) =
        nodes.map (·.enteredBy order nodes) := by
    intro k hk
    induction k with
    | zero => rfl
    | succ k ih =>
      rw [List.range_succ, List.foldr_append, List.foldr_cons, List.foldr_nil,
        h.settleAt_enteredBy hfirst hk, ih (by omega)]
  have hall := hback nodes.length (Nat.le_refl _)
  rw [List.drop_length, h.enteredBy_nil] at hall
  rw [settle, hall]
  exact List.map_congr_left fun n hn => h.enteredBy_all hn

end AreAlone

end StepGraph
