import StepGraph.Name.ParentsFirst
import StepGraph.Proofs.Name.Ancestry

/-! Items listed parents first: whatever the list was, no item stands before an ancestor of it. -/
set_option autoImplicit false

namespace StepGraph

theorem Name.depth_lt_of_isAncestorOf {a b : Name} (h : a.isAncestorOf b = true) :
    a.depth < b.depth := by
  have hcount := (isAncestorOf_iff.mp h).sublist.countP_le (p := isDot)
  rw [List.countP_append, show ['.'].countP isDot = 1 from rfl] at hcount
  exact hcount

variable {α : Type} {name : α → Name}

theorem depth_le_trans (name : α → Name) (b c d : α)
    (hbc : decide ((name b).depth ≤ (name c).depth) = true)
    (hcd : decide ((name c).depth ≤ (name d).depth) = true) :
    decide ((name b).depth ≤ (name d).depth) = true := by
  rw [decide_eq_true_iff] at *
  omega

theorem depth_le_total (name : α → Name) (b c : α) :
    (decide ((name b).depth ≤ (name c).depth) ||
      decide ((name c).depth ≤ (name b).depth)) = true := by
  simp only [Bool.or_eq_true, decide_eq_true_iff]
  omega

theorem pairwise_above (a : α) (items : List α) :
    (above name a items).Pairwise fun b c => (name b).depth ≤ (name c).depth :=
  (List.pairwise_mergeSort (depth_le_trans name) (depth_le_total name) _).imp of_decide_eq_true

theorem mem_above {a b : α} {items : List α} :
    b ∈ above name a items ↔ b ∈ items ∧ (name b).isAncestorOf (name a) = true := by
  rw [above, List.mem_mergeSort, List.mem_filter]

theorem mem_notAbove {a b : α} {items : List α} :
    b ∈ notAbove name a items ↔ b ∈ items ∧ (name b).isAncestorOf (name a) = false := by
  rw [notAbove, List.mem_filter, Bool.not_eq_true']

def ParentsFirst (name : α → Name) (items : List α) : Prop :=
  items.Pairwise fun b c => (name c).isAncestorOf (name b) = false

theorem parentsFirst_map {β : Type} {f : β → α} {items : List β} :
    ParentsFirst name (items.map f) ↔ ParentsFirst (fun b => name (f b)) items := List.pairwise_map

theorem ParentsFirst.lt_of_isAncestorOf {items : List α} (h : ParentsFirst name items) {j k : Nat}
    {a b : α} (hj : items[j]? = some a) (hk : items[k]? = some b)
    (hab : (name a).isAncestorOf (name b) = true) : j < k := by
  obtain ⟨hjlen, rfl⟩ := List.getElem?_eq_some_iff.mp hj
  obtain ⟨hklen, rfl⟩ := List.getElem?_eq_some_iff.mp hk
  rcases Nat.lt_trichotomy j k with hlt | rfl | hgt
  · exact hlt
  · simp at hab
  · have hnot := List.pairwise_iff_getElem.mp h k j hklen hjlen hgt
    simp [hab] at hnot

theorem parentsFirst_pairwise (items : List α) : ParentsFirst name (parentsFirst name items) := by
  fun_induction parentsFirst name items with
  | case1 => exact .nil
  | case2 a rest ih =>
    have hrest {c : α} (hc : c ∈ parentsFirst name (notAbove name a rest)) :
        (name c).isAncestorOf (name a) = false :=
      (mem_notAbove.mp ((parentsFirst_perm name _).mem_iff.mp hc)).2
    refine List.pairwise_append.mpr ⟨?_, List.pairwise_cons.mpr ⟨fun c hc => hrest hc, ih⟩, ?_⟩
    · refine (pairwise_above a rest).imp fun {b c} hdepth => ?_
      refine Bool.eq_false_iff.mpr fun hcb => ?_
      have hlt := Name.depth_lt_of_isAncestorOf hcb
      omega
    · intro b hb c hc
      have hba := (mem_above.mp hb).2
      refine Bool.eq_false_iff.mpr fun hcb => ?_
      have hca := Name.isAncestorOf_trans hcb hba
      rcases List.mem_cons.mp hc with rfl | hc
      · simp at hca
      · simp [hrest hc] at hca

end StepGraph
