import StepGraph.Name

/-!
Lists in which every ancestor stands before its descendants. An item keeps its place unless it is an
ancestor of an earlier one; then it moves right before the first of its descendants.
-/
set_option autoImplicit false

namespace StepGraph

variable {α : Type}

def above (name : α → Name) (a : α) (items : List α) : List α :=
  (items.filter fun b => (name b).isAncestorOf (name a)).mergeSort
    fun b c => (name b).depth ≤ (name c).depth

def notAbove (name : α → Name) (a : α) (items : List α) : List α :=
  items.filter fun b => !(name b).isAncestorOf (name a)

theorem length_notAbove (name : α → Name) (a : α) (items : List α) :
    (notAbove name a items).length ≤ items.length := List.length_filter_le _ _

theorem above_append_notAbove_perm (name : α → Name) (a : α) (items : List α) :
    (above name a items ++ notAbove name a items).Perm items :=
  ((List.mergeSort_perm _ _).append_right _).trans (List.filter_append_perm _ _)

def parentsFirst (name : α → Name) : List α → List α
  | [] => []
  | a :: rest => above name a rest ++ a :: parentsFirst name (notAbove name a rest)
termination_by items => items.length
decreasing_by exact Nat.lt_succ_of_le (length_notAbove name a rest)

@[simp] theorem parentsFirst_nil (name : α → Name) : parentsFirst name [] = [] := by
  rw [parentsFirst]

theorem parentsFirst_perm (name : α → Name) (items : List α) :
    (parentsFirst name items).Perm items := by
  fun_induction parentsFirst name items with
  | case1 => exact .nil
  | case2 a rest ih =>
    refine List.perm_middle.trans (.cons a ?_)
    exact (ih.append_left _).trans (above_append_notAbove_perm name a rest)

end StepGraph
