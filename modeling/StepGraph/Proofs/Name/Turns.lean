import Mathlib.Data.List.Sort
import Mathlib.Data.Prod.Lex
import Mathlib.Order.Bounds.Basic
import StepGraph.Proofs.Name.ParentsFirst

/-!
Where an item stands once a list is parents first. It is listed at the turn of the first item that
it has to stand before, or at its own; those listed at one turn go from the outermost inwards.
-/
set_option autoImplicit false

namespace StepGraph

/-- Items that compare as equal stay in the order of their tags. -/
theorem pairwise_mergeSort_of_tags {β : Type} {le : β → β → Bool} (tag : β → Nat) {items : List β}
    (htrans : ∀ a b c, le a b = true → le b c = true → le a c = true)
    (htotal : ∀ a b, (le a b || le b a) = true) (htags : items.Pairwise (tag · < tag ·)) :
    (items.mergeSort le).Pairwise fun a b => le a b = true ∧ (le b a = true → tag a ≤ tag b) := by
  rw [← List.mergeSort_zipIdx, List.pairwise_map]
  have hsorted := List.pairwise_mergeSort (List.zipIdxLE_trans htrans)
    (List.zipIdxLE_total htotal) items.zipIdx
  refine hsorted.imp_of_mem fun {a b} ha hb hab => ?_
  rw [List.mem_mergeSort, List.mem_zipIdx_iff_getElem?, List.getElem?_eq_some_iff] at ha hb
  obtain ⟨hia, ha⟩ := ha
  obtain ⟨hib, hb⟩ := hb
  rw [List.zipIdxLE] at hab
  split at hab
  · rename_i hle
    refine ⟨hle, fun hge => ?_⟩
    rw [if_pos hge, decide_eq_true_iff] at hab
    rw [← ha, ← hb]
    obtain hlt | heq := Nat.lt_or_eq_of_le hab
    · exact Nat.le_of_lt (List.pairwise_iff_getElem.mp htags _ _ hia hib hlt)
    · simp [heq]
  · cases hab

variable {α : Type}

theorem map_above {β : Type} (name : α → Name) (f : β → α) (b : β) (items : List β) :
    (above (fun b => name (f b)) b items).map f = above name (f b) (items.map f) := by
  rw [above, above, List.filter_map]
  exact List.map_mergeSort fun _ _ _ _ => rfl

theorem map_notAbove {β : Type} (name : α → Name) (f : β → α) (b : β) (items : List β) :
    (notAbove (fun b => name (f b)) b items).map f = notAbove name (f b) (items.map f) := by
  rw [notAbove, notAbove, List.filter_map]
  rfl

/-- Only the names of items count. -/
theorem map_parentsFirst {β : Type} (name : α → Name) (f : β → α) (items : List β) :
    (parentsFirst (fun b => name (f b)) items).map f = parentsFirst name (items.map f) := by
  fun_induction parentsFirst (fun b => name (f b)) items with
  | case1 => simp
  | case2 b rest ih =>
    rw [List.map_append, List.map_cons, ih, map_above, map_notAbove, List.map_cons, parentsFirst]

def indicesWithin (name : α → Name) (items : List (α × Nat)) (p : α × Nat) : Set Nat :=
  {j | ∃ q ∈ items, q.2 = j ∧
    (q = p ∨ q.2 < p.2 ∧ (name p.1).isAncestorOf (name q.1) = true)}

/-- Items are listed turn by turn, the outermost first at each turn, and else as they were. -/
def rank (name : α → Name) (turn : α × Nat → Nat) (p : α × Nat) : Nat ×ₗ Nat ×ₗ Nat :=
  toLex (turn p, toLex ((name p.1).depth, p.2))

section

variable {name : α → Name} {turn : α × Nat → Nat}

theorem rank_le_iff {p q : α × Nat} : rank name turn p ≤ rank name turn q ↔
    turn p < turn q ∨ turn p = turn q ∧ ((name p.1).depth < (name q.1).depth ∨
      (name p.1).depth = (name q.1).depth ∧ p.2 ≤ q.2) := by
  simp [rank, Prod.Lex.toLex_le_toLex]

theorem pairwise_rank_above {a : α × Nat} {items : List (α × Nat)} {n : Nat}
    (hindex : items.Pairwise (·.2 < ·.2))
    (hturn : ∀ p ∈ above (fun p => name p.1) a items, turn p = n) :
    (above (fun p => name p.1) a items).Pairwise fun p q =>
      rank name turn p ≤ rank name turn q := by
  have hstable := pairwise_mergeSort_of_tags Prod.snd (depth_le_trans fun p : α × Nat => name p.1)
    (depth_le_total _) (hindex.filter fun b => (name b.1).isAncestorOf (name a.1))
  refine List.Pairwise.imp_of_mem (fun {p q} hp hq hpq => ?_) hstable
  rw [rank_le_iff, hturn p hp, hturn q hq]
  simp only [decide_eq_true_iff] at hpq
  omega

/-- An item that is no ancestor of the first one does not count on it, nor on any ancestor of it. -/
theorem indicesWithin_notAbove {a p : α × Nat} {rest : List (α × Nat)}
    (hp : p ∈ notAbove (fun p => name p.1) a rest) :
    indicesWithin name (notAbove (fun p => name p.1) a rest) p =
      indicesWithin name (a :: rest) p := by
  obtain ⟨hmem, hpa⟩ := mem_notAbove.mp hp
  have hpa : ¬(name p.1).isAncestorOf (name a.1) = true := by simp [hpa]
  ext j
  constructor
  · rintro ⟨q, hq, hj⟩
    exact ⟨q, List.mem_cons_of_mem a (mem_notAbove.mp hq).1, hj⟩
  · rintro ⟨q, hq, hj, hqp⟩
    refine ⟨q, ?_, hj, hqp⟩
    rcases hqp with rfl | ⟨_, hpq⟩
    · exact hp
    · rcases List.mem_cons.mp hq with rfl | hq
      · exact absurd hpq hpa
      · refine mem_notAbove.mpr ⟨hq, Bool.eq_false_iff.mpr fun hqa => ?_⟩
        exact hpa (Name.isAncestorOf_trans hpq hqa)

/-- Where the turns are known, they tell the order of the list. -/
theorem pairwise_rank {items : List (α × Nat)} (hindex : items.Pairwise (·.2 < ·.2))
    (hturn : ∀ p ∈ items, IsLeast (indicesWithin name items p) (turn p)) :
    (parentsFirst (fun p => name p.1) items).Pairwise fun p q =>
      rank name turn p ≤ rank name turn q := by
  fun_induction parentsFirst (fun p => name p.1) items with
  | case1 => exact .nil
  | case2 a rest ih =>
    obtain ⟨hafter, hrest⟩ := List.pairwise_cons.mp hindex
    have hfirst : ∀ q ∈ a :: rest, a.2 ≤ q.2 :=
      List.forall_mem_cons.mpr ⟨Nat.le_refl _, fun q hq => Nat.le_of_lt (hafter q hq)⟩
    -- At the turn of `a` come `a` and whatever it lies in, since no index is smaller.
    have hnow : ∀ p ∈ a :: rest, a.2 ∈ indicesWithin name (a :: rest) p → turn p = a.2 := by
      intro p hp hin
      refine (hturn p hp).unique ⟨hin, ?_⟩
      rintro _ ⟨q, hq, rfl, _⟩
      exact hfirst q hq
    have hself : turn a = a.2 :=
      hnow a List.mem_cons_self ⟨a, List.mem_cons_self, rfl, .inl rfl⟩
    have habove : ∀ p ∈ above (fun p => name p.1) a rest, turn p = a.2 := by
      intro p hp
      obtain ⟨hp, hpa⟩ := mem_above.mp hp
      exact hnow p (List.mem_cons_of_mem a hp)
        ⟨a, List.mem_cons_self, rfl, .inr ⟨hafter p hp, hpa⟩⟩
    -- For all others it is as if these had never been there.
    have hlater : ∀ p ∈ notAbove (fun p => name p.1) a rest,
        IsLeast (indicesWithin name (notAbove (fun p => name p.1) a rest) p) (turn p) := by
      intro p hp
      rw [indicesWithin_notAbove hp]
      exact hturn p (List.mem_cons_of_mem a (mem_notAbove.mp hp).1)
    have hturns : ∀ p ∈ parentsFirst (fun p => name p.1) (notAbove (fun p => name p.1) a rest),
        a.2 < turn p := by
      intro p hp
      obtain ⟨q, hq, hj, _⟩ := (hlater p ((parentsFirst_perm _ _).mem_iff.mp hp)).1
      rw [← hj]
      exact hafter q (mem_notAbove.mp hq).1
    refine List.pairwise_append.mpr ⟨pairwise_rank_above hrest habove,
      List.pairwise_cons.mpr ⟨fun p hp => ?_, ih (hrest.filter _) hlater⟩, fun p hp q hq => ?_⟩
    · rw [rank_le_iff, hself]
      exact .inl (hturns p hp)
    · rw [rank_le_iff, habove p hp]
      rcases List.mem_cons.mp hq with rfl | hq
      · have hdepth := Name.depth_lt_of_isAncestorOf (mem_above.mp hp).2
        exact .inr ⟨hself.symm, .inl hdepth⟩
      · exact .inl (hturns q hq)

end

/-- The index of the first item that comes no later than `p` and is `p` or lies in it. -/
def turn (name : α → Name) (items : List α) (p : α × Nat) : Nat :=
  (items.take p.2).findIdx fun b => (name p.1).isAncestorOf (name b)

theorem isLeast_turn (name : α → Name) {items : List α} {p : α × Nat} (hp : p ∈ items.zipIdx) :
    IsLeast (indicesWithin name items.zipIdx p) (turn name items p) := by
  obtain ⟨hlen, _⟩ := List.getElem?_eq_some_iff.mp (List.mem_zipIdx_iff_getElem?.mp hp)
  have htake : (items.take p.2).length = p.2 := by simp [Nat.le_of_lt hlen]
  have hle : turn name items p ≤ p.2 := List.findIdx_le_length.trans_eq htake
  constructor
  · obtain hlt | heq := Nat.lt_or_eq_of_le hle
    · have hbound : turn name items p < items.length := hlt.trans hlen
      have hfound : (items.take p.2).findIdx (fun b => (name p.1).isAncestorOf (name b)) <
          (items.take p.2).length := hlt.trans_eq htake.symm
      have hanc := List.findIdx_getElem (w := hfound)
      rw [List.getElem_take] at hanc
      exact ⟨(items[turn name items p], turn name items p),
        by simp [List.mem_zipIdx_iff_getElem?], rfl, .inr ⟨hlt, hanc⟩⟩
    · exact ⟨p, hp, heq.symm, .inl rfl⟩
  · rintro _ ⟨q, hq, rfl, rfl | ⟨_, hanc⟩⟩
    · exact hle
    · by_contra hlt
      have hnot := List.not_of_lt_findIdx (Nat.not_le.mp hlt)
      obtain ⟨_, hitem⟩ := List.getElem?_eq_some_iff.mp (List.mem_zipIdx_iff_getElem?.mp hq)
      simp [hitem, hanc] at hnot

theorem indicesWithin_zipIdx (name : α → Name) {items : List α} {p : α × Nat}
    (hp : p ∈ items.zipIdx) : indicesWithin name items.zipIdx p =
      {j | j ≤ p.2 ∧ ∃ b, items[j]? = some b ∧
        (j = p.2 ∨ (name p.1).isAncestorOf (name b) = true)} := by
  have hitem := List.mem_zipIdx_iff_getElem?.mp hp
  ext j
  constructor
  · rintro ⟨q, hq, rfl, rfl | ⟨hbefore, hanc⟩⟩
    · exact ⟨Nat.le_refl _, q.1, hitem, .inl rfl⟩
    · exact ⟨Nat.le_of_lt hbefore, q.1, List.mem_zipIdx_iff_getElem?.mp hq, .inr hanc⟩
  · rintro ⟨hle, b, hb, hj⟩
    obtain hlt | rfl := Nat.lt_or_eq_of_le hle
    · exact ⟨(b, j), List.mem_zipIdx_iff_getElem?.mpr hb, rfl,
        .inr ⟨hlt, hj.resolve_left (Nat.ne_of_lt hlt)⟩⟩
    · exact ⟨p, hp, rfl, .inl rfl⟩

theorem parentsFirst_eq_mergeSort (name : α → Name) (items : List α) :
    parentsFirst name items = (items.zipIdx.mergeSort fun p q =>
      decide (rank name (turn name items) p ≤ rank name (turn name items) q)).map Prod.fst := by
  have hindex : items.zipIdx.Pairwise (·.2 < ·.2) := by
    rw [← List.pairwise_map, List.zipIdx_map_snd]
    exact List.pairwise_lt_range'
  have hsorted := pairwise_rank hindex fun p hp => isLeast_turn name hp
  suffices hsame : parentsFirst (fun p : α × Nat => name p.1) items.zipIdx =
      items.zipIdx.mergeSort fun p q =>
        decide (rank name (turn name items) p ≤ rank name (turn name items) q) by
    rw [← hsame, map_parentsFirst, List.zipIdx_map_fst]
  refine List.Perm.eq_of_pairwise (fun p q hp hq hpq hqp => ?_) hsorted ?_
    ((parentsFirst_perm _ _).trans (List.mergeSort_perm _ _).symm)
  · -- No two items bear the same index.
    have hrank := le_antisymm hpq hqp
    have hsnd : p.2 = q.2 := congrArg (fun r => (ofLex (ofLex r).2).2) hrank
    rw [(parentsFirst_perm _ _).mem_iff, List.mem_zipIdx_iff_getElem?] at hp
    rw [List.mem_mergeSort, List.mem_zipIdx_iff_getElem?, ← hsnd] at hq
    exact Prod.ext (Option.some.inj (hp.symm.trans hq)) hsnd
  · refine (List.pairwise_mergeSort (fun a b c hab hbc => ?_) (fun a b => ?_) _).imp
      of_decide_eq_true
    · exact decide_eq_true (le_trans (of_decide_eq_true hab) (of_decide_eq_true hbc))
    · rw [Bool.or_eq_true, decide_eq_true_iff, decide_eq_true_iff]
      exact le_total _ _

theorem parentsFirst_eq_self_iff (name : α → Name) (items : List α) :
    parentsFirst name items = items ↔ ParentsFirst name items := by
  constructor
  · intro h
    rw [← h]
    exact parentsFirst_pairwise items
  · intro h
    induction items with
    | nil => exact parentsFirst_nil name
    | cons a rest ih =>
      obtain ⟨ha, hrest⟩ := List.pairwise_cons.mp h
      have habove : above name a rest = [] := by
        rw [List.eq_nil_iff_forall_not_mem]
        intro b hb
        obtain ⟨hb, hba⟩ := mem_above.mp hb
        simp [ha b hb] at hba
      have hnot : notAbove name a rest = rest :=
        List.filter_eq_self.mpr fun b hb => by simp [ha b hb]
      rw [parentsFirst, habove, hnot, ih hrest, List.nil_append]

/-- Parents first, a list holds the items it held, and each of them after all of its ancestors: they
are sorted by turn, then by depth, then by where they stood. An item takes its turn at the least
index, up to its own, of an item that is the item itself or lies in it. So a list that is parents
first already stays as it is. -/
theorem parentsFirst_sorts (name : α → Name) (items : List α) :
    (parentsFirst name items).Perm items ∧
    ParentsFirst name (parentsFirst name items) ∧
    parentsFirst name items = (items.zipIdx.mergeSort fun p q =>
      decide (rank name (turn name items) p ≤ rank name (turn name items) q)).map Prod.fst ∧
    (∀ p ∈ items.zipIdx, IsLeast {j | j ≤ p.2 ∧ ∃ b, items[j]? = some b ∧
      (j = p.2 ∨ (name p.1).isAncestorOf (name b) = true)} (turn name items p)) ∧
    (parentsFirst name items = items ↔ ParentsFirst name items) ∧
    parentsFirst name (parentsFirst name items) = parentsFirst name items := by
  refine ⟨parentsFirst_perm name items, parentsFirst_pairwise items,
    parentsFirst_eq_mergeSort name items, fun p hp => ?_, parentsFirst_eq_self_iff name items, ?_⟩
  · rw [← indicesWithin_zipIdx name hp]
    exact isLeast_turn name hp
  · rw [parentsFirst_eq_self_iff]
    exact parentsFirst_pairwise items

/-- Both `a` and `a.b` take the turn of `a.b.c`. -/
example : (parentsFirst id [⟨"a.b.c"⟩, ⟨"x"⟩, ⟨"a.b"⟩, ⟨"a"⟩]).map Name.text =
    ["a", "a.b", "a.b.c", "x"] := by cbv

end StepGraph
