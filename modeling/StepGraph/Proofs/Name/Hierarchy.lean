import Mathlib.Data.List.Pairwise
import Mathlib.Order.Preorder.Chain
import StepGraph.Proofs.Name.ParentsFirst

/-!
The hierarchy of names, asked for in four ways: by the bytes that a name begins with, by its
parents, by its dots and by its segments. On every text they give the same answers.
-/
set_option autoImplicit false

namespace StepGraph.Name

def bytes (n : Name) : List UInt8 := n.chars.flatMap String.utf8EncodeChar

theorem utf8_prefix_iff {xs ys : List Char} :
    xs.flatMap String.utf8EncodeChar <+: ys.flatMap String.utf8EncodeChar ↔ xs <+: ys := by
  constructor
  · intro h
    obtain ⟨rest, hrest⟩ := h
    refine List.isPrefix_of_utf8Encode_append_eq_utf8Encode rest.toByteArray ?_
    rw [List.utf8Encode, List.utf8Encode, ← hrest, List.toByteArray_append]
  · intro h
    obtain ⟨rest, rfl⟩ := h
    rw [List.flatMap_append]
    exact List.prefix_append _ _

theorem concat_prefix_iff {α : Type} {xs ys : List α} {a : α} :
    xs ++ [a] <+: ys ↔ xs <+: ys ∧ ys[xs.length]? = some a := by
  constructor
  · intro h
    obtain ⟨rest, rfl⟩ := h
    simp
  · intro h
    obtain ⟨⟨rest, rfl⟩, ha⟩ := h
    rw [List.getElem?_append_right (Nat.le_refl _), Nat.sub_self, ← List.head?_eq_getElem?] at ha
    obtain ⟨tail, rfl⟩ := List.head?_eq_some_iff.mp ha
    exact ⟨tail, by simp⟩

/-- The bytes of an ancestor begin those of the name and end at a dot. -/
theorem isAncestorOf_iff_bytes {a b : Name} : a.isAncestorOf b = true ↔
    a.bytes <+: b.bytes ∧ b.bytes[a.bytes.length]? = some '.'.toUInt8 := by
  have hdot : ['.'].flatMap String.utf8EncodeChar = ['.'.toUInt8] := by decide
  rw [isAncestorOf_iff, ← utf8_prefix_iff, List.flatMap_append, hdot]
  exact concat_prefix_iff

theorem countP_isDot (cs : List Char) :
    cs.countP isDot = match beforeLastDot cs with
      | none => 0
      | some front => front.countP isDot + 1 := by
  induction cs with
  | nil => rfl
  | cons c cs ih =>
    rw [List.countP_cons, ih, beforeLastDot]
    cases beforeLastDot cs with
    | some front =>
      simp only [List.countP_cons]
      omega
    | none => cases hc : isDot c <;> simp

theorem depth_of_parent_eq_none {n : Name} (h : n.parent = none) : n.depth = 0 := by
  have hn : beforeLastDot n.chars = none := by simpa [parent] using h
  rw [depth, countP_isDot, hn]

theorem depth_of_parent_eq_some {n p : Name} (h : n.parent = some p) : n.depth = p.depth + 1 := by
  obtain ⟨front, hfront, rfl⟩ := Option.map_eq_some_iff.mp h
  rw [depth, countP_isDot, hfront, depth, chars_ofChars]

/-- The depths of the ancestors count down to zero. -/
theorem map_depth_ancestors (n : Name) :
    n.ancestors.map depth = (List.range n.depth).reverse := by
  induction n using parent_induction with
  | top n h =>
    rw [ancestors_of_parent_eq_none h, depth_of_parent_eq_none h]
    rfl
  | inside n p h ih =>
    rw [ancestors_of_parent_eq_some h, depth_of_parent_eq_some h, List.map_cons, ih,
      List.range_succ, List.reverse_concat]

theorem length_ancestors (n : Name) : n.ancestors.length = n.depth := by
  have hlen := congrArg List.length (map_depth_ancestors n)
  simpa using hlen

/-- From each name to the next one up the list of its ancestors leads the way of the parents. -/
theorem isChain_parent (n : Name) :
    (n :: n.ancestors).IsChain fun a b => a.parent = some b := by
  induction n using parent_induction with
  | top n h => simp [ancestors_of_parent_eq_none h]
  | inside n p h ih =>
    rw [ancestors_of_parent_eq_some h]
    exact List.isChain_cons_cons.mpr ⟨h, ih⟩

theorem head?_ancestors (n : Name) : n.ancestors.head? = n.parent := by
  cases h : n.parent with
  | none => simp [ancestors_of_parent_eq_none h]
  | some p => simp [ancestors_of_parent_eq_some h]

structure ListsAncestors (n : Name) (names : List Name) : Prop where
  mem_iff : ∀ a, a ∈ names ↔ a.isAncestorOf n = true
  nodup : names.Nodup
  depths : names.Pairwise fun a b => b.depth < a.depth
  length_eq : names.length = n.depth
  head_iff : ∀ p, p.isParentOf n = true ↔ names.head? = some p
  parents : (n :: names).IsChain fun a b => b.isParentOf a = true

theorem listsAncestors_ancestors (n : Name) : n.ListsAncestors n.ancestors where
  mem_iff a := mem_ancestors
  nodup := n.nodup_ancestors
  depths := (isRising_ancestors n).imp depth_lt_of_isAncestorOf
  length_eq := length_ancestors n
  head_iff p := by rw [isParentOf, beq_iff_eq, head?_ancestors]
  parents := n.isChain_parent.imp fun a b h => by rw [isParentOf, beq_iff_eq, h]

theorem isStrictOrder_isAncestorOf : IsStrictOrder Name fun a b => a.isAncestorOf b = true where
  irrefl a := by simp
  trans _ _ _ := isAncestorOf_trans

theorem isChain_ancestors (n : Name) :
    IsChain (fun a b : Name => a.isAncestorOf b = true) {a | a.isAncestorOf n = true} := by
  have hsymm : Std.Symm fun a b : Name => a.isAncestorOf b = true ∨ b.isAncestorOf a = true :=
    ⟨fun _ _ => Or.symm⟩
  have hcomparable : n.ancestors.Pairwise fun a b =>
      a.isAncestorOf b = true ∨ b.isAncestorOf a = true := (isRising_ancestors n).imp .inr
  intro a ha b hb hab
  exact hcomparable.forall (mem_ancestors.mpr ha) (mem_ancestors.mpr hb) hab

structure IsDeepest (P : Name → Prop) (n : Name) : Prop where
  holds : P n
  depth_lt : ∀ m, P m → m ≠ n → m.depth < n.depth

/-- The deepest name with the property, absent where no name has it. -/
structure FindsDeepest (P : Name → Prop) (n? : Option Name) : Prop where
  some_iff : ∀ n, n? = some n ↔ n.IsDeepest P
  none_iff : n? = none ↔ ¬∃ n, P n

section

variable {P : Name → Prop} {m n : Name} {m? n? : Option Name}

theorem IsDeepest.eq (hm : m.IsDeepest P) (hn : n.IsDeepest P) : m = n := by
  by_contra hne
  have hlt := hm.depth_lt n hn.holds (Ne.symm hne)
  have hgt := hn.depth_lt m hm.holds hne
  omega

theorem isDeepest_of_same_or (hn : P n) (h : ∀ m, P m → m.isSameOrAncestorOf n = true) :
    n.IsDeepest P where
  holds := hn
  depth_lt m hm hne :=
    depth_lt_of_isAncestorOf ((isSameOrAncestorOf_iff.mp (h m hm)).resolve_left hne)

theorem FindsDeepest.eq (hm : FindsDeepest P m?) (hn : FindsDeepest P n?) : m? = n? :=
  Option.ext fun n => (hm.some_iff n).trans (hn.some_iff n).symm

/-- What lies inside of all other names with the property is the deepest of them. -/
theorem findsDeepest_of_same_or
    (hsome : ∀ n, n? = some n → P n ∧ ∀ m, P m → m.isSameOrAncestorOf n = true)
    (hnone : n? = none → ¬∃ n, P n) : FindsDeepest P n? := by
  have hdeepest : ∀ n, n? = some n → n.IsDeepest P :=
    fun n hn => isDeepest_of_same_or (hsome n hn).1 (hsome n hn).2
  cases n? with
  | none =>
    have hno := hnone rfl
    exact ⟨fun n => ⟨nofun, fun h => absurd ⟨n, h.holds⟩ hno⟩, ⟨fun _ => hno, fun _ => rfl⟩⟩
  | some n =>
    have hn := hdeepest n rfl
    refine ⟨fun m => ⟨hdeepest m, fun hm => congrArg some (hn.eq hm)⟩, ⟨nofun, fun h => ?_⟩⟩
    exact absurd ⟨n, hn.holds⟩ h

end

def IsAroundBoth (a b n : Name) : Prop := n.isAncestorOf a = true ∧ n.isAncestorOf b = true

theorem isAroundBoth_comm (a b : Name) : IsAroundBoth a b = IsAroundBoth b a :=
  funext fun _ => propext and_comm

theorem findsDeepest_commonAncestor (a b : Name) :
    FindsDeepest (IsAroundBoth a b) (a.commonAncestor b) := by
  refine findsDeepest_of_same_or (fun c hc => ⟨?_, fun d hd => ?_⟩) fun hnone h => ?_
  · exact isAncestorOf_both_iff.mpr ⟨c, hc, isSameOrAncestorOf_iff.mpr (.inl rfl)⟩
  · obtain ⟨e, he, hde⟩ := isAncestorOf_both_iff.mp hd
    cases hc.symm.trans he
    exact hde
  · obtain ⟨d, hd⟩ := h
    obtain ⟨c, hc, _⟩ := isAncestorOf_both_iff.mp hd
    simp [hnone] at hc

theorem commonAncestor_comm (a b : Name) : a.commonAncestor b = b.commonAncestor a := by
  have hcomm := findsDeepest_commonAncestor b a
  rw [← isAroundBoth_comm] at hcomm
  exact (findsDeepest_commonAncestor a b).eq hcomm

/-- Whichever way the hierarchy is asked for, every text gets one answer: the bytes that names begin
with order them strictly; the chain of ancestors of a name is listed by its parents, one for each
dot; and what the segments of two names have in common leads to the deepest of the ancestors of
both. -/
theorem hierarchy_agrees :
    (∀ a b : Name, a.isAncestorOf b = true ↔
      a.bytes <+: b.bytes ∧ b.bytes[a.bytes.length]? = some '.'.toUInt8) ∧
    (∀ n : Name, n.ListsAncestors n.ancestors) ∧
    IsStrictOrder Name (fun a b => a.isAncestorOf b = true) ∧
    (∀ n : Name, IsChain (fun a b : Name => a.isAncestorOf b = true)
      {a | a.isAncestorOf n = true}) ∧
    (∀ a b : Name, FindsDeepest (IsAroundBoth a b) (a.commonAncestor b)) ∧
    ∀ a b : Name, a.commonAncestor b = b.commonAncestor a :=
  ⟨fun _ _ => isAncestorOf_iff_bytes, listsAncestors_ancestors, isStrictOrder_isAncestorOf,
    isChain_ancestors, findsDeepest_commonAncestor, commonAncestor_comm⟩

end StepGraph.Name
