import Mathlib.Data.List.Basic
import StepGraph.Name

/-!
The hierarchy of names. The ancestors of a name are the names that a dot ends inside of it; they
form a chain. The names that are ancestors of two names at once are their common ancestor and what
is above it.
-/
set_option autoImplicit false

namespace StepGraph.Name

theorem isAncestorOf_iff {a b : Name} :
    a.isAncestorOf b = true ↔ a.chars ++ ['.'] <+: b.chars := by
  simp [isAncestorOf]

theorem mem_beforeDots {front cs : List Char} :
    front ∈ beforeDots cs ↔ front ++ ['.'] <+: cs := by
  induction cs generalizing front with
  | nil => simp [beforeDots]
  | cons c cs ih =>
    rw [beforeDots, List.mem_append, List.mem_map]
    cases front with
    | nil =>
      by_cases hc : c = '.'
      · simp [isDot, hc]
      · simp [isDot, hc, Ne.symm hc]
    | cons d front =>
      have hd : d :: front ∉ if isDot c then [[]] else [] := by split <;> simp
      simp only [hd, or_false, List.cons_append, List.cons_prefix_cons, ← ih]
      constructor
      · intro h
        obtain ⟨_, hm, he⟩ := h
        cases he
        exact ⟨rfl, hm⟩
      · intro h
        obtain ⟨rfl, hm⟩ := h
        exact ⟨front, hm, rfl⟩

@[simp] theorem mem_ancestors {a b : Name} : a ∈ b.ancestors ↔ a.isAncestorOf b = true := by
  rw [isAncestorOf_iff, ancestors, List.mem_map, ← mem_beforeDots]
  constructor
  · intro h
    obtain ⟨front, hm, rfl⟩ := h
    simpa using hm
  · intro hm
    exact ⟨a.chars, hm, ofChars_chars a⟩

theorem beforeDots_eq (cs : List Char) :
    beforeDots cs = match beforeLastDot cs with
      | none => []
      | some front => front :: beforeDots front := by
  induction cs with
  | nil => rfl
  | cons c cs ih =>
    rw [beforeDots, beforeLastDot, ih]
    cases beforeLastDot cs with
    | some front => simp [beforeDots]
    | none => by_cases hc : isDot c <;> simp [hc, beforeDots]

theorem ancestors_of_parent_eq_none {n : Name} (h : n.parent = none) : n.ancestors = [] := by
  have hn : beforeLastDot n.chars = none := by simpa [parent] using h
  rw [ancestors, beforeDots_eq, hn]
  rfl

theorem ancestors_of_parent_eq_some {n p : Name} (h : n.parent = some p) :
    n.ancestors = p :: p.ancestors := by
  obtain ⟨front, hf, rfl⟩ := Option.map_eq_some_iff.mp h
  rw [ancestors, beforeDots_eq, hf]
  simp [ancestors]

theorem isAncestorOf_iff_parent {a b : Name} :
    a.isAncestorOf b = true ↔ ∃ p, b.parent = some p ∧ a.isSameOrAncestorOf p = true := by
  rw [← mem_ancestors]
  cases h : b.parent with
  | none => simp [ancestors_of_parent_eq_none h]
  | some p => simp [ancestors_of_parent_eq_some h, isSameOrAncestorOf]

theorem length_lt_of_isAncestorOf {a b : Name} (h : a.isAncestorOf b = true) :
    a.chars.length < b.chars.length := by
  have hl := (isAncestorOf_iff.mp h).length_le
  simp only [List.length_append, List.length_cons, List.length_nil] at hl
  omega

@[simp] theorem isAncestorOf_self (a : Name) : a.isAncestorOf a = false := by
  cases h : a.isAncestorOf a with
  | false => rfl
  | true => exact absurd (length_lt_of_isAncestorOf h) (Nat.lt_irrefl _)

theorem ne_of_isAncestorOf {a b : Name} (h : a.isAncestorOf b = true) : a ≠ b := by
  intro hab
  simp [hab] at h

theorem isAncestorOf_trans {a b c : Name} (hab : a.isAncestorOf b = true)
    (hbc : b.isAncestorOf c = true) : a.isAncestorOf c = true := by
  rw [isAncestorOf_iff] at *
  exact hab.trans ((List.prefix_append _ _).trans hbc)

theorem isAncestorOf_asymm {a b : Name} (hab : a.isAncestorOf b = true) :
    b.isAncestorOf a = false := by
  cases hba : b.isAncestorOf a with
  | false => rfl
  | true => simpa using isAncestorOf_trans hab hba

theorem isSameOrAncestorOf_iff {a b : Name} :
    a.isSameOrAncestorOf b = true ↔ a = b ∨ a.isAncestorOf b = true := by
  simp [isSameOrAncestorOf]

theorem isSameOrAncestorOf_antisymm {a b : Name} (hab : a.isSameOrAncestorOf b = true)
    (hba : b.isSameOrAncestorOf a = true) : a = b := by
  rw [isSameOrAncestorOf_iff] at *
  rcases hab with hab | hab
  · exact hab
  rcases hba with hba | hba
  · exact hba.symm
  simp [isAncestorOf_asymm hab] at hba

theorem isAncestorOf_of_same_or {a b c : Name} (hab : a.isSameOrAncestorOf b = true)
    (hbc : b.isAncestorOf c = true) : a.isAncestorOf c = true := by
  rcases isSameOrAncestorOf_iff.mp hab with rfl | hab
  · exact hbc
  · exact isAncestorOf_trans hab hbc

def IsRising (names : List Name) : Prop := names.Pairwise fun a b => b.isAncestorOf a = true

/-- What holds of the names without a parent, and of a name as soon as it holds of its parent, holds
of all names. -/
theorem parent_induction {P : Name → Prop} (top : ∀ n, n.parent = none → P n)
    (inside : ∀ n p, n.parent = some p → P p → P n) (n : Name) : P n := by
  generalize hk : n.chars.length = k
  induction k using Nat.strongRecOn generalizing n with
  | ind k ih =>
    cases h : n.parent with
    | none => exact top n h
    | some p =>
      have hp : p.isAncestorOf n = true :=
        isAncestorOf_iff_parent.mpr ⟨p, h, by simp [isSameOrAncestorOf]⟩
      have hlt := length_lt_of_isAncestorOf hp
      exact inside n p h (ih _ (by omega) p rfl)

theorem isRising_ancestors (n : Name) : IsRising n.ancestors := by
  induction n using parent_induction with
  | top n h => simp [ancestors_of_parent_eq_none h, IsRising]
  | inside n p h ih =>
    rw [ancestors_of_parent_eq_some h]
    exact List.pairwise_cons.mpr ⟨fun a ha => mem_ancestors.mp ha, ih⟩

theorem nodup_ancestors (n : Name) : n.ancestors.Nodup :=
  (isRising_ancestors n).imp fun hab => (ne_of_isAncestorOf hab).symm

theorem IsRising.find?_eq_some_iff {names : List Name} (h : IsRising names) {f : Name → Bool}
    {p : Name} : names.find? f = some p ↔
      p ∈ names ∧ f p = true ∧ ∀ q ∈ names, f q = true → q.isSameOrAncestorOf p = true := by
  induction names with
  | nil => simp
  | cons a names ih =>
    obtain ⟨ha, hr⟩ := List.pairwise_cons.mp h
    cases hf : f a with
    | true =>
      rw [List.find?_cons_of_pos hf]
      constructor
      · intro h
        obtain ⟨rfl⟩ := h
        refine ⟨by simp, hf, fun q hq _ => isSameOrAncestorOf_iff.mpr ?_⟩
        exact (List.mem_cons.mp hq).imp_right (ha q)
      · intro h
        obtain ⟨hp, _, hq⟩ := h
        rcases List.mem_cons.mp hp with rfl | hp
        · rfl
        · have hpa := isSameOrAncestorOf_iff.mpr (.inr (ha p hp))
          rw [isSameOrAncestorOf_antisymm (hq a (by simp) hf) hpa]
    | false =>
      rw [List.find?_cons_of_neg (by simp [hf]), ih hr]
      simp only [List.mem_cons, forall_eq_or_imp, hf, Bool.false_eq_true, false_implies, true_and]
      refine ⟨fun ⟨hp, hfp, hq⟩ => ⟨.inr hp, hfp, hq⟩, fun ⟨hp, hfp, hq⟩ => ⟨?_, hfp, hq⟩⟩
      rcases hp with rfl | hp
      · simp [hf] at hfp
      · exact hp

theorem IsRising.mem_takeWhile {names : List Name} (h : IsRising names) {f : Name → Bool}
    {n : Name} : n ∈ names.takeWhile f ↔
      n ∈ names ∧ ∀ q ∈ names, n.isSameOrAncestorOf q = true → f q = true := by
  induction names with
  | nil => simp
  | cons a names ih =>
    obtain ⟨ha, hr⟩ := List.pairwise_cons.mp h
    cases hf : f a with
    | true =>
      rw [List.takeWhile_cons_of_pos hf, List.mem_cons, List.mem_cons, ih hr]
      simp only [List.mem_cons, forall_eq_or_imp, hf, implies_true, true_and]
      constructor
      · intro h
        rcases h with rfl | ⟨hn, hq⟩
        · refine ⟨.inl rfl, fun q hq hnq => ?_⟩
          have hqn := isSameOrAncestorOf_iff.mpr (.inr (ha q hq))
          rw [← isSameOrAncestorOf_antisymm hnq hqn]
          exact hf
        · exact ⟨.inr hn, hq⟩
      · intro h
        obtain ⟨hn, hq⟩ := h
        exact hn.imp_right fun hn => ⟨hn, hq⟩
    | false =>
      rw [List.takeWhile_cons_of_neg (by simp [hf])]
      simp only [List.not_mem_nil, false_iff]
      intro h
      obtain ⟨hn, hq⟩ := h
      have hna := isSameOrAncestorOf_iff.mpr ((List.mem_cons.mp hn).imp_right (ha n))
      simp [hq a (by simp) hna] at hf

theorem segments_eq (n : Name) : n.segments = n.chars.splitOn '.' := by
  rw [segments, Text.pieces_eq_splitOnP, List.splitOn_eq_splitOnP]
  rfl

theorem segments_ne_nil (n : Name) : n.segments ≠ [] := by simp [segments_eq]

theorem joinWith_segments (n : Name) : Text.joinWith '.' n.segments = n.chars :=
  Text.joinWith_pieces '.' n.chars

theorem segments_ofChars_joinWith {n : Name} {ps : List (List Char)} (hps : ps ≠ [])
    (h : ps <+: n.segments) : (ofChars (Text.joinWith '.' ps)).segments = ps := by
  rw [segments_eq, chars_ofChars, Text.joinWith_eq_intercalate]
  refine List.splitOn_intercalate '.' (fun p hp hdot => ?_) hps
  have hd := Text.isSep_of_mem_pieces (h.subset hp) hdot
  simp [isDot] at hd

theorem isSameOrAncestorOf_iff_segments {a b : Name} :
    a.isSameOrAncestorOf b = true ↔ a.segments <+: b.segments := by
  rw [isSameOrAncestorOf_iff]
  constructor
  · intro h
    rcases h with rfl | h
    · exact List.prefix_rfl
    · obtain ⟨rest, hrest⟩ := isAncestorOf_iff.mp h
      rw [segments_eq b, ← hrest, List.append_assoc, List.singleton_append,
        List.splitOn_append_cons_self, ← segments_eq]
      exact List.prefix_append _ _
  · intro h
    obtain ⟨rest, hrest⟩ := h
    have hb := joinWith_segments b
    cases rest with
    | nil =>
      rw [List.append_nil] at hrest
      rw [← hrest, joinWith_segments, chars_inj] at hb
      exact .inl hb
    | cons p ps =>
      rw [← hrest, Text.joinWith_append '.' (segments_ne_nil a) (by simp),
        joinWith_segments] at hb
      exact .inr (isAncestorOf_iff.mpr ⟨Text.joinWith '.' (p :: ps), by simp [← hb]⟩)

theorem prefix_shared_iff {α : Type} [BEq α] [LawfulBEq α] {xs ys zs : List α} :
    zs <+: ((xs.zip ys).takeWhile fun s => s.1 == s.2).map Prod.fst ↔ zs <+: xs ∧ zs <+: ys := by
  induction xs generalizing ys zs with
  | nil =>
    simp only [List.zip_nil_left, List.takeWhile_nil, List.map_nil, List.prefix_nil]
    exact ⟨fun h => ⟨h, h ▸ List.nil_prefix⟩, fun h => h.1⟩
  | cons x xs ih =>
    cases ys with
    | nil =>
      simp only [List.zip_nil_right, List.takeWhile_nil, List.map_nil, List.prefix_nil]
      exact ⟨fun h => ⟨h ▸ List.nil_prefix, h⟩, fun h => h.2⟩
    | cons y ys =>
      rw [List.zip_cons_cons]
      by_cases hxy : x = y
      · subst y
        rw [List.takeWhile_cons_of_pos (by simp), List.map_cons]
        cases zs with
        | nil => simp
        | cons z zs =>
          simp only [List.cons_prefix_cons, ih]
          exact ⟨fun ⟨hz, h₁, h₂⟩ => ⟨⟨hz, h₁⟩, hz, h₂⟩, fun ⟨⟨hz, h₁⟩, _, h₂⟩ => ⟨hz, h₁, h₂⟩⟩
      · rw [List.takeWhile_cons_of_neg (by simpa using hxy), List.map_nil, List.prefix_nil]
        cases zs with
        | nil => simp
        | cons z zs =>
          simp only [List.cons_prefix_cons, reduceCtorEq, false_iff]
          intro h
          obtain ⟨⟨rfl, _⟩, rfl, _⟩ := h
          exact hxy rfl

/-- The common ancestor is above both names, and all that is above both is the same or above it. -/
theorem isAncestorOf_both_iff {a b d : Name} :
    d.isAncestorOf a = true ∧ d.isAncestorOf b = true ↔
      ∃ c, a.commonAncestor b = some c ∧ d.isSameOrAncestorOf c = true := by
  rw [isAncestorOf_iff_parent, isAncestorOf_iff_parent, commonAncestor]
  cases hp : a.parent with
  | none => simp
  | some p =>
    cases hq : b.parent with
    | none => simp
    | some q =>
      simp only [Option.some.injEq, exists_eq_left', Option.bind_eq_bind, Option.bind_some]
      rw [isSameOrAncestorOf_iff_segments, isSameOrAncestorOf_iff_segments, ← prefix_shared_iff]
      generalize hs : ((p.segments.zip q.segments).takeWhile fun s => s.1 == s.2).map Prod.fst =
        shared
      have hsp : shared <+: p.segments := by
        rw [← hs]
        exact (prefix_shared_iff.mp List.prefix_rfl).1
      by_cases he : shared = []
      · simp [he, segments_ne_nil]
      · simp [he, isSameOrAncestorOf_iff_segments, segments_ofChars_joinWith he hsp]

end StepGraph.Name
