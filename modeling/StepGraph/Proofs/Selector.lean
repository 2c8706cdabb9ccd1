import Mathlib.Data.List.TakeWhile
import StepGraph.Proofs.Name.Ancestry
import StepGraph.Proofs.Outcome
import StepGraph.Selector

/-!
The expressions of selectors. A selector can be read from an expression just if it is written there,
with nothing but blanks around it, and if its name is made up of segments that may be written. What
it selects can be told by dots, parents and ancestors.
-/
set_option autoImplicit false

namespace StepGraph

namespace Text

structure Trims (s t : String) : Prop where
  around : ∃ front back, s.toList = front ++ (t.toList ++ back) ∧
    (∀ c ∈ front, isBlank c = true) ∧ ∀ c ∈ back, isBlank c = true
  head : ∀ c, t.toList.head? = some c → isBlank c = false
  last : ∀ c, t.toList.getLast? = some c → isBlank c = false

theorem dropWhile_isBlank_eq_iff {cs rest : List Char} : cs.dropWhile isBlank = rest ↔
    ∃ front, cs = front ++ rest ∧ (∀ c ∈ front, isBlank c = true) ∧
      ∀ c, rest.head? = some c → isBlank c = false := by
  constructor
  · intro h
    subst h
    refine ⟨cs.takeWhile isBlank, (List.takeWhile_append_dropWhile).symm,
      fun c hc => List.mem_takeWhile_imp hc, fun c hc => ?_⟩
    have hnot := List.head?_dropWhile_not isBlank cs
    rw [hc] at hnot
    simpa using hnot
  · intro h
    obtain ⟨front, rfl, hfront, hrest⟩ := h
    rw [List.dropWhile_append_of_pos hfront]
    cases rest with
    | nil => rfl
    | cons c rest => simp [hrest c rfl]

theorem trimChars_eq_iff {cs t : List Char} : trimChars cs = t ↔
    ∃ back, cs.dropWhile isBlank = t ++ back ∧ (∀ c ∈ back, isBlank c = true) ∧
      ∀ c, t.getLast? = some c → isBlank c = false := by
  rw [trimChars, List.reverse_eq_iff, dropWhile_isBlank_eq_iff, List.head?_reverse]
  constructor
  · intro h
    obtain ⟨back, hback, hblank, hlast⟩ := h
    refine ⟨back.reverse, ?_, by simpa using hblank, hlast⟩
    simpa using congrArg List.reverse hback
  · intro h
    obtain ⟨back, hback, hblank, hlast⟩ := h
    refine ⟨back.reverse, ?_, by simpa using hblank, hlast⟩
    simp [hback]

theorem trim_eq_iff {s t : String} : trim s = t ↔ Trims s t := by
  rw [← String.toList_inj, toList_trim, trimChars_eq_iff]
  simp only [dropWhile_isBlank_eq_iff]
  constructor
  · intro h
    obtain ⟨back, ⟨front, hs, hfront, hhead⟩, hback, hlast⟩ := h
    refine ⟨⟨front, back, hs, hfront, hback⟩, fun c hc => hhead c ?_, hlast⟩
    rw [List.head?_append, hc]
    rfl
  · intro h
    obtain ⟨⟨front, back, hs, hfront, hback⟩, hhead, hlast⟩ := h
    cases ht : t.toList with
    | nil =>
      rw [ht, List.nil_append] at hs
      have hall : ∀ c ∈ front ++ back, isBlank c = true :=
        List.forall_mem_append.mpr ⟨hfront, hback⟩
      exact ⟨[], ⟨front ++ back, by simpa using hs, hall, by simp⟩, by simp, by simp⟩
    | cons c cs =>
      rw [ht] at hs hhead hlast
      exact ⟨back, ⟨front, hs, hfront, by simpa using hhead⟩, hback, hlast⟩

end Text

/-- An ASCII letter or an underscore, and then letters, digits and the like of any script or
hyphens. -/
def IsSegment (cs : List Char) : Prop :=
  ∃ c rest, cs = c :: rest ∧ (c.isAlpha = true ∨ c = '_') ∧
    ∀ d ∈ rest, Text.isWord d = true ∨ d = '-'

def Name.IsPlain (n : Name) : Prop :=
  ∃ segments, segments ≠ [] ∧ (∀ p ∈ segments, IsSegment p) ∧ n.chars = ['.'].intercalate segments

namespace Selector

theorem isSegment_iff {cs : List Char} : isSegment cs = true ↔ IsSegment cs := by
  cases cs with
  | nil => simp [isSegment, IsSegment]
  | cons c cs => simp [isSegment, IsSegment, Text.isInitial]

end Selector

theorem IsSegment.forall_mem {cs : List Char} (h : IsSegment cs) :
    ∀ c ∈ cs, Text.isWord c = true ∨ c = '-' := by
  obtain ⟨c, rest, rfl, hc, hrest⟩ := h
  refine List.forall_mem_cons.mpr ⟨.inl ?_, hrest⟩
  rcases hc with hc | rfl
  · simp [Text.isWord, Char.isAlphanum, hc]
  · rfl

theorem IsSegment.notMem {cs : List Char} (h : IsSegment cs) {c : Char}
    (hword : Text.isWord c = false) (hhyphen : c ≠ '-') : c ∉ cs := by
  intro hc
  simpa [hword, hhyphen] using h.forall_mem c hc

namespace Selector

theorem isPlainName_iff {cs : List Char} : isPlainName cs = true ↔ (Name.ofChars cs).IsPlain := by
  simp only [isPlainName, List.all_eq_true, isSegment_iff, Name.IsPlain, Name.chars_ofChars]
  constructor
  · intro h
    exact ⟨_, Text.pieces_ne_nil _ _, h, by
      rw [← Text.joinWith_eq_intercalate]
      exact (Text.joinWith_pieces '.' cs).symm⟩
  · intro h
    obtain ⟨segments, hne, hsegments, rfl⟩ := h
    have hpieces : Text.pieces Name.isDot (['.'].intercalate segments) = segments := by
      rw [Text.pieces_eq_splitOnP]
      refine List.splitOn_intercalate '.' (fun p hp => ?_) hne
      exact (hsegments p hp).notMem rfl (by decide)
    rwa [hpieces]

end Selector

theorem notMem_intercalate {c : Char} (hc : c ≠ '.') {segments : List (List Char)}
    (h : ∀ p ∈ segments, c ∉ p) : c ∉ ['.'].intercalate segments := by
  rw [← Text.joinWith_eq_intercalate]
  fun_induction Text.joinWith '.' segments with
  | case1 => simp
  | case2 p => simpa using h
  | case3 p q ps ih =>
    rw [List.forall_mem_cons] at h
    simp [h.1, hc, ih h.2]

/-- A name that may be written has nothing of an ending in it. -/
theorem Name.IsPlain.star_notMem {n : Name} (h : n.IsPlain) : '*' ∉ n.chars := by
  obtain ⟨segments, _, hsegments, hn⟩ := h
  rw [hn]
  exact notMem_intercalate (by decide) fun p hp => (hsegments p hp).notMem rfl (by decide)

namespace Selector

def expression : Selector → String
  | .topLevel => "*"
  | .element n => n.text
  | .children n => n.text ++ ".*"
  | .descendants n => n.text ++ ".**"

def IsPlain (s : Selector) : Prop := ∀ n, s.anchor? = some n → n.IsPlain

theorem split_descendants (front : List Char) :
    split (front ++ ['.', '*', '*']) = (front, .descendants) := by
  simp [split]

theorem split_children (front : List Char) :
    split (front ++ ['.', '*']) = (front, .children) := by
  simp [split]

theorem split_of_notMem {cs : List Char} (h : '*' ∉ cs) : split cs = (cs, .element) := by
  have hreverse : '*' ∉ cs.reverse := by simpa using h
  rw [split]
  split
  · rename_i heq
    simp [heq] at hreverse
  · rename_i heq
    simp [heq] at hreverse
  · rfl

theorem anchor?_split (cs : List Char) (n : Name) : ((split cs).2 n).anchor? = some n := by
  rw [split]
  split <;> rfl

/-- Whatever the ending is, the name in front of it and the selector's own ending are the text. -/
theorem toList_expression_split (cs : List Char) :
    ((split cs).2 (Name.ofChars (split cs).1)).expression.toList = cs := by
  have hback (ending : List Char) {front : List Char} (h : cs.reverse = ending ++ front) :
      front.reverse ++ ending.reverse = cs := by
    rw [← List.reverse_append, ← h, List.reverse_reverse]
  rw [split]
  split
  · rename_i front heq
    simpa [expression, Name.ofChars] using hback ['*', '*', '.'] heq
  · rename_i front heq
    simpa [expression, Name.ofChars] using hback ['*', '.'] heq
  · simp [expression, Name.ofChars]

theorem ofChars?_of_ne {cs : List Char} (h : cs ≠ ['*']) : ofChars? cs =
    if isPlainName (split cs).1 then some ((split cs).2 (Name.ofChars (split cs).1)) else none := by
  rw [ofChars?, if_neg h]

theorem ofChars?_of_split {cs : List Char} {n : Name} {make : Name → Selector} (hn : n.IsPlain)
    (hsplit : split cs = (n.chars, make)) : ofChars? cs = some (make n) := by
  have hcs : cs ≠ ['*'] := by
    intro hcs
    have hstar := hn.star_notMem
    rw [hcs] at hsplit
    rw [← (Prod.mk.inj hsplit).1] at hstar
    simp at hstar
  have hplain : isPlainName n.chars = true := by
    rwa [isPlainName_iff, Name.ofChars_chars]
  rw [ofChars?_of_ne hcs, hsplit, if_pos hplain, Name.ofChars_chars]

theorem ofChars?_eq_some_iff {cs : List Char} {s : Selector} :
    ofChars? cs = some s ↔ s.IsPlain ∧ s.expression.toList = cs := by
  constructor
  · intro h
    by_cases hstar : cs = ['*']
    · obtain rfl : Selector.topLevel = s := by simpa [ofChars?, hstar] using h
      exact ⟨nofun, hstar.symm⟩
    · rw [ofChars?_of_ne hstar, Option.ite_none_right_eq_some, isPlainName_iff] at h
      obtain ⟨hplain, hs⟩ := h
      cases hs
      refine ⟨fun n hn => ?_, toList_expression_split cs⟩
      cases (anchor?_split cs _).symm.trans hn
      exact hplain
  · intro h
    obtain ⟨hplain, rfl⟩ := h
    cases s with
    | topLevel => rfl
    | element n =>
      have hn := hplain n rfl
      exact ofChars?_of_split hn (split_of_notMem hn.star_notMem)
    | children n =>
      have hcs : (children n).expression.toList = n.chars ++ ['.', '*'] := String.toList_append
      exact ofChars?_of_split (hplain n rfl) (hcs ▸ split_children n.chars)
    | descendants n =>
      have hcs : (descendants n).expression.toList = n.chars ++ ['.', '*', '*'] :=
        String.toList_append
      exact ofChars?_of_split (hplain n rfl) (hcs ▸ split_descendants n.chars)

theorem parse_eq_ok_iff_trims {e : String} {s : Selector} :
    parse e = .ok s ↔ s.IsPlain ∧ Text.Trims e s.expression := by
  have hparse : parse e = .ok s ↔ ofChars? (Text.trim e).toList = some s := by
    rw [parse]
    cases ofChars? (Text.trim e).toList <;> simp
  rw [hparse, ofChars?_eq_some_iff, String.toList_inj, eq_comm, Text.trim_eq_iff]

def Describes : Selector → Name → Prop
  | .topLevel, n => '.' ∉ n.chars
  | .element a, n => n = a
  | .children a, n => n.parent = some a
  | .descendants a, n => a ∈ n.ancestors

theorem selects_iff_describes {s : Selector} {n : Name} : s.selects n = true ↔ s.Describes n := by
  cases s with
  | topLevel =>
    rw [selects, beq_iff_eq, Name.depth, List.countP_eq_zero, Describes]
    simp only [Name.isDot, beq_iff_eq]
    exact List.forall_mem_ne'
  | element a =>
    rw [selects, beq_iff_eq]
    exact eq_comm
  | children a => rw [selects, Name.isParentOf, beq_iff_eq, Describes]
  | descendants a => exact Name.mem_ancestors.symm

theorem descendants_of_children {a n : Name} (h : (children a).selects n = true) :
    (descendants a).selects n = true := by
  have hparent : n.parent = some a := selects_iff_describes.mp h
  refine selects_iff_describes.mpr ?_
  rw [Describes, Name.ancestors_of_parent_eq_some hparent]
  exact List.mem_cons_self

theorem exists_isPlain_iff {P : String → Prop} : (∃ s : Selector, s.IsPlain ∧ P s.expression) ↔
    P "*" ∨ ∃ n : Name, n.IsPlain ∧ (P n.text ∨ P (n.text ++ ".*") ∨ P (n.text ++ ".**")) := by
  constructor
  · intro h
    obtain ⟨s, hs, hP⟩ := h
    cases s with
    | topLevel => exact .inl hP
    | element n => exact .inr ⟨n, hs n rfl, .inl hP⟩
    | children n => exact .inr ⟨n, hs n rfl, .inr (.inl hP)⟩
    | descendants n => exact .inr ⟨n, hs n rfl, .inr (.inr hP)⟩
  · intro h
    rcases h with hP | ⟨n, hn, hP⟩
    · exact ⟨.topLevel, nofun, hP⟩
    · have hplain : ∀ m, some n = some m → m.IsPlain := fun m hm => Option.some.inj hm ▸ hn
      rcases hP with hP | hP | hP
      · exact ⟨.element n, hplain, hP⟩
      · exact ⟨.children n, hplain, hP⟩
      · exact ⟨.descendants n, hplain, hP⟩

/-- An expression is read as the selector that it writes, and nothing else is read: between blanks
it holds a star, or the name of an element that may be written, with an ending or none. The selector
selects by the hierarchy of names, the children of an element being some of its descendants. -/
theorem selectors_written :
    (∀ e s, parse e = .ok s ↔ s.IsPlain ∧ Text.Trims e s.expression) ∧
    (∀ e, (∃ s, parse e = .ok s) ↔ Text.Trims e "*" ∨ ∃ n : Name, n.IsPlain ∧
      (Text.Trims e n.text ∨ Text.Trims e (n.text ++ ".*") ∨ Text.Trims e (n.text ++ ".**"))) ∧
    (∀ (s : Selector) (n : Name), s.selects n = true ↔ s.Describes n) ∧
    ∀ a n, (children a).selects n = true → (descendants a).selects n = true := by
  refine ⟨fun e s => parse_eq_ok_iff_trims, fun e => ?_, fun s n => selects_iff_describes,
    fun a n => descendants_of_children⟩
  simp only [parse_eq_ok_iff_trims]
  exact exists_isPlain_iff

end Selector

end StepGraph
