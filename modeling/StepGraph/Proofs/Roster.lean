import Mathlib.Data.List.Induction
import Mathlib.Data.List.Nodup
import Mathlib.Data.List.Perm.Basic
import StepGraph.Proofs.Name.ParentsFirst
import StepGraph.Proofs.Outcome
import StepGraph.Roster

/-!
The elements on a roster. They are the selected elements and those referred to, each once, and no
element stands before one around it; how often and in which order elements are referred to matters
to nothing but their order.
-/
set_option autoImplicit false

namespace StepGraph

section

variable {α : Type} [BEq α] [LawfulBEq α]

theorem eraseDups_concat_of_mem {xs : List α} {a : α} (h : a ∈ xs) :
    (xs ++ [a]).eraseDups = xs.eraseDups := by
  simp [List.eraseDups_append, List.removeAll, h]

theorem eraseDups_concat_of_notMem {xs : List α} {a : α} (h : a ∉ xs) :
    (xs ++ [a]).eraseDups = xs.eraseDups ++ [a] := by
  simp [List.eraseDups_append, List.removeAll, h, List.eraseDups_cons]

theorem eraseDups_filter (p : α → Bool) (xs : List α) :
    (xs.filter p).eraseDups = xs.eraseDups.filter p := by
  induction xs using List.reverseRecOn with
  | nil => rfl
  | append_singleton xs a ih =>
    rw [List.filter_append]
    by_cases ha : a ∈ xs
    · rw [eraseDups_concat_of_mem ha, ← ih]
      cases hp : p a with
      | false => simp [hp]
      | true => simp [hp, eraseDups_concat_of_mem, ha]
    · rw [eraseDups_concat_of_notMem ha, List.filter_append, ← ih]
      cases hp : p a with
      | false => simp [hp]
      | true => simp [hp, eraseDups_concat_of_notMem, ha]

theorem eraseDups_of_nodup {xs : List α} (h : xs.Nodup) : xs.eraseDups = xs := by
  induction xs using List.reverseRecOn with
  | nil => rfl
  | append_singleton xs a ih =>
    obtain ⟨hxs, _, hdisjoint⟩ := List.nodup_append'.mp h
    have ha : a ∉ xs := fun ha => hdisjoint ha (List.mem_singleton_self a)
    rw [eraseDups_concat_of_notMem ha, ih hxs]

theorem pairwise_idxOf_eraseDups (xs : List α) :
    xs.eraseDups.Pairwise fun a b => xs.idxOf a < xs.idxOf b := by
  induction xs using List.reverseRecOn with
  | nil => exact .nil
  | append_singleton xs a ih =>
    have hbefore : xs.eraseDups.Pairwise fun b c => (xs ++ [a]).idxOf b < (xs ++ [a]).idxOf c := by
      refine ih.imp_of_mem fun {b c} hb hc hbc => ?_
      rw [List.mem_eraseDups] at hb hc
      rwa [List.idxOf_append_of_mem hb, List.idxOf_append_of_mem hc]
    by_cases ha : a ∈ xs
    · rwa [eraseDups_concat_of_mem ha]
    · rw [eraseDups_concat_of_notMem ha, List.pairwise_append]
      refine ⟨hbefore, List.pairwise_singleton _ _, fun b hb c hc => ?_⟩
      rw [List.mem_eraseDups] at hb
      have hlt := List.idxOf_lt_length_iff.mpr hb
      rw [List.mem_singleton.mp hc, List.idxOf_append_of_mem hb, List.idxOf_append_of_notMem ha]
      omega

end

section

variable {names more : List Name}

@[simp] theorem appendNew_nil (names : List Name) : appendNew names [] = names := rfl

@[simp] theorem appendNew_cons (names : List Name) (n : Name) (more : List Name) :
    appendNew names (n :: more) =
      appendNew (if names.contains n then names else names ++ [n]) more := rfl

@[simp] theorem mem_appendNew {n : Name} : n ∈ appendNew names more ↔ n ∈ names ∨ n ∈ more := by
  induction more generalizing names with
  | nil => simp
  | cons m more ih =>
    rw [appendNew_cons, ih, List.mem_cons]
    split
    · rename_i hm
      rw [List.contains_iff_mem] at hm
      constructor
      · exact fun h => h.imp_right .inr
      · rintro (h | rfl | h)
        · exact .inl h
        · exact .inl hm
        · exact .inr h
    · rw [List.mem_append, List.mem_singleton, or_assoc]

/-- What is new follows in the order of its first occurrences. -/
theorem appendNew_eq (names more : List Name) :
    appendNew names more = names ++ (more.filter fun n => !names.contains n).eraseDups := by
  induction more generalizing names with
  | nil => simp
  | cons n more ih =>
    rw [appendNew_cons, ih]
    by_cases hn : n ∈ names
    · simp [hn]
    · have hrest : (more.filter fun m => !names.contains m).filter (fun m => !m == n) =
          more.filter fun m => !(names ++ [n]).contains m := by
        rw [List.filter_filter]
        refine List.filter_congr fun m _ => ?_
        simp [Bool.beq_eq_decide_eq, Bool.and_comm]
      rw [if_neg (by simpa using hn), List.filter_cons_of_pos (by simpa using hn),
        List.eraseDups_cons, hrest, List.append_assoc, List.singleton_append]

theorem nodup_appendNew (h : names.Nodup) : (appendNew names more).Nodup := by
  induction more generalizing names with
  | nil => exact h
  | cons m more ih =>
    rw [appendNew_cons]
    refine ih ?_
    split
    · exact h
    · rename_i hm
      rw [List.contains_iff_mem] at hm
      exact h.append (List.nodup_singleton m) (by simpa using hm)

end

structure Model.Enrols (model : Model) (names : List Name) : Prop where
  nodup : names.Nodup
  contains : ∀ n ∈ names, model.contains n = true

theorem Model.mem_ids_iff {model : Model} {n : Name} :
    n ∈ model.elements.map (·.id) ↔ model.contains n = true := by
  simp [contains]

namespace Model.Enrols

variable {model : Model} {names selected : List Name}

theorem nil : model.Enrols [] := ⟨List.nodup_nil, List.forall_mem_nil _⟩

theorem appendNew {more : List Name} (h : model.Enrols names)
    (hmore : ∀ n ∈ more, model.contains n = true) : model.Enrols (appendNew names more) where
  nodup := nodup_appendNew h.nodup
  contains n hn := (mem_appendNew.mp hn).elim (h.contains n) (hmore n)

theorem filter (h : model.Enrols names) (p : Name → Bool) : model.Enrols (names.filter p) where
  nodup := h.nodup.filter p
  contains n hn := h.contains n (List.mem_of_mem_filter hn)

theorem addSelected {s : Selector} (h : model.Enrols names)
    (hs : StepGraph.addSelected model names s = .ok selected) : model.Enrols selected := by
  simp only [StepGraph.addSelected, bind_eq_ok_iff, pure_eq_ok_iff] at hs
  obtain ⟨_, _, rfl⟩ := hs
  exact h.appendNew fun n hn => Model.mem_ids_iff.mp (List.mem_of_mem_filter hn)

theorem applyRule {r : Rule} (h : model.Enrols names)
    (hr : StepGraph.applyRule model names r = .ok selected) : model.Enrols selected := by
  cases r with
  | including expressions =>
    simp only [StepGraph.applyRule, bind_eq_ok_iff] at hr
    obtain ⟨selectors, _, hfold⟩ := hr
    exact foldlM_induction (fun _ _ _ hb hc => hb.addSelected hc) h hfold
  | excluding expressions =>
    simp only [StepGraph.applyRule, bind_eq_ok_iff, pure_eq_ok_iff] at hr
    obtain ⟨selectors, _, rfl⟩ := hr
    exact h.filter _
  | styling r =>
    cases hr
    exact h

end Model.Enrols

theorem enrols_selectedElements {model : Model} {rules : List Rule} {selected : List Name}
    (h : selectedElements model rules = .ok selected) : model.Enrols selected :=
  foldlM_induction (fun _ _ _ hb hc => hb.applyRule hc) .nil h

theorem mem_referencedElements {model : Model} {steps : List Step} {n : Name} :
    n ∈ referencedElements model steps ↔
      (∃ i ∈ stepInteractions steps, n ∈ i.endpoints) ∧ model.contains n = true := by
  rw [referencedElements, List.mem_eraseDups, List.mem_filter, List.mem_flatMap]

section

variable {selected referenced : List Name}

theorem Roster.order_perm_appendNew (selected referenced : List Name) :
    (Roster.of selected referenced).order.Perm
      (appendNew (selected.filter referenced.contains) (referenced ++ selected)) :=
  parentsFirst_perm id _

theorem Roster.mem_order {n : Name} :
    n ∈ (Roster.of selected referenced).order ↔ n ∈ selected ∨ n ∈ referenced := by
  rw [(order_perm_appendNew selected referenced).mem_iff, mem_appendNew, List.mem_filter,
    List.mem_append]
  tauto

/-- The elements both selected and referred to come first, then the others referred to and then the
others selected, up to what ancestors pull forward. -/
theorem Roster.order_eq (hs : selected.Nodup) (hr : referenced.Nodup) :
    (Roster.of selected referenced).order = parentsFirst id
      (selected.filter referenced.contains ++
        (referenced.filter (!selected.contains ·) ++ selected.filter (!referenced.contains ·))) := by
  have hboth : ∀ n, (selected.filter referenced.contains).contains n =
      (selected.contains n && referenced.contains n) := by
    intro n
    rw [Bool.eq_iff_iff]
    simp
  have hreferenced : referenced.filter (fun n => !(selected.contains n && referenced.contains n)) =
      referenced.filter (!selected.contains ·) :=
    List.filter_congr fun n hn => by simp [hn]
  have hselected : selected.filter (fun n => !(selected.contains n && referenced.contains n)) =
      selected.filter (!referenced.contains ·) :=
    List.filter_congr fun n hn => by simp [hn]
  have hnodup : (referenced.filter (!selected.contains ·) ++
      selected.filter (!referenced.contains ·)).Nodup := by
    refine (hr.filter _).append (hs.filter _) fun n hn hn' => ?_
    simp [(List.mem_filter.mp hn).1] at hn'
  have horder : (Roster.of selected referenced).order = parentsFirst id
      (appendNew (selected.filter referenced.contains) (referenced ++ selected)) := rfl
  simp only [horder, appendNew_eq, hboth, List.filter_append, hreferenced, hselected,
    eraseDups_of_nodup hnodup]

theorem Roster.nodup_order (h : selected.Nodup) :
    (Roster.of selected referenced).order.Nodup :=
  (order_perm_appendNew selected referenced).nodup_iff.mpr (nodup_appendNew (h.filter _))

theorem Roster.enrols_order {model : Model} (hs : model.Enrols selected)
    (hr : ∀ n ∈ referenced, model.contains n = true) :
    model.Enrols (Roster.of selected referenced).order where
  nodup := nodup_order hs.nodup
  contains n hn := (mem_order.mp hn).elim (hs.contains n) (hr n)

theorem Roster.parentsFirst_order (selected referenced : List Name) :
    ParentsFirst id (Roster.of selected referenced).order := parentsFirst_pairwise _

theorem Roster.order_perm {others : List Name} (hs : selected.Nodup)
    (h : ∀ n, n ∈ referenced ↔ n ∈ others) :
    (Roster.of selected referenced).order.Perm (Roster.of selected others).order := by
  rw [List.perm_ext_iff_of_nodup (nodup_order hs) (nodup_order hs)]
  intro n
  rw [mem_order, mem_order, h]

end

theorem mem_enclosing {names : List Name} (h : ParentsFirst id names) {n : Name} :
    n ∈ enclosing names ↔ n ∈ names ∧ ∃ m ∈ names, n.isAncestorOf m = true := by
  induction names with
  | nil => simp [enclosing]
  | cons a rest ih =>
    obtain ⟨ha, hrest⟩ := List.pairwise_cons.mp h
    have hfirst : n ∈ enclosing (a :: rest) ↔
        n = a ∧ (∃ m ∈ rest, a.isAncestorOf m = true) ∨ n ∈ enclosing rest := by
      rw [enclosing]
      split <;> simp_all
    rw [hfirst, ih hrest, List.mem_cons, List.exists_mem_cons_iff]
    constructor
    · rintro (⟨rfl, hm⟩ | ⟨hn, hm⟩)
      · exact ⟨.inl rfl, .inr hm⟩
      · exact ⟨.inr hn, .inr hm⟩
    · rintro ⟨rfl | hn, hna | hm⟩
      · simp at hna
      · exact .inl ⟨rfl, hm⟩
      · simp [show n.isAncestorOf a = false from ha n hn] at hna
      · exact .inr ⟨hn, hm⟩

theorem Roster.mem_compounds {selected referenced : List Name} {n : Name} :
    n ∈ (Roster.of selected referenced).compounds ↔ n ∈ (Roster.of selected referenced).order ∧
      ∃ m ∈ (Roster.of selected referenced).order, n.isAncestorOf m = true :=
  List.mem_eraseDups.trans (mem_enclosing (parentsFirst_order selected referenced))

theorem Roster.of_eq_of_order_eq {selected referenced chosen others : List Name}
    (h : (Roster.of selected referenced).order = (Roster.of chosen others).order) :
    Roster.of selected referenced = Roster.of chosen others := by
  have hof (selected referenced : List Name) : Roster.of selected referenced =
      { order := (Roster.of selected referenced).order
        compounds := (enclosing (Roster.of selected referenced).order).eraseDups } := rfl
  rw [hof selected referenced, hof chosen others, h]

theorem Roster.mem_compounds_perm {selected referenced others : List Name}
    (h : (Roster.of selected referenced).order.Perm (Roster.of selected others).order) {n : Name} :
    n ∈ (Roster.of selected referenced).compounds ↔ n ∈ (Roster.of selected others).compounds := by
  simp only [mem_compounds, h.mem_iff]

end StepGraph
