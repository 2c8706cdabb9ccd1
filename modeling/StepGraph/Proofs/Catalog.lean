import Mathlib.Data.List.Induction
import StepGraph.Catalog
import StepGraph.Proofs.Outcome

/-!
What a catalog holds after any passes. A graph stays for as long as its view is declared and nothing
newer could be drawn of it, also while the view fails; faults are those of the last pass alone.
-/
set_option autoImplicit false

namespace StepGraph

structure Pass where
  model : Model
  views : List View
  options : Options

namespace Pass

def declares (p : Pass) (id : String) : Bool := p.views.any (·.id == id)

def drawings (p : Pass) (id : String) : List (Except ViewFault Graph) :=
  (p.views.filter (·.id == id)).map (·.draw p.model p.options)

def lastGraph? (p : Pass) (id : String) : Option Graph :=
  ((p.drawings id).filterMap Except.toOption).getLast?

def lastFault? (p : Pass) (id : String) : Option ViewFault :=
  ((p.drawings id).filterMap faultOf).getLast?

/-- The graph is the newest one of the view, and the view was never missing since. -/
def Stands (passes : List Pass) (id : String) (g : Graph) : Prop :=
  ∃ before p later, passes = before ++ p :: later ∧ p.lastGraph? id = some g ∧
    ∀ q ∈ later, q.declares id = true ∧ q.lastGraph? id = none

end Pass

namespace Catalog

def after (passes : List Pass) : Catalog × List ViewFault :=
  passes.foldl (fun s p => s.1.update p.model p.views p.options) ({}, [])

theorem after_concat (passes : List Pass) (p : Pass) :
    after (passes ++ [p]) = (after passes).1.update p.model p.views p.options := by
  simp [after]

theorem get?_note (c : Catalog) (v : View) (d : Except ViewFault Graph) (id : String) :
    (c.note v d).get? id = if v.id == id then d.toOption.or (c.get? id) else c.get? id := by
  cases d <;> simp [note, get?, Except.toOption, Std.TreeMap.getElem?_insert]

theorem fault?_note (c : Catalog) (v : View) (d : Except ViewFault Graph) (id : String) :
    (c.note v d).fault? id = if v.id == id then (faultOf d).or (c.fault? id) else c.fault? id := by
  cases d <;> simp [note, fault?, faultOf, Std.TreeMap.getElem?_insert]

theorem get?_keep (c : Catalog) (views : List View) (id : String) :
    (c.keep views).get? id = if views.any (·.id == id) then c.get? id else none := by
  rw [get?, keep, Std.TreeMap.getElem?_filter', get?]
  cases c.graphs[id]? <;> simp [Option.filter]

/-- A part of drawings that each note of the view replaces is the last one noted. -/
theorem foldl_note {β : Type} (look : Catalog → Option β) (part : Except ViewFault Graph → Option β)
    (id : String) (hnote : ∀ c v d, look (note c v d) =
      if v.id == id then (part d).or (look c) else look c)
    (draw : View → Except ViewFault Graph) (views : List View) (c : Catalog) :
    look ((views.map fun v => (v, draw v)).foldl (fun c d => c.note d.1 d.2) c) =
      ((((views.filter (·.id == id)).map draw).filterMap part).getLast?).or (look c) := by
  induction views generalizing c with
  | nil => rfl
  | cons v rest ih =>
    rw [List.map_cons, List.foldl_cons, ih, hnote, List.filter_cons]
    split
    · rw [List.map_cons, List.filterMap_cons]
      cases part (draw v) with
      | none => rfl
      | some b =>
        rw [List.getLast?_cons]
        cases (((rest.filter (·.id == id)).map draw).filterMap part).getLast? <;> rfl
    · rfl

theorem get?_update (c : Catalog) (p : Pass) (id : String) :
    (c.update p.model p.views p.options).1.get? id =
      (p.lastGraph? id).or (if p.declares id then c.get? id else none) := by
  rw [Pass.declares, ← get?_keep]
  exact foldl_note (·.get? id) Except.toOption id (fun c v d => get?_note c v d id) _ _ _

theorem fault?_update (c : Catalog) (p : Pass) (id : String) :
    (c.update p.model p.views p.options).1.fault? id = p.lastFault? id := by
  refine (foldl_note (·.fault? id) faultOf id (fun c v d => fault?_note c v d id) _ _ _).trans ?_
  simp [Pass.lastFault?, Pass.drawings, keep, fault?]

theorem faults_update (c : Catalog) (p : Pass) :
    (c.update p.model p.views p.options).2 =
      p.views.filterMap fun v => faultOf (v.draw p.model p.options) := by
  simp only [update, List.filterMap_map, Function.comp_def]
  refine List.filterMap_congr fun v _ => ?_
  cases v.draw p.model p.options <;> rfl

theorem stands_concat {passes : List Pass} {p : Pass} {id : String} {g : Graph} :
    Pass.Stands (passes ++ [p]) id g ↔ p.lastGraph? id = some g ∨
      p.lastGraph? id = none ∧ p.declares id = true ∧ Pass.Stands passes id g := by
  constructor
  · rintro ⟨before, q, later, hsplit, hq, hlater⟩
    rcases List.eq_nil_or_concat later with rfl | ⟨later, r, rfl⟩
    · obtain ⟨_, hp⟩ := List.append_inj' hsplit rfl
      have hpq : p = q := by simpa using hp
      exact .inl (hpq ▸ hq)
    · have hconcat : passes ++ [p] = (before ++ q :: later) ++ [r] := by simpa using hsplit
      obtain ⟨hpasses, hp⟩ := List.append_inj' hconcat rfl
      have hpr : p = r := by simpa using hp
      obtain ⟨hdecl, hnone⟩ := hlater r (by simp)
      exact .inr ⟨hpr ▸ hnone, hpr ▸ hdecl, before, q, later, hpasses, hq,
        fun s hs => hlater s (by simp [hs])⟩
  · rintro (hp | ⟨hnone, hdecl, before, q, later, rfl, hq, hlater⟩)
    · exact ⟨passes, p, [], rfl, hp, by simp⟩
    · refine ⟨before, q, later ++ [p], by simp, hq, fun s hs => ?_⟩
      rcases List.mem_append.mp hs with hs | hs
      · exact hlater s hs
      · rw [List.mem_singleton.mp hs]
        exact ⟨hdecl, hnone⟩

theorem get?_after_iff (passes : List Pass) (id : String) (g : Graph) :
    (after passes).1.get? id = some g ↔ Pass.Stands passes id g := by
  induction passes using List.reverseRecOn with
  | nil => simp [after, get?, Pass.Stands]
  | append_singleton passes p ih =>
    rw [after_concat, get?_update, stands_concat, Option.or_eq_some_iff, ← ih]
    split
    · rename_i hdecl
      simp [hdecl]
    · rename_i hdecl
      simp [hdecl]

/-- A graph in the catalog is the newest one of its view, drawn in a pass since which the view was
always declared, and every such graph is there. Faults are those of the last pass: for a view that
of its last declaration that failed, and all of them in the order of the declarations. -/
theorem holds_after (earlier : List Pass) (last : Pass) (id : String) :
    (∀ g, (after (earlier ++ [last])).1.get? id = some g ↔
      Pass.Stands (earlier ++ [last]) id g) ∧
    (after (earlier ++ [last])).1.fault? id = last.lastFault? id ∧
    (after (earlier ++ [last])).2 =
      last.views.filterMap fun v => faultOf (v.draw last.model last.options) := by
  refine ⟨get?_after_iff _ id, ?_, ?_⟩
  · rw [after_concat, fault?_update]
  · rw [after_concat, faults_update]

end Catalog

end StepGraph
