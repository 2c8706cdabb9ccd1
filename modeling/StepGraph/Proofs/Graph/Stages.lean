import StepGraph.Proofs.Graph.Faults

/-!
What can still go wrong once the steps of a view are placed. All names on the roster are those of
elements of the model, and all ends of placed steps are on the roster; so no element and no end
turns out to be missing later on. What is left is a style with a target that cannot be read.
-/
set_option autoImplicit false

namespace StepGraph

def View.styleTargets (v : View) : List String :=
  (v.rules.filterMap Rule.style?).flatMap (·.targets)

structure IsFirstUnreadable (expressions : List String) (e : String) : Prop where
  split : ∃ before after, expressions = before ++ e :: after ∧
    ∀ d ∈ before, ∃ s, Selector.parse d = .ok s
  unreadable : ∀ s, Selector.parse e ≠ .ok s

namespace Selector

theorem unreadable?_eq_some_iff {e : String} {fault : Fault} :
    unreadable? e = some fault ↔
      (∀ s, parse e ≠ .ok s) ∧ fault = .invalidSelector (Text.trim e) := by
  rw [← faultOf_parse, parse]
  cases ofChars? (Text.trim e).toList with
  | some s => simp [faultOf]
  | none => simp [faultOf, eq_comm]

theorem head?_unreadable_eq_some_iff {expressions : List String} {fault : Fault} :
    (expressions.filterMap unreadable?).head? = some fault ↔
      ∃ e, IsFirstUnreadable expressions e ∧ fault = .invalidSelector (Text.trim e) := by
  rw [List.head?_filterMap, List.findSome?_eq_some_iff]
  simp only [unreadable?_eq_some_iff, unreadable?_eq_none_iff]
  constructor
  · rintro ⟨before, e, after, hsplit, ⟨hunreadable, hfault⟩, hbefore⟩
    exact ⟨e, ⟨⟨before, after, hsplit, hbefore⟩, hunreadable⟩, hfault⟩
  · rintro ⟨e, ⟨⟨before, after, hsplit, hbefore⟩, hunreadable⟩, hfault⟩
    exact ⟨before, e, after, hsplit, ⟨hunreadable, hfault⟩, hbefore⟩

end Selector

theorem View.faultOf_styleMatches_eq_some_iff {v : View} {fault : Fault} :
    faultOf (styleMatches v.rules) = some fault ↔
      ∃ e, IsFirstUnreadable v.styleTargets e ∧ fault = .invalidSelector (Text.trim e) := by
  have hfaults : (v.rules.filterMap Rule.style?).flatMap StyleRule.faults =
      v.styleTargets.filterMap Selector.unreadable? := by
    rw [styleTargets, List.filterMap_flatMap]
    rfl
  rw [faultOf_styleMatches, hfaults, Selector.head?_unreadable_eq_some_iff]

section

variable {model : Model} {options : Options} {v : View} {selected : List Name} {l : Layered}

theorem faultOf_drawPlain_of_place (hsel : selectedElements model v.rules = .ok selected)
    (hl : (v.sceneOf model selected).place options.branchAware v.steps = .ok l) :
    faultOf (v.drawPlain model options) = faultOf (styleMatches v.rules) := by
  have hplaced : firstFault (v.sceneOf model selected).resolve
      (v.placedSteps options.branchAware) = none := by
    rw [← Scene.faultOf_place, hl]
    rfl
  rw [View.faultOf_drawPlain hsel, hplaced, Option.none_or]

/-- Once the steps of a view are placed, in either way, all of its edges can be drawn. Its nodes
fail by the first style target that cannot be read and in no other way, and so does the drawing. -/
theorem faults_of_placed (hsel : selectedElements model v.rules = .ok selected)
    (hl : (v.sceneOf model selected).place options.branchAware v.steps = .ok l) :
    edgesOf options.theme (v.rosterOf model selected).order l.placed =
      .ok (l.placed.map (edgeOf options.theme (v.rosterOf model selected).order)) ∧
    (∀ fault, nodesOf model (v.rosterOf model selected) v.rules options.theme = .error fault ↔
      ∃ e, IsFirstUnreadable v.styleTargets e ∧ fault = .invalidSelector (Text.trim e)) ∧
    ∀ fault, v.draw model options = .error fault ↔
      ∃ e, IsFirstUnreadable v.styleTargets e ∧
        fault = { viewId := v.id, cause := .invalidSelector (Text.trim e) } := by
  refine ⟨edgesOf_eq_ok fun p hp => Scene.ends_mem_of_place hl hp, fun fault => ?_, fun fault => ?_⟩
  · rw [← faultOf_eq_some_iff, faultOf_nodesOf (enrols_rosterOf hsel),
      View.faultOf_styleMatches_eq_some_iff]
  · rw [View.draw, mapError_eq_error_iff]
    simp only [← faultOf_eq_some_iff, faultOf_drawPlain_of_place hsel hl,
      View.faultOf_styleMatches_eq_some_iff]
    constructor
    · rintro ⟨cause, ⟨e, he, rfl⟩, rfl⟩
      exact ⟨e, he, rfl⟩
    · rintro ⟨e, he, rfl⟩
      exact ⟨_, ⟨e, he, rfl⟩, rfl⟩

end

/-- Two of the targets cannot be read; the first of these stands behind two that can. -/
def garishView : View :=
  { checkoutView with
    id := "garish"
    rules := [.styling { targets := ["shop.**"] }, .including ["shop"],
      .styling { targets := ["bank", " shop..web "] }, .styling { targets := ["1st"] }] }

theorem isFirstUnreadable_garish : IsFirstUnreadable garishView.styleTargets " shop..web " where
  split := by
    refine ⟨["shop.**", "bank"], ["1st"], rfl, fun d hd => Selector.unreadable?_eq_none_iff.mp ?_⟩
    revert d
    decide +kernel
  unreadable := by
    have h : Selector.unreadable? " shop..web " = some (.invalidSelector "shop..web") := by
      decide +kernel
    exact (Selector.unreadable?_eq_some_iff.mp h).1

theorem faults_of_placed_garish :
    selectedElements checkoutModel garishView.rules = .ok [⟨"shop"⟩] ∧
    ∃ l, (garishView.sceneOf checkoutModel [⟨"shop"⟩]).place true garishView.steps = .ok l ∧
      edgesOf .standard (garishView.rosterOf checkoutModel [⟨"shop"⟩]).order l.placed =
        .ok (l.placed.map
          (edgeOf .standard (garishView.rosterOf checkoutModel [⟨"shop"⟩]).order)) ∧
      nodesOf checkoutModel (garishView.rosterOf checkoutModel [⟨"shop"⟩]) garishView.rules
        .standard = .error (.invalidSelector "shop..web") ∧
      garishView.draw checkoutModel { branchAware := true } =
        .error { viewId := "garish", cause := .invalidSelector "shop..web" } := by
  have hsel : selectedElements checkoutModel garishView.rules = .ok [⟨"shop"⟩] := by
    decide +kernel
  obtain ⟨l, hl⟩ : ∃ l, (garishView.sceneOf checkoutModel [⟨"shop"⟩]).place true
      garishView.steps = .ok l := faultOf_eq_none_iff.mp (by decide +kernel)
  have htrim : Text.trim " shop..web " = "shop..web" := by decide +kernel
  obtain ⟨hedges, hnodes, hdraw⟩ :=
    @faults_of_placed checkoutModel { branchAware := true } garishView _ l hsel hl
  refine ⟨hsel, l, hl, hedges, (hnodes _).mpr ?_, (hdraw _).mpr ?_⟩
  · exact ⟨_, isFirstUnreadable_garish, by rw [htrim]⟩
  · exact ⟨_, isFirstUnreadable_garish, by rw [htrim]; rfl⟩

end StepGraph
