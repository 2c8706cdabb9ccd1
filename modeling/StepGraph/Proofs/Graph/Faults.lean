import StepGraph.Proofs.Graph.Entries
import StepGraph.Proofs.Graph.Nodes

/-!
Which fault a drawing ends with. Rules are read one after the other, then steps are resolved, then
styles are read; everything that can be wrong is listed in this order, and the first of it is
reported. A step is at fault if and only if the model lacks one of its ends, since the roster has
all the ends that are in the model.
-/
set_option autoImplicit false

namespace StepGraph

namespace Selector

def read? (expression : String) : Option Selector := ofChars? (Text.trim expression).toList

def unreadable? (expression : String) : Option Fault :=
  if (read? expression).isSome then none else some (.invalidSelector (Text.trim expression))

def unknown? (model : Model) (s : Selector) : Option Fault :=
  s.anchor?.bind fun n => if model.contains n then none else some (.unknownElement n)

theorem parse_eq_ok_iff {expression : String} {s : Selector} :
    parse expression = .ok s ↔ read? expression = some s := by
  rw [parse, read?]
  cases ofChars? (Text.trim expression).toList <;> simp

theorem faultOf_parse (expression : String) :
    faultOf (parse expression) = unreadable? expression := by
  rw [parse, unreadable?, read?]
  cases ofChars? (Text.trim expression).toList <;> rfl

theorem unreadable?_eq_none_iff {expression : String} :
    unreadable? expression = none ↔ ∃ s, parse expression = .ok s := by
  rw [← faultOf_parse, faultOf_eq_none_iff]

theorem faultOf_parseAll (expressions : List String) :
    faultOf (parseAll expressions) = (expressions.filterMap unreadable?).head? := by
  rw [parseAll, faultOf_mapM, List.head?_filterMap]
  simp only [faultOf_parse]

theorem read?_of_parseAll {expressions : List String} {selectors : List Selector}
    (h : parseAll expressions = .ok selectors) : expressions.filterMap read? = selectors := by
  have hread : expressions.map read? = selectors.map some :=
    map_eq_map_of_forall₂ (mapM_eq_ok_iff.mp h) fun _ _ hs => parse_eq_ok_iff.mp hs
  have hid := congrArg (List.filterMap id) hread
  simpa [List.filterMap_map] using hid

theorem faultOf_checkAnchor (model : Model) (s : Selector) :
    faultOf (s.checkAnchor model) = s.unknown? model := by
  rw [checkAnchor, unknown?]
  cases s.anchor? with
  | none => rfl
  | some n => cases hn : model.contains n <;> simp [hn, faultOf]

theorem unknown?_eq_none_iff {model : Model} {s : Selector} :
    s.unknown? model = none ↔ ∀ n, s.anchor? = some n → model.contains n = true := by
  rw [unknown?]
  cases s.anchor? <;> simp

theorem faultOf_addSelected (model : Model) (selected : List Name) (s : Selector) :
    faultOf (addSelected model selected s) = s.unknown? model := by
  rw [addSelected, faultOf_bind_pure, faultOf_checkAnchor]

end Selector

def Rule.expressions : Rule → List String
  | .including expressions => expressions
  | .excluding expressions => expressions
  | .styling r => r.targets

/-- What is wrong with a rule as far as it selects elements; a style is read later. -/
def Rule.faults (model : Model) : Rule → List Fault
  | .including expressions => expressions.filterMap Selector.unreadable? ++
    (expressions.filterMap Selector.read?).filterMap (·.unknown? model)
  | .excluding expressions => expressions.filterMap Selector.unreadable?
  | .styling _ => []

def StyleRule.faults (r : StyleRule) : List Fault := r.targets.filterMap Selector.unreadable?

theorem Rule.faultOf_applyRule (model : Model) (selected : List Name) (r : Rule) :
    faultOf (applyRule model selected r) = (r.faults model).head? := by
  cases r with
  | including expressions =>
    have hselect : ∀ selectors, Selector.parseAll expressions = .ok selectors →
        faultOf (selectors.foldlM (addSelected model) selected) =
          ((expressions.filterMap Selector.read?).filterMap (·.unknown? model)).head? := by
      intro selectors h
      rw [Selector.read?_of_parseAll h, List.head?_filterMap]
      exact faultOf_foldlM (Selector.faultOf_addSelected model) selected selectors
    rw [applyRule, faultOf_bind hselect, Selector.faultOf_parseAll, faults, List.head?_append]
  | excluding expressions =>
    rw [applyRule, faultOf_bind_pure, Selector.faultOf_parseAll, faults]
  | styling r => rfl

theorem faultOf_selectedElements (model : Model) (rules : List Rule) :
    faultOf (selectedElements model rules) = (rules.flatMap (·.faults model)).head? := by
  rw [List.head?_flatMap]
  exact faultOf_foldlM (fun selected r => r.faultOf_applyRule model selected) [] rules

theorem faultOf_styleMatches (rules : List Rule) : faultOf (styleMatches rules) =
    ((rules.filterMap Rule.style?).flatMap StyleRule.faults).head? := by
  rw [styleMatches, faultOf_mapM, List.head?_flatMap]
  simp only [faultOf_bind_pure, Selector.faultOf_parseAll, StyleRule.faults]

/-- All expressions of the rule can be read, and if it adds to the view, the model has every element
that it names. -/
structure Rule.IsSound (model : Model) (r : Rule) : Prop where
  readable : ∀ e ∈ r.expressions, ∃ s, Selector.parse e = .ok s
  known : ∀ expressions, r = .including expressions → ∀ e ∈ expressions, ∀ s n,
    Selector.parse e = .ok s → s.anchor? = some n → model.contains n = true

theorem Selector.unknown?_of_read_iff {model : Model} {expressions : List String} :
    (∀ s ∈ expressions.filterMap read?, s.unknown? model = none) ↔
      ∀ e ∈ expressions, ∀ s n, parse e = .ok s → s.anchor? = some n →
        model.contains n = true := by
  simp only [List.mem_filterMap, unknown?_eq_none_iff, parse_eq_ok_iff]
  constructor
  · intro h e he s n hs
    exact h s ⟨e, he, hs⟩ n
  · intro h s hs n
    obtain ⟨e, he, hs⟩ := hs
    exact h e he s n hs

theorem Rule.isSound_iff {model : Model} {r : Rule} :
    r.IsSound model ↔ r.faults model = [] ∧ ∀ s, r.style? = some s → s.faults = [] := by
  have hfields : r.IsSound model ↔ _ ∧ _ := ⟨fun h => ⟨h.readable, h.known⟩, fun h => ⟨h.1, h.2⟩⟩
  rw [hfields]
  cases r with
  | including expressions =>
    simp [faults, style?, Rule.expressions, Selector.unreadable?_eq_none_iff,
      ← Selector.unknown?_of_read_iff]
  | excluding expressions =>
    simp [faults, style?, Rule.expressions, Selector.unreadable?_eq_none_iff]
  | styling s =>
    simp [faults, style?, Rule.expressions, StyleRule.faults, Selector.unreadable?_eq_none_iff]

def Interaction.unresolved? (known : Name → Bool) (i : Interaction) (e : Endpoint) : Option Fault :=
  if known (i.endpoint e) then none else some (i.unresolved e)

/-- What is wrong with a step: its ends that are not known, the source first. -/
def Interaction.faults (known : Name → Bool) (i : Interaction) : List Fault :=
  [.source, .target].filterMap (i.unresolved? known)

theorem Interaction.faults_eq_nil_iff {known : Name → Bool} {i : Interaction} :
    i.faults known = [] ↔ known i.source = true ∧ known i.target = true := by
  have hend : ∀ e, i.unresolved? known e = none ↔ known (i.endpoint e) = true := by
    intro e
    rw [unresolved?]
    split <;> simp_all
  simp [faults, hend, endpoint]

namespace Scene

theorem faultOf_column (s : Scene) (i : Interaction) (e : Endpoint) :
    faultOf (s.column i e) = i.unresolved? s.order.contains e := by
  rw [column, Interaction.unresolved?]
  by_cases h : i.endpoint e ∈ s.order
  · simp [idxOf?_of_mem h, h, faultOf]
  · simp [List.idxOf?_eq_none_iff.mpr h, h, faultOf]

theorem faultOf_resolve (s : Scene) (i : Interaction) :
    faultOf (s.resolve i) = (i.faults s.order.contains).head? := by
  have htarget : ∀ m, s.column i .source = .ok m → faultOf (do
      let n ← s.column i .target
      return s.fill i m n) = faultOf (s.column i .target) := fun m _ => faultOf_bind_pure _ _
  rw [resolve, faultOf_bind htarget, faultOf_column, faultOf_column, Interaction.faults,
    List.head?_filterMap, List.findSome?_cons, List.findSome?_cons]
  cases i.unresolved? s.order.contains .source with
  | some fault => rfl
  | none => cases i.unresolved? s.order.contains .target <;> rfl

theorem firstFault_eq (s : Scene) (steps : List Interaction) :
    firstFault s.resolve steps = (steps.flatMap (·.faults s.order.contains)).head? := by
  rw [firstFault, List.head?_flatMap]
  simp only [faultOf_resolve]

end Scene

theorem View.contains_order {model : Model} {v : View} {selected : List Name}
    (hsel : selectedElements model v.rules = .ok selected) {i : Interaction}
    (hi : i ∈ stepInteractions v.steps) (e : Endpoint) :
    (v.sceneOf model selected).order.contains (i.endpoint e) = model.contains (i.endpoint e) := by
  have hend : i.endpoint e ∈ i.endpoints := by
    cases e <;> simp [Interaction.endpoint, Interaction.endpoints]
  rw [Bool.eq_iff_iff, List.contains_iff_mem]
  constructor
  · exact (enrols_rosterOf hsel).contains _
  · intro h
    exact Roster.mem_order.mpr (.inr (mem_referencedElements.mpr ⟨⟨i, hi, hend⟩, h⟩))

theorem View.drawPlain_eq_error {model : Model} {options : Options} {v : View} {fault : Fault}
    (hsel : selectedElements model v.rules = .error fault) :
    v.drawPlain model options = .error fault := by
  rw [drawPlain, hsel]
  rfl

theorem View.faultOf_drawPlain {model : Model} {options : Options} {v : View}
    {selected : List Name} (hsel : selectedElements model v.rules = .ok selected) :
    faultOf (v.drawPlain model options) =
      (firstFault (v.sceneOf model selected).resolve (v.placedSteps options.branchAware)).or
        (faultOf (styleMatches v.rules)) := by
  rw [← Scene.faultOf_place, ← faultOf_nodesOf (enrols_rosterOf hsel) v.rules options.theme,
    drawPlain, hsel, ok_bind]
  refine faultOf_bind fun l hl => ?_
  -- The ends of placed steps are on the roster, so that every edge can be drawn.
  have hedges := @edgesOf_eq_ok options.theme _ _ fun p hp => Scene.ends_mem_of_place hl hp
  rw [hedges]
  exact faultOf_bind_pure _ _

def View.faults (model : Model) (v : View) : List Fault :=
  v.rules.flatMap (·.faults model) ++
    (stepInteractions v.steps).flatMap (·.faults model.contains) ++
    (v.rules.filterMap Rule.style?).flatMap StyleRule.faults

theorem View.faultOf_flat_draw {model : Model} {options : Options} {v : View}
    (hflat : options.branchAware = false) : faultOf (v.draw model options) =
      (v.faults model).head?.map fun cause => { viewId := v.id, cause } := by
  rw [draw, faultOf_mapError, faults, List.head?_append, List.head?_append]
  refine congrArg _ ?_
  rw [← faultOf_selectedElements, ← faultOf_styleMatches]
  cases hsel : selectedElements model v.rules with
  | error fault =>
    rw [drawPlain_eq_error hsel]
    rfl
  | ok selected =>
    -- What the roster lacks of the ends of steps, the model lacks.
    have hsteps : (stepInteractions v.steps).flatMap (·.faults model.contains) =
        (stepInteractions v.steps).flatMap
          (·.faults (v.sceneOf model selected).order.contains) := by
      refine List.flatMap_congr fun i hi => List.filterMap_congr fun e _ => ?_
      rw [Interaction.unresolved?, Interaction.unresolved?, contains_order hsel hi]
    rw [faultOf_drawPlain hsel, hflat, placedSteps_false, Scene.firstFault_eq, ← hsteps]
    rfl

theorem View.faults_eq_nil_iff {model : Model} {v : View} :
    v.faults model = [] ↔ (∀ r ∈ v.rules, r.IsSound model) ∧
      ∀ i ∈ stepInteractions v.steps,
        model.contains i.source = true ∧ model.contains i.target = true := by
  simp only [faults, List.append_eq_nil_iff, List.flatMap_eq_nil_iff, List.mem_filterMap,
    Interaction.faults_eq_nil_iff, Rule.isSound_iff]
  constructor
  · intro h
    obtain ⟨⟨hrules, hsteps⟩, hstyles⟩ := h
    exact ⟨fun r hr => ⟨hrules r hr, fun s hs => hstyles s ⟨r, hr, hs⟩⟩, hsteps⟩
  · intro h
    obtain ⟨hrules, hsteps⟩ := h
    refine ⟨⟨fun r hr => (hrules r hr).1, hsteps⟩, fun s hs => ?_⟩
    obtain ⟨r, hr, hs⟩ := hs
    exact (hrules r hr).2 s hs

/-- A view whose steps are numbered flatly is drawn if and only if its rules are in order and the
model has both ends of every step. If it is not, the first of its faults is reported under its
id. -/
theorem flat_draw_fault {model : Model} {options : Options} {v : View}
    (hflat : options.branchAware = false) :
    ((∃ g, v.draw model options = .ok g) ↔
      (∀ r ∈ v.rules, r.IsSound model) ∧
      ∀ i ∈ stepInteractions v.steps,
        model.contains i.source = true ∧ model.contains i.target = true) ∧
    ∀ fault, v.draw model options = .error fault ↔
      (v.faults model).head? = some fault.cause ∧ fault.viewId = v.id := by
  have hfault := @View.faultOf_flat_draw model options v hflat
  constructor
  · rw [← faultOf_eq_none_iff, hfault, Option.map_eq_none_iff, List.head?_eq_none_iff,
      View.faults_eq_nil_iff]
  · intro fault
    rw [← faultOf_eq_some_iff, hfault, Option.map_eq_some_iff]
    constructor
    · rintro ⟨cause, hcause, rfl⟩
      exact ⟨hcause, rfl⟩
    · rintro ⟨hcause, hid⟩
      exact ⟨fault.cause, hcause, by rw [← hid]⟩

def faultyView : View where
  id := "faulty"
  rules := [.styling { targets := ["1st"] }, .including ["shop", "depot.*"], .excluding [" a..b"]]
  steps := [.single (checkoutCall "nowhere" "shop.web")]

theorem flat_draw_fault_faulty :
    ({} : Options).branchAware = false ∧
    faultyView.faults checkoutModel =
      [.unknownElement ⟨"depot"⟩, .invalidSelector "a..b",
       .unresolvedReference ⟨"nowhere"⟩ .source "", .invalidSelector "1st"] ∧
    faultyView.draw checkoutModel {} =
      .error { viewId := "faulty", cause := .unknownElement ⟨"depot"⟩ } ∧
    (∀ r ∈ checkoutView.rules, r.IsSound checkoutModel) ∧
      ∀ i ∈ stepInteractions checkoutView.steps,
        checkoutModel.contains i.source = true ∧ checkoutModel.contains i.target = true := by
  have hfaults : faultyView.faults checkoutModel = [.unknownElement ⟨"depot"⟩,
      .invalidSelector "a..b", .unresolvedReference ⟨"nowhere"⟩ .source "",
      .invalidSelector "1st"] := by decide +kernel
  obtain ⟨g, hg, _⟩ := exists_flat_draw_checkout
  refine ⟨rfl, hfaults, ?_, (flat_draw_fault rfl).1.mp ⟨g, hg⟩⟩
  refine ((flat_draw_fault rfl).2 _).mpr ⟨?_, rfl⟩
  rw [hfaults, List.head?_cons]

end StepGraph
