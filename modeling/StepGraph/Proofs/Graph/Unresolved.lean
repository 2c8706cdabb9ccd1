import StepGraph.Proofs.Graph.Coverage
import StepGraph.Proofs.Graph.Faults

/-!
Which step is named when a walk cannot be resolved. Ends are looked up on the roster, and the roster
knows the steps that forks stand for; so where the flat list of a block leaves an element out that
its paths refer to, a step may be named although the model has both of its ends.
-/
set_option autoImplicit false

namespace StepGraph

/-- Both ends of every step before `i` are known, but not its end `e`; the source is named before
the target. -/
structure IsFirstUnknown (known : Name → Bool) (steps : List Interaction) (e : Endpoint)
    (i : Interaction) : Prop where
  split : ∃ before after, steps = before ++ i :: after ∧
    ∀ j ∈ before, known j.source = true ∧ known j.target = true
  unknown : known (i.endpoint e) = false
  source : e = .target → known i.source = true

theorem Interaction.head?_faults_eq_some_iff {known : Name → Bool} {i : Interaction}
    {fault : Fault} : (i.faults known).head? = some fault ↔ ∃ e, i.unresolved e = fault ∧
      known (i.endpoint e) = false ∧ (e = .target → known i.source = true) := by
  have hends : (∃ e, i.unresolved e = fault ∧ known (i.endpoint e) = false ∧
      (e = .target → known i.source = true)) ↔
      (i.unresolved .source = fault ∧ known i.source = false) ∨
        (i.unresolved .target = fault ∧ known i.target = false ∧ known i.source = true) := by
    constructor
    · rintro ⟨e, hfault, hunknown, hsource⟩
      cases e with
      | source => exact .inl ⟨hfault, hunknown⟩
      | target => exact .inr ⟨hfault, hunknown, hsource rfl⟩
    · rintro (⟨hfault, hunknown⟩ | ⟨hfault, hunknown, hsource⟩)
      · exact ⟨.source, hfault, hunknown, by simp⟩
      · exact ⟨.target, hfault, hunknown, fun _ => hsource⟩
  rw [hends, faults, List.head?_filterMap]
  cases hs : known i.source <;> cases ht : known i.target <;>
    simp [unresolved?, endpoint, hs, ht]

theorem head?_faults_eq_some_iff {known : Name → Bool} {steps : List Interaction} {fault : Fault} :
    (steps.flatMap (·.faults known)).head? = some fault ↔
      ∃ i e, IsFirstUnknown known steps e i ∧ i.unresolved e = fault := by
  rw [List.head?_flatMap, List.findSome?_eq_some_iff]
  simp only [Interaction.head?_faults_eq_some_iff, List.head?_eq_none_iff,
    Interaction.faults_eq_nil_iff]
  constructor
  · rintro ⟨before, i, after, hsteps, ⟨e, hfault, hunknown, hsource⟩, hbefore⟩
    exact ⟨i, e, ⟨⟨before, after, hsteps, hbefore⟩, hunknown, hsource⟩, hfault⟩
  · rintro ⟨i, e, ⟨⟨before, after, hsteps, hbefore⟩, hunknown, hsource⟩, hfault⟩
    exact ⟨before, i, after, hsteps, ⟨e, hfault, hunknown, hsource⟩, hbefore⟩

theorem exists_isFirstUnknown {known : Name → Bool} {steps : List Interaction} {reference : Name}
    {endpoint : Endpoint} {origin : String} (h : (steps.flatMap (·.faults known)).head? =
      some (.unresolvedReference reference endpoint origin)) :
    ∃ i, IsFirstUnknown known steps endpoint i ∧ i.endpoint endpoint = reference ∧
      i.origin = origin := by
  obtain ⟨i, e, hi, hfault⟩ := head?_faults_eq_some_iff.mp h
  cases hfault
  exact ⟨i, hi, rfl, rfl⟩

theorem Selector.unreadable?_ne {expression : String} {reference : Name} {endpoint : Endpoint}
    {origin : String} :
    unreadable? expression ≠ some (.unresolvedReference reference endpoint origin) := by
  rw [unreadable?]
  split <;> simp

theorem Selector.unknown?_ne {model : Model} {s : Selector} {reference : Name}
    {endpoint : Endpoint} {origin : String} :
    s.unknown? model ≠ some (.unresolvedReference reference endpoint origin) := by
  rw [unknown?]
  cases s.anchor? with
  | none => simp
  | some n => cases hn : model.contains n <;> simp [hn]

theorem Rule.not_mem_faults {model : Model} {r : Rule} {reference : Name} {endpoint : Endpoint}
    {origin : String} : .unresolvedReference reference endpoint origin ∉ r.faults model := by
  cases r with
  | including expressions => simp [faults, Selector.unreadable?_ne, Selector.unknown?_ne]
  | excluding expressions => simp [faults, Selector.unreadable?_ne]
  | styling r => simp [faults]

theorem StyleRule.not_mem_faults {r : StyleRule} {reference : Name} {endpoint : Endpoint}
    {origin : String} : .unresolvedReference reference endpoint origin ∉ r.faults := by
  simp [faults, Selector.unreadable?_ne]

section

variable {model : Model} {options : Options} {v : View} {reference : Name} {endpoint : Endpoint}
  {origin : String}

theorem selectedElements_ne_error :
    selectedElements model v.rules ≠ .error (.unresolvedReference reference endpoint origin) := by
  intro h
  rw [← faultOf_eq_some_iff, faultOf_selectedElements] at h
  obtain ⟨r, _, hr⟩ := List.mem_flatMap.mp (List.mem_of_head? h)
  exact r.not_mem_faults hr

theorem faultOf_styleMatches_ne :
    faultOf (styleMatches v.rules) ≠ some (.unresolvedReference reference endpoint origin) := by
  intro h
  rw [faultOf_styleMatches] at h
  obtain ⟨r, _, hr⟩ := List.mem_flatMap.mp (List.mem_of_head? h)
  exact r.not_mem_faults hr

/-- Only steps end in an unresolved reference, and they do so by an end that is not on the
roster. -/
theorem View.head?_faults_of_drawPlain
    (h : v.drawPlain model options = .error (.unresolvedReference reference endpoint origin)) :
    ∃ selected, selectedElements model v.rules = .ok selected ∧
      ((v.placedSteps options.branchAware).flatMap
        (·.faults (v.rosterOf model selected).order.contains)).head? =
          some (.unresolvedReference reference endpoint origin) := by
  cases hsel : selectedElements model v.rules with
  | error fault =>
    rw [drawPlain_eq_error hsel] at h
    cases h
    exact absurd hsel selectedElements_ne_error
  | ok selected =>
    refine ⟨selected, rfl, ?_⟩
    rw [← faultOf_eq_some_iff, faultOf_drawPlain hsel, Scene.firstFault_eq,
      Option.or_eq_some_iff] at h
    exact h.resolve_right fun hstyle => faultOf_styleMatches_ne hstyle.2

end

/-- The flat list of the fork, if it has one, refers to every element that the steps written in its
paths refer to. -/
def RefersToAll (x : Fork × List (Path × List Step)) : Prop :=
  x.1.lanes ≠ [] → ∀ i ∈ pathsWritten x.2, ∀ n ∈ i.endpoints,
    ∃ j ∈ headsFirst x.1.lanes, n ∈ j.endpoints

theorem RefersToAll.hidesNothing {x : Fork × List (Path × List Step)} (h : RefersToAll x) :
    HidesNothing x := by
  intro hhollow
  rw [Fork.isHollow, Bool.and_eq_true, Bool.not_eq_true', List.isEmpty_iff] at hhollow
  rw [List.eq_nil_iff_forall_not_mem]
  intro i hi
  obtain ⟨j, hj, _⟩ := h (by simpa using hhollow.1) i hi i.source (by simp [Interaction.endpoints])
  rw [hhollow.2] at hj
  exact List.not_mem_nil hj

theorem Step.exists_refers_of_written {s : Step} (h : ∀ x ∈ s.forks, RefersToAll x)
    {i : Interaction} (hi : i ∈ s.written) {n : Name} (hn : n ∈ i.endpoints) :
    ∃ j ∈ s.interactions, n ∈ j.endpoints := by
  induction s using Step.inductOn with
  | single k => exact ⟨i, hi, hn⟩
  | chain c => exact ⟨i, hi, hn⟩
  | fork f paths ih =>
    rw [Step.forks_fork, List.forall_mem_cons, List.forall_mem_flatMap] at h
    obtain ⟨hf, hinner⟩ := h
    rw [Step.interactions_fork]
    split
    · rw [Step.written_fork, List.mem_flatMap] at hi
      obtain ⟨s, hs, hi⟩ := hi
      obtain ⟨j, hj, hnj⟩ := ih s hs (hinner s hs) hi
      exact ⟨j, List.mem_flatMap.mpr ⟨s, hs, hj⟩, hnj⟩
    · rename_i hl
      exact hf (by simpa using hl) i hi n hn

theorem View.exists_refers_of_written {v : View} (h : ∀ x ∈ v.forks, RefersToAll x)
    {i : Interaction} (hi : i ∈ v.written) {n : Name} (hn : n ∈ i.endpoints) :
    ∃ j ∈ stepInteractions v.steps, n ∈ j.endpoints := by
  rw [View.forks, stepForks_eq_flatMap, List.forall_mem_flatMap] at h
  rw [View.written, stepsWritten_eq_flatMap, List.mem_flatMap] at hi
  obtain ⟨s, hs, hi⟩ := hi
  obtain ⟨j, hj, hnj⟩ := s.exists_refers_of_written (h s hs) hi hn
  rw [stepInteractions_eq_flatMap]
  exact ⟨j, List.mem_flatMap.mpr ⟨s, hs, hj⟩, hnj⟩

theorem View.contains_order_of_refers {model : Model} {v : View} {selected : List Name}
    (hsel : selectedElements model v.rules = .ok selected) {n : Name}
    (h : ∃ j ∈ stepInteractions v.steps, n ∈ j.endpoints) :
    (v.rosterOf model selected).order.contains n = model.contains n := by
  obtain ⟨j, hj, hn⟩ := h
  obtain rfl | rfl : n = j.source ∨ n = j.target := by simpa [Interaction.endpoints] using hn
  · exact contains_order hsel hj .source
  · exact contains_order hsel hj .target

/-- Where all flat lists refer to enough, the roster lacks what the model lacks. -/
theorem View.faults_written {model : Model} {v : View} {selected : List Name}
    (hsel : selectedElements model v.rules = .ok selected) (h : ∀ x ∈ v.forks, RefersToAll x) :
    v.written.flatMap (·.faults (v.rosterOf model selected).order.contains) =
      v.written.flatMap (·.faults model.contains) := by
  refine List.flatMap_congr fun i hi => List.filterMap_congr fun e _ => ?_
  have hend : i.endpoint e ∈ i.endpoints := by
    cases e <;> simp [Interaction.endpoint, Interaction.endpoints]
  have hknown := contains_order_of_refers hsel (exists_refers_of_written h hi hend)
  rw [Interaction.unresolved?, Interaction.unresolved?, hknown]

/-- Where a walk ends in an unresolved reference, the step named is the first one met with an end
that is not on the roster. The model lacks the element named, too, if a step that the forks stand
for refers to it. So it does where every flat list refers to all that the paths under it refer to,
and then the step is the first of all written ones with an end that the model lacks. -/
theorem unresolved_of_draw {model : Model} {options : Options} {v : View} {reference : Name}
    {endpoint : Endpoint} {origin id : String} (haware : options.branchAware = true)
    (h : v.draw model options =
      .error { viewId := id, cause := .unresolvedReference reference endpoint origin }) :
    (∃ selected, selectedElements model v.rules = .ok selected ∧
      ∃ i, IsFirstUnknown (v.rosterOf model selected).order.contains (v.sites.map (·.step))
        endpoint i ∧ i.endpoint endpoint = reference ∧ i.origin = origin) ∧
    ((∃ j ∈ stepInteractions v.steps, reference ∈ j.endpoints) →
      model.contains reference = false) ∧
    ((∀ x ∈ v.forks, x.1.lanes ≠ [] → ∀ i ∈ pathsWritten x.2, ∀ n ∈ i.endpoints,
        ∃ j ∈ headsFirst x.1.lanes, n ∈ j.endpoints) →
      model.contains reference = false ∧
      ∃ i, IsFirstUnknown model.contains v.written endpoint i ∧
        i.endpoint endpoint = reference ∧ i.origin = origin) := by
  have hplain : v.drawPlain model options =
      .error (.unresolvedReference reference endpoint origin) := by
    rw [View.draw, mapError_eq_error_iff] at h
    obtain ⟨fault, hplain, hfault⟩ := h
    cases hfault
    exact hplain
  obtain ⟨selected, hsel, hhead⟩ := View.head?_faults_of_drawPlain hplain
  rw [haware, View.placedSteps_true] at hhead
  obtain ⟨i, hi, hreference, horigin⟩ := exists_isFirstUnknown hhead
  refine ⟨⟨selected, hsel, i, hi, hreference, horigin⟩, fun hrefers => ?_, fun hall => ?_⟩
  · rw [← View.contains_order_of_refers hsel hrefers, ← hreference]
    exact hi.unknown
  · rw [v.met_eq_written_iff.mpr fun x hx => RefersToAll.hidesNothing (hall x hx),
      View.faults_written hsel hall] at hhead
    obtain ⟨j, hj, hname, hplace⟩ := exists_isFirstUnknown hhead
    exact ⟨hname ▸ hj.unknown, j, hj, hname, hplace⟩

def strayView : View where
  id := "stray"
  rules := [.including ["shop.*"]]
  steps :=
    let move := flatFork "move"
      [.chain { members := [checkoutCall "shop.web" "shop.cart",
          { checkoutCall "shop.cart" "depot" with origin := "/steps@1" }] },
       .single (checkoutCall "bank" "mail")]
    [.single (checkoutCall "shop.web" "bank"),
     .fork { id := "ship", kind := .alternate }
       [({ id := "now" }, [.fork move.1 move.2, .single (checkoutCall "dock" "shop.web")])]]

theorem unresolved_of_draw_stray :
    ({ branchAware := true } : Options).branchAware = true ∧
    strayView.draw checkoutModel { branchAware := true } = .error
      { viewId := "stray", cause := .unresolvedReference ⟨"depot"⟩ .target "/steps@1" } ∧
    (∀ x ∈ strayView.forks, RefersToAll x) ∧
    checkoutModel.contains ⟨"depot"⟩ = false ∧
    ∃ i, IsFirstUnknown checkoutModel.contains strayView.written .target i ∧
      i.endpoint .target = ⟨"depot"⟩ ∧ i.origin = "/steps@1" := by
  have hdraw : strayView.draw checkoutModel { branchAware := true } = .error
      { viewId := "stray", cause := .unresolvedReference ⟨"depot"⟩ .target "/steps@1" } :=
    faultOf_eq_some_iff.mp (by decide +kernel)
  have hrefers : ∀ x ∈ strayView.forks, RefersToAll x := by
    refine List.forall_mem_cons.mpr ⟨fun hl => absurd rfl hl, ?_⟩
    refine List.forall_mem_cons.mpr ⟨fun _ => ?_, List.forall_mem_nil _⟩
    decide +kernel
  obtain ⟨_, _, hclaim⟩ := unresolved_of_draw rfl hdraw
  exact ⟨rfl, hdraw, hrefers, hclaim hrefers⟩

/-- The flat list of the block leaves out `c`, to which the second path refers. -/
def lapsedView : View where
  id := "lapsed"
  steps :=
    [.fork { id := "par", kind := .parallel, shadow := some [.single (checkoutCall "a" "b")] }
      [({ id := "par-path-1" }, [.single (checkoutCall "a" "b")]),
       ({ id := "par-path-2" }, [.single (checkoutCall "b" "c")])]]

def lapsedModel : Model where
  elements := ["a", "b", "c"].map fun n => { id := ⟨n⟩ }

theorem known_reference_unresolved :
    lapsedView.draw lapsedModel { branchAware := true } = .error
      { viewId := "lapsed", cause := .unresolvedReference ⟨"c"⟩ .target "" } ∧
    lapsedModel.contains ⟨"c"⟩ = true ∧
    ∀ i ∈ lapsedView.written,
      lapsedModel.contains i.source = true ∧ lapsedModel.contains i.target = true :=
  ⟨faultOf_eq_some_iff.mp (by decide +kernel), by decide +kernel, by decide +kernel⟩

end StepGraph
