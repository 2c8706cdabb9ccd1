import StepGraph.Proofs.Graph.Coverage
import StepGraph.Proofs.Graph.Nodes

/-!
Which parts of a model a view does not see. Elements that no rule adds and no step refers to, and
relationships that no step runs along, may be put into the model anywhere: a view that could be
drawn before is drawn as it was.
-/
set_option autoImplicit false

namespace StepGraph

/-- The second list is the first one with more items, all of them with the property, put in
anywhere. -/
inductive Inserts {α : Type} (p : α → Prop) : List α → List α → Prop where
  | nil : Inserts p [] []
  | keep (a : α) {xs ys : List α} : Inserts p xs ys → Inserts p (a :: xs) (a :: ys)
  | insert {a : α} {xs ys : List α} : p a → Inserts p xs ys → Inserts p xs (a :: ys)

namespace Inserts

variable {α : Type} {p : α → Prop} {xs ys : List α}

theorem sublist (h : Inserts p xs ys) : xs.Sublist ys := by
  induction h with
  | nil => exact .slnil
  | keep a _ ih => exact ih.cons_cons a
  | insert _ _ ih => exact ih.cons _

theorem filter_eq (h : Inserts p xs ys) {q : α → Bool} (hq : ∀ a, p a → q a = false) :
    ys.filter q = xs.filter q := by
  induction h with
  | nil => rfl
  | keep a _ ih => rw [List.filter_cons, List.filter_cons, ih]
  | insert ha _ ih => rw [List.filter_cons_of_neg (by simp [hq _ ha]), ih]

end Inserts

def View.allSteps (v : View) : List Interaction :=
  v.written ++ v.forks.flatMap fun x => (x.1.shadow.getD []).flatMap (·.interactions)

theorem Fork.mem_shadow_of_mem_lanes {f : Fork} {i : Interaction} (h : i ∈ headsFirst f.lanes) :
    i ∈ (f.shadow.getD []).flatMap (·.interactions) := by
  rw [(headsFirst_perm f.lanes).mem_iff] at h
  rw [lanes] at h
  split at h
  · rename_i hshadow
    rw [hshadow]
    exact h
  · exact absurd h List.not_mem_nil

theorem Step.mem_allSteps_of_mem_interactions {s : Step} {i : Interaction}
    (h : i ∈ s.interactions) : i ∈ s.written ∨
      i ∈ s.forks.flatMap fun x => (x.1.shadow.getD []).flatMap (·.interactions) := by
  induction s using Step.inductOn with
  | single j => exact .inl h
  | chain c => exact .inl h
  | fork f paths ih =>
    rw [Step.interactions_fork] at h
    rw [Step.forks_fork, List.flatMap_cons, List.mem_append]
    split at h
    · obtain ⟨s, hs, hi⟩ := List.mem_flatMap.mp h
      rw [Step.written_fork, List.flatMap_assoc]
      exact (ih s hs hi).imp (fun hw => List.mem_flatMap.mpr ⟨s, hs, hw⟩)
        fun hl => .inr (List.mem_flatMap.mpr ⟨s, hs, hl⟩)
    · exact .inr (.inl (Fork.mem_shadow_of_mem_lanes h))

namespace View

variable {v : View} {i : Interaction}

theorem mem_allSteps_of_mem_interactions (h : i ∈ stepInteractions v.steps) : i ∈ v.allSteps := by
  rw [stepInteractions_eq_flatMap, List.mem_flatMap] at h
  obtain ⟨s, hs, hi⟩ := h
  rw [allSteps, List.mem_append, written, stepsWritten_eq_flatMap, forks, stepForks_eq_flatMap,
    List.flatMap_assoc]
  exact (Step.mem_allSteps_of_mem_interactions hi).imp
    (fun hw => List.mem_flatMap.mpr ⟨s, hs, hw⟩) fun hl => List.mem_flatMap.mpr ⟨s, hs, hl⟩

theorem mem_allSteps_of_mem_placedSteps {branchAware : Bool}
    (h : i ∈ v.placedSteps branchAware) : i ∈ v.allSteps := by
  cases branchAware with
  | false => exact mem_allSteps_of_mem_interactions h
  | true => exact List.mem_append_left _ (v.met_sublist_written.mem h)

end View

/-- The element is new to the model, no rule of the view adds it and no step refers to it. -/
structure View.Overlooks (v : View) (model : Model) (e : Element) : Prop where
  fresh : model.contains e.id = false
  unselected : ∀ expressions, .including expressions ∈ v.rules → ∀ expression ∈ expressions,
    ∀ s, Selector.parse expression = .ok s → s.selects e.id = false
  unreferenced : ∀ i ∈ v.allSteps, e.id ∉ i.endpoints

/-- No step of the view runs from around the source of the relationship to around its target. -/
def View.Bypasses (v : View) (r : Relationship) : Prop :=
  ∀ i ∈ v.allSteps, ¬(i.source.isSameOrAncestorOf r.source = true ∧
    i.target.isSameOrAncestorOf r.target = true)

structure Model.GrowsUnseen (model : Model) (v : View) (grown : Model) : Prop where
  elements : Inserts (v.Overlooks model) model.elements grown.elements
  relationships : Inserts v.Bypasses model.relationships grown.relationships

theorem element?_eq_of_inserts {p : Element → Prop} {model grown : Model}
    (h : Inserts p model.elements grown.elements) {n : Name} (hn : ∀ e, p e → e.id ≠ n) :
    grown.element? n = model.element? n := by
  have hfilter := h.filter_eq (q := (·.id == n)) fun e he => by simp [hn e he]
  rw [Model.element?, Model.element?, ← List.head?_filter, ← List.head?_filter,
    List.filter_reverse, List.filter_reverse, hfilter]

namespace Model.GrowsUnseen

variable {model grown : Model} {v : View}

theorem contains_of_contains (h : model.GrowsUnseen v grown) {n : Name}
    (hn : model.contains n = true) : grown.contains n = true := by
  rw [contains, List.any_eq_true] at hn ⊢
  obtain ⟨e, he, hid⟩ := hn
  exact ⟨e, h.elements.sublist.mem he, hid⟩

theorem element?_eq (h : model.GrowsUnseen v grown) {n : Name} (hn : model.contains n = true) :
    grown.element? n = model.element? n := by
  refine element?_eq_of_inserts h.elements fun e he hid => ?_
  rw [← hid, he.fresh] at hn
  exact absurd hn Bool.false_ne_true

theorem contains_eq (h : model.GrowsUnseen v grown) {i : Interaction} (hi : i ∈ v.allSteps)
    {n : Name} (hn : n ∈ i.endpoints) : grown.contains n = model.contains n := by
  rw [← isSome_element?, ← isSome_element?,
    element?_eq_of_inserts h.elements fun e he hid => he.unreferenced i hi (hid ▸ hn)]

theorem relationshipsBetween_eq (h : model.GrowsUnseen v grown) {i : Interaction}
    (hi : i ∈ v.allSteps) : grown.relationshipsBetween i.source i.target =
      model.relationshipsBetween i.source i.target := by
  have hdirect := h.relationships.filter_eq
    (q := fun r => r.source == i.source && r.target == i.target) fun r hr => by
      rw [Bool.and_eq_false_iff, ← Bool.not_eq_true, ← Bool.not_eq_true, ← not_and_or]
      intro hends
      rw [beq_iff_eq, beq_iff_eq] at hends
      exact hr i hi (by simp [Name.isSameOrAncestorOf, hends])
  have hnested := h.relationships.filter_eq (q := fun r =>
      i.source.isSameOrAncestorOf r.source && i.target.isSameOrAncestorOf r.target) fun r hr => by
      rw [← Bool.not_eq_true, Bool.and_eq_true]
      exact hr i hi
  simp only [relationshipsBetween, hdirect, hnested]

theorem filter_selects_eq (h : model.GrowsUnseen v grown) {expressions : List String}
    (hr : .including expressions ∈ v.rules) {expression : String} (he : expression ∈ expressions)
    {s : Selector} (hs : Selector.parse expression = .ok s) :
    (grown.elements.map (·.id)).filter s.selects =
      (model.elements.map (·.id)).filter s.selects := by
  rw [List.filter_map, List.filter_map]
  exact congrArg _ (h.elements.filter_eq fun e hunseen =>
    hunseen.unselected expressions hr expression he s hs)

theorem addSelected_eq_ok (h : model.GrowsUnseen v grown) {expressions : List String}
    (hr : .including expressions ∈ v.rules) {expression : String} (he : expression ∈ expressions)
    {s : Selector} (hs : Selector.parse expression = .ok s) {names selected : List Name}
    (hok : addSelected model names s = .ok selected) :
    addSelected grown names s = .ok selected := by
  rw [addSelected, bind_eq_ok_iff] at hok ⊢
  obtain ⟨_, hanchor, hnames⟩ := hok
  rw [h.filter_selects_eq hr he hs]
  refine ⟨(), ?_, hnames⟩
  rw [Selector.checkAnchor] at hanchor ⊢
  cases ha : s.anchor? with
  | none => rfl
  | some a =>
    cases hc : model.contains a with
    | true => simp [h.contains_of_contains hc]
    | false => simp [ha, hc] at hanchor

theorem applyRule_eq_ok (h : model.GrowsUnseen v grown) {r : Rule} (hr : r ∈ v.rules)
    {names selected : List Name} (hok : applyRule model names r = .ok selected) :
    applyRule grown names r = .ok selected := by
  cases r with
  | including expressions =>
    rw [applyRule, bind_eq_ok_iff] at hok ⊢
    obtain ⟨selectors, hparse, hfold⟩ := hok
    refine ⟨selectors, hparse, foldlM_eq_ok_of (fun names s hs chosen => ?_) hfold⟩
    obtain ⟨expression, he, hexpression⟩ := exists_of_mem_right (mapM_eq_ok_iff.mp hparse) hs
    exact h.addSelected_eq_ok hr he hexpression
  | excluding expressions => exact hok
  | styling r => exact hok

theorem selectedElements_eq_ok (h : model.GrowsUnseen v grown) {selected : List Name}
    (hok : selectedElements model v.rules = .ok selected) :
    selectedElements grown v.rules = .ok selected :=
  foldlM_eq_ok_of (fun _ _ hr _ => h.applyRule_eq_ok hr) hok

theorem rosterOf_eq (h : model.GrowsUnseen v grown) (selected : List Name) :
    v.rosterOf grown selected = v.rosterOf model selected := by
  refine congrArg (Roster.of selected) (congrArg List.eraseDups (List.filter_congr fun n hn => ?_))
  obtain ⟨i, hi, hend⟩ := List.mem_flatMap.mp hn
  exact h.contains_eq (View.mem_allSteps_of_mem_interactions hi) hend

theorem resolve_eq (h : model.GrowsUnseen v grown) (selected : List Name) {i : Interaction}
    (hi : i ∈ v.allSteps) :
    (v.sceneOf grown selected).resolve i = (v.sceneOf model selected).resolve i := by
  have hcolumn : (v.sceneOf grown selected).column i = (v.sceneOf model selected).column i := by
    funext e
    rw [Scene.column, Scene.column, View.sceneOf, View.sceneOf, h.rosterOf_eq]
  have hfill : (v.sceneOf grown selected).fill i = (v.sceneOf model selected).fill i := by
    funext source target
    simp only [Scene.fill, View.sceneOf, h.relationshipsBetween_eq hi]
  rw [Scene.resolve, Scene.resolve, hcolumn, hfill]

end Model.GrowsUnseen

theorem Walk.run_congr {α : Type} {resolve other : Interaction → Except Fault α}
    {visits : List (Nat × Visit)}
    (h : ∀ i ∈ visits.filterMap (·.2.met?), resolve i = other i) (w : Walk α) :
    run resolve visits w = run other visits w := by
  refine List.foldl_ext _ _ w fun w v hv => ?_
  obtain ⟨root, v⟩ := v
  cases v with
  | enter f p n => rfl
  | meet i =>
    have hi := h i (List.mem_filterMap.mpr ⟨(root, .meet i), hv, rfl⟩)
    simp only [visit, meet, hi]
  | leave => rfl

theorem Scene.place_congr {s t : Scene} {v : View} {branchAware : Bool}
    (h : ∀ i ∈ v.placedSteps branchAware, s.resolve i = t.resolve i) :
    s.place branchAware v.steps = t.place branchAware v.steps := by
  cases branchAware with
  | true =>
    have hmet : ∀ i ∈ (rootVisits 1 v.steps).filterMap (·.2.met?), s.resolve i = t.resolve i := by
      rwa [filterMap_rootVisits 1 0]
    change (Walk.run s.resolve _ _).finish = (Walk.run t.resolve _ _).finish
    rw [Walk.run_congr hmet]
  | false =>
    rw [View.placedSteps_false, ← content_flatNumbers 1, List.forall_mem_map] at h
    change s.placeFlat v.steps = t.placeFlat v.steps
    rw [placeFlat, placeFlat, mapM_congr fun p hp => by rw [h p hp]]

theorem Model.GrowsUnseen.nodesOf_eq {model grown : Model} {v : View}
    (h : model.GrowsUnseen v grown) {roster : Roster} (hroster : model.Enrols roster.order)
    (rules : List Rule) (theme : Theme) :
    nodesOf grown roster rules theme = nodesOf model roster rules theme := by
  rw [nodesOf, nodesOf]
  refine congrArg (styleMatches rules >>= ·) (funext fun styles => ?_)
  rw [mapM_congr fun n hn => by rw [h.element?_eq (hroster.contains n hn)]]

/-- A view that is drawn from a model is drawn the same from the model with more in it, as long as
the elements put in are new to it, are added by no rule and referred to by no step, and the
relationships put in do not run along any step, from inside its source to inside its target. -/
theorem draw_of_growsUnseen {model grown : Model} {options : Options} {v : View} {g : Graph}
    (h : v.draw model options = .ok g) (hgrows : model.GrowsUnseen v grown) :
    v.draw grown options = .ok g := by
  obtain ⟨selected, l, nodes, hsel, hplace, hnodes, rfl⟩ := View.draw_eq_ok_iff.mp h
  have hroster := hgrows.rosterOf_eq selected
  refine View.draw_eq_ok_iff.mpr
    ⟨selected, l, nodes, hgrows.selectedElements_eq_ok hsel, ?_, ?_, ?_⟩
  · rw [← hplace]
    refine Scene.place_congr fun i hi => hgrows.resolve_eq selected ?_
    exact View.mem_allSteps_of_mem_placedSteps hi
  · rw [hroster, hgrows.nodesOf_eq (enrols_rosterOf hsel), hnodes]
  · rw [hroster]

def busierModel : Model where
  elements := { id := ⟨"market"⟩ } :: checkoutModel.elements.take 2 ++
    { id := ⟨"shop.web.page"⟩ } :: checkoutModel.elements.drop 2
  relationships :=
    [{ id := "back", source := ⟨"mail"⟩, target := ⟨"bank"⟩ },
     { id := "nested", source := ⟨"shop.web.page"⟩, target := ⟨"mail"⟩ }]

theorem overlooks_checkout {n : Name} (hfresh : checkoutModel.contains n = false)
    (hshop : n ≠ ⟨"shop"⟩) (hrefers : ∀ i ∈ checkoutView.allSteps, n ∉ i.endpoints) :
    checkoutView.Overlooks checkoutModel { id := n } where
  fresh := hfresh
  unselected expressions hr expression he s hs := by
    obtain rfl : expressions = ["shop"] := by simpa [checkoutView] using hr
    obtain rfl : expression = "shop" := by simpa using he
    have hparse : (Selector.parse "shop").toOption = some (.element ⟨"shop"⟩) := by decide +kernel
    rw [hs] at hparse
    cases hparse
    simpa [Selector.selects] using hshop.symm
  unreferenced := hrefers

theorem growsUnseen_busier : checkoutModel.GrowsUnseen checkoutView busierModel where
  elements := by
    have hmarket : checkoutView.Overlooks checkoutModel { id := ⟨"market"⟩ } :=
      overlooks_checkout (by decide +kernel) (by decide) (by decide +kernel)
    have hpage : checkoutView.Overlooks checkoutModel { id := ⟨"shop.web.page"⟩ } :=
      overlooks_checkout (by decide +kernel) (by decide) (by decide +kernel)
    exact .insert hmarket (.keep _ (.keep _ (.insert hpage
      (.keep _ (.keep _ (.keep _ (.keep _ .nil)))))))
  relationships := by
    have hbypassed : ∀ r ∈ busierModel.relationships, ∀ i ∈ checkoutView.allSteps,
        ¬(i.source.isSameOrAncestorOf r.source = true ∧
          i.target.isSameOrAncestorOf r.target = true) := by
      decide +kernel
    rw [busierModel, List.forall_mem_cons, List.forall_mem_singleton] at hbypassed
    exact .insert hbypassed.1 (.insert hbypassed.2 .nil)

theorem draw_of_growsUnseen_busier :
    ∃ g, checkoutView.draw checkoutModel { branchAware := true } = .ok g ∧
      checkoutModel.GrowsUnseen checkoutView busierModel ∧
      checkoutView.draw busierModel { branchAware := true } = .ok g := by
  obtain ⟨g, hg, _⟩ := exists_draw_checkout
  exact ⟨g, hg, growsUnseen_busier, draw_of_growsUnseen hg growsUnseen_busier⟩

end StepGraph
