import StepGraph.Proofs.Graph.Coverage
import StepGraph.Proofs.Graph.Forest

/-!
How the edges of a graph are filled in. Where its ends stand in the order of nodes decides which way
an edge runs. What else there is to say of it comes from its step, from the relationships that the
step runs along and from the theme, in this order.
-/
set_option autoImplicit false

namespace StepGraph

def Edge.Fills (s : Scene) (theme : Theme) (i : Interaction) (e : Edge) : Prop :=
  ∃ p, s.resolve i = .ok p.content ∧ edgeOf theme s.order p = e

theorem exists_fills_of_draw {model : Model} {options : Options} {v : View} {g : Graph}
    (h : v.draw model options = .ok g) :
    ∃ selected, NestsBy (v.sceneOf model selected).order g ∧
      List.Forall₂ (fun i e => e.Fills (v.sceneOf model selected) options.theme i)
        (v.placedSteps options.branchAware) g.edges := by
  obtain ⟨selected, l, nodes, hsel, hl, hnodes, rfl⟩ := View.draw_eq_ok_iff.mp h
  refine ⟨selected, nestsBy_graphOf hsel hnodes l, ?_⟩
  rw [View.graphOf, List.forall₂_map_right_iff]
  exact (Scene.resolved_of_place hl).imp fun i p hp => ⟨p, hp, rfl⟩

/-- An edge runs back if its step says so or its target stands before its source. So it runs back
when it leads out of its target, and when it leads into it only if the step says so. -/
structure Edge.IsDirected (order : List Name) (i : Interaction) (e : Edge) : Prop where
  source_mem : e.source ∈ order
  target_mem : e.target ∈ order
  back_iff : e.direction = .back ↔
    i.isBackward = true ∨ order.idxOf e.target < order.idxOf e.source
  outward : e.target.isAncestorOf e.source = true → e.direction = .back
  inward : e.source.isSameOrAncestorOf e.target = true →
    (e.direction = .back ↔ i.isBackward = true)

section

variable {order : List Name} {a b : Name}

theorem ParentsFirst.idxOf_lt (h : ParentsFirst id order) (ha : a ∈ order) (hb : b ∈ order)
    (hab : a.isAncestorOf b = true) : order.idxOf a < order.idxOf b :=
  h.lt_of_isAncestorOf (List.getElem?_idxOf ha) (List.getElem?_idxOf hb) hab

theorem ParentsFirst.idxOf_le (h : ParentsFirst id order) (ha : a ∈ order) (hb : b ∈ order)
    (hab : a.isSameOrAncestorOf b = true) : order.idxOf a ≤ order.idxOf b := by
  rcases Name.isSameOrAncestorOf_iff.mp hab with rfl | hab
  · exact Nat.le_refl _
  · exact (h.idxOf_lt ha hb hab).le

end

theorem back_edgeOf_iff {theme : Theme} {order : List Name} {p : Placed Resolved} :
    (edgeOf theme order p).direction = .back ↔ p.content.isBackward = true := by
  rw [edgeOf]
  cases p.content.isBackward <;> simp

theorem isDirected_of_fills {s : Scene} {theme : Theme} {i : Interaction} {e : Edge}
    (hfirst : ParentsFirst id s.order) (h : e.Fills s theme i) : e.IsDirected s.order i := by
  obtain ⟨p, hp, rfl⟩ := h
  obtain ⟨hs, ht, hfill⟩ := Scene.resolve_eq_ok_iff.mp hp
  obtain ⟨hsource, htarget, _⟩ := draws_of_resolve hp theme s.order
  have hback : (edgeOf theme s.order p).direction = .back ↔
      i.isBackward = true ∨ s.order.idxOf i.target < s.order.idxOf i.source := by
    rw [back_edgeOf_iff, ← hfill]
    simp [Scene.fill]
  constructor
  · rwa [hsource]
  · rwa [htarget]
  · rwa [hsource, htarget]
  · rw [hsource, htarget]
    exact fun houtward => hback.mpr (.inr (hfirst.idxOf_lt ht hs houtward))
  · rw [hsource, htarget]
    intro hinward
    have hle := hfirst.idxOf_le hs ht hinward
    exact hback.trans (or_iff_left (Nat.not_lt.mpr hle))

/-- In both numberings the order of nodes, in which no name stands twice, directs the edges. -/
theorem directions_of_draw {model : Model} {options : Options} {v : View} {g : Graph}
    (h : v.draw model options = .ok g) :
    (g.nodes.map (·.id)).Nodup ∧
    List.Forall₂ (fun i e => e.Draws i ∧ e.IsDirected (g.nodes.map (·.id)) i)
      (v.placedSteps options.branchAware) g.edges := by
  obtain ⟨selected, hnests, hfills⟩ := exists_fills_of_draw h
  rw [hnests.ids]
  refine ⟨hnests.nodup, hfills.imp fun i e he => ⟨?_, isDirected_of_fills hnests.first he⟩⟩
  obtain ⟨p, hp, rfl⟩ := he
  exact draws_of_resolve hp _ _

/-- One payment leads to the view itself; two parts of the shop tell the mail the same. -/
def tradeModel : Model where
  elements := checkoutModel.elements
  relationships :=
    [{ id := "pay", source := ⟨"shop.web"⟩, target := ⟨"bank"⟩, title := some "pays"
       color := some "green", navigateTo := some "trade" },
     { id := "sold", source := ⟨"shop.cart"⟩, target := ⟨"mail"⟩, title := some "tells" },
     { id := "empty", source := ⟨"shop.cart.store"⟩, target := ⟨"mail"⟩, title := some "tells" }]

def tradeView : View where
  id := "trade"
  steps := [.single { checkoutCall "shop.web" "bank" with color := some "red" },
    .single (checkoutCall "shop" "mail"),
    .single (checkoutCall "shop.cart.store" "shop.cart"),
    .single { checkoutCall "shop.cart" "shop.cart.store" with isBackward := true },
    .single (checkoutCall "bank" "shop.web")]

theorem exists_draw_trade :
    ∃ g, tradeView.draw tradeModel {} = .ok g ∧
      g.edges.map (fun e => (e.direction, e.relations, e.label)) =
        [(.forward, ["pay"], some "pays"), (.forward, ["sold", "empty"], some "tells"),
         (.back, [], none), (.back, [], none), (.back, [], none)] :=
  exists_ok_of_map_toOption (by decide +kernel)

theorem directions_of_draw_trade :
    ∃ g, tradeView.draw tradeModel {} = .ok g ∧ (g.nodes.map (·.id)).Nodup ∧
      List.Forall₂ (fun i e => e.Draws i ∧ e.IsDirected (g.nodes.map (·.id)) i)
        (tradeView.placedSteps false) g.edges := by
  obtain ⟨g, hg, _⟩ := exists_draw_trade
  exact ⟨g, hg, directions_of_draw hg⟩

/-- The relationships from one end to the other, or where there are none those from inside the one
to inside the other, in the order of the model. -/
structure Model.Joins (model : Model) (source target : Name) (along : List Relationship) :
    Prop where
  direct : (∃ r ∈ model.relationships, r.source = source ∧ r.target = target) →
    along = model.relationships.filter fun r => r.source = source ∧ r.target = target
  nested : (¬∃ r ∈ model.relationships, r.source = source ∧ r.target = target) →
    along = model.relationships.filter fun r =>
      (r.source = source ∨ source.isAncestorOf r.source = true) ∧
        (r.target = target ∨ target.isAncestorOf r.target = true)

theorem Model.joins_relationshipsBetween (model : Model) (source target : Name) :
    model.Joins source target (model.relationshipsBetween source target) := by
  have hdirect : (model.relationships.filter fun r => r.source == source && r.target == target) =
      model.relationships.filter fun r => r.source = source ∧ r.target = target :=
    List.filter_congr fun r _ => by rw [Bool.eq_iff_iff]; simp
  constructor
  · intro h
    rw [relationshipsBetween, hdirect, if_neg]
    simpa using h
  · intro h
    rw [relationshipsBetween, hdirect, if_pos (by simpa using h)]
    refine List.filter_congr fun r _ => ?_
    rw [Bool.eq_iff_iff, Bool.and_eq_true, decide_eq_true_iff, Name.isSameOrAncestorOf_iff,
      Name.isSameOrAncestorOf_iff, eq_comm (a := source), eq_comm (a := target)]

/-- A part that a step may give. If it does not, the only relationship along the step may; if this
one does not either, or there are none or several, the part is `last`. -/
structure Settles (own : Option String) (along : List Relationship)
    (part : Relationship → Option String) (last found : Option String) : Prop where
  given : ∀ a, own = some a → found = some a
  derived : own = none → ∀ r a, along = [r] → part r = some a → found = some a
  left : own = none → (∀ r, along = [r] → part r = none) → found = last

theorem single?_eq_some_iff {along : List Relationship} {r : Relationship} :
    single? along = some r ↔ along = [r] := by
  fun_cases single? along <;> simp_all

theorem settles_or (own : Option String) (along : List Relationship)
    (part : Relationship → Option String) (last : Option String) :
    Settles own along part last ((own.or ((single? along).bind part)).or last) where
  given a h := by rw [h]; rfl
  derived h r a hr ha := by rw [h, single?_eq_some_iff.mpr hr, Option.bind_some, ha]; rfl
  left h hnone := by
    have hbind : (single? along).bind part = none := by
      rw [Option.bind_eq_none_iff]
      exact fun r hr => hnone r (single?_eq_some_iff.mp hr)
    rw [h, hbind]
    rfl

theorem settles_or_none (own : Option String) (along : List Relationship)
    (part : Relationship → Option String) :
    Settles own along part none (own.or ((single? along).bind part)) := by
  have hsettles := settles_or own along part none
  rwa [Option.or_none] at hsettles

theorem settles_getD (own : Option String) (along : List Relationship)
    (part : Relationship → Option String) (last : String) :
    Settles own along part (some last) (some ((own.or ((single? along).bind part)).getD last)) := by
  have hsettles := settles_or own along part (some last)
  rwa [Option.or_some] at hsettles

theorem sharedTitle_eq_some_iff {along : List Relationship} {t : String} :
    sharedTitle along = some t ↔ along ≠ [] ∧ ∀ r ∈ along, r.title = some t := by
  cases along with
  | nil => simp [sharedTitle]
  | cons r rest =>
    rw [sharedTitle, Option.filter_eq_some_iff]
    simp

structure Edge.IsDetailed (theme : Theme) (viewId : String) (along : List Relationship)
    (i : Interaction) (e : Edge) : Prop where
  relations : e.relations = along.map (·.id)
  label : ∃ shared, (∀ t, shared = some t ↔ along ≠ [] ∧ ∀ r ∈ along, r.title = some t) ∧
    Settles i.title along (·.title) shared e.label
  description : Settles i.description along (·.description) none e.description
  technology : Settles i.technology along (·.technology) none e.technology
  kind : Settles i.kind along (·.kind) none e.kind
  color : Settles i.color along (·.color) (some theme.relationColor) (some e.color)
  line : Settles i.line along (·.line) (some theme.relationLine) (some e.line)
  head : Settles i.head along (·.head) (some theme.relationHead) (some e.head)
  tail : Settles i.tail along (·.tail) none e.tail
  legend : e.legend = i.legend
  notes : e.notes = i.notes
  /-- A view does not lead to itself. -/
  navigateTo : ∃ link, Settles i.navigateTo along (·.navigateTo) none link ∧
    (link = some viewId → e.navigateTo = none) ∧ (link ≠ some viewId → e.navigateTo = link)

theorem filter_ne_eq {link : Option String} {viewId : String} :
    (link = some viewId → link.filter (· != viewId) = none) ∧
      (link ≠ some viewId → link.filter (· != viewId) = link) := by
  cases link <;> simp

theorem isDetailed_of_fills {s : Scene} {theme : Theme} {i : Interaction} {e : Edge}
    (h : e.Fills s theme i) :
    e.IsDetailed theme s.viewId (s.model.relationshipsBetween i.source i.target) i := by
  obtain ⟨p, hp, rfl⟩ := h
  obtain ⟨_, _, hfill⟩ := Scene.resolve_eq_ok_iff.mp hp
  simp only [edgeOf, ← hfill, Scene.fill]
  constructor
  · rfl
  · exact ⟨_, fun t => sharedTitle_eq_some_iff, settles_or _ _ _ _⟩
  · exact settles_or_none _ _ _
  · exact settles_or_none _ _ _
  · exact settles_or_none _ _ _
  · exact settles_getD _ _ _ _
  · exact settles_getD _ _ _ _
  · exact settles_getD _ _ _ _
  · exact settles_or_none _ _ _
  · rfl
  · rfl
  · exact ⟨_, settles_or_none _ _ _, filter_ne_eq⟩

/-- In both numberings an edge is told by its step; what the step leaves open is taken from the
relationships along it, and then from the theme. -/
theorem details_of_draw {model : Model} {options : Options} {v : View} {g : Graph}
    (h : v.draw model options = .ok g) :
    List.Forall₂ (fun i e => e.Draws i ∧ ∃ along, model.Joins i.source i.target along ∧
      e.IsDetailed options.theme v.id along i) (v.placedSteps options.branchAware) g.edges := by
  obtain ⟨selected, _, hfills⟩ := exists_fills_of_draw h
  refine hfills.imp fun i e he => ⟨?_, _, model.joins_relationshipsBetween _ _, ?_⟩
  · obtain ⟨p, hp, rfl⟩ := he
    exact draws_of_resolve hp _ _
  · exact isDetailed_of_fills he

theorem details_of_draw_trade :
    ∃ g, tradeView.draw tradeModel {} = .ok g ∧
      List.Forall₂ (fun i e => e.Draws i ∧ ∃ along, tradeModel.Joins i.source i.target along ∧
        e.IsDetailed .standard "trade" along i) (tradeView.placedSteps false) g.edges := by
  obtain ⟨g, hg, _⟩ := exists_draw_trade
  exact ⟨g, hg, details_of_draw hg⟩

end StepGraph
