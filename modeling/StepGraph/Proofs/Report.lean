import StepGraph.Proofs.Catalog
import StepGraph.Proofs.Drawing
import StepGraph.Report

/-!
What a report lists. Its graphs are those that a pass leaves in an empty catalog, in the order of
their ids, so one report lists a part of another's just if the catalogs agree on that part. Its
faults are those of the declarations in their order.
-/
set_option autoImplicit false

namespace StepGraph

namespace Catalog

def IsKeyed (c : Catalog) : Prop := ∀ id g, c.get? id = some g → g.id = id

theorem toList_eq (c : Catalog) : c.toList = c.graphs.toList.map Prod.snd := by
  have hfold : c.toList = c.graphs.foldr (fun _ g gs => g :: gs) [] := rfl
  rw [hfold, Std.TreeMap.foldr_eq_foldr_toList]
  induction c.graphs.toList with
  | nil => rfl
  | cons e rest ih => rw [List.foldr_cons, ih, List.map_cons]

theorem mem_toList_graphs {c : Catalog} {id : String} {g : Graph} :
    (id, g) ∈ c.graphs.toList ↔ c.get? id = some g :=
  Std.TreeMap.mem_toList_iff_getElem?_eq_some

theorem IsKeyed.mem_toList {c : Catalog} (h : c.IsKeyed) {g : Graph} :
    g ∈ c.toList ↔ c.get? g.id = some g := by
  rw [toList_eq, List.mem_map]
  constructor
  · rintro ⟨⟨id, g⟩, hg, rfl⟩
    rw [mem_toList_graphs] at hg
    exact (h id g hg).symm ▸ hg
  · exact fun hg => ⟨(g.id, g), mem_toList_graphs.mpr hg, rfl⟩

theorem IsKeyed.get?_eq_some_iff {c : Catalog} (h : c.IsKeyed) {id : String} {g : Graph} :
    c.get? id = some g ↔ g ∈ c.toList ∧ g.id = id := by
  rw [h.mem_toList]
  constructor
  · intro hg
    have hid := h id g hg
    exact ⟨hid.symm ▸ hg, hid⟩
  · rintro ⟨hg, rfl⟩
    exact hg

theorem nodup_toList_graphs (c : Catalog) : c.graphs.toList.Nodup := by
  refine Std.TreeMap.distinct_keys_toList.imp fun {a b} hab heq => hab ?_
  rw [heq]
  exact Std.ReflCmp.compare_self

theorem IsKeyed.toList_eq_iff {c d : Catalog} (hc : c.IsKeyed) (hd : d.IsKeyed) :
    c.toList = d.toList ↔ ∀ id, c.get? id = d.get? id := by
  constructor
  · intro h id
    ext g
    rw [hc.get?_eq_some_iff, h, hd.get?_eq_some_iff]
  · intro h
    refine (Std.TreeMap.Equiv.of_toList_perm ?_).values_eq
    rw [List.perm_ext_iff_of_nodup c.nodup_toList_graphs d.nodup_toList_graphs]
    rintro ⟨id, g⟩
    rw [mem_toList_graphs, mem_toList_graphs, h id]

def only (c : Catalog) (keep : String → Bool) : Catalog where
  graphs := c.graphs.filter fun id _ => keep id

theorem get?_only (c : Catalog) (keep : String → Bool) (id : String) :
    (c.only keep).get? id = if keep id then c.get? id else none := by
  rw [get?, only, Std.TreeMap.getElem?_filter', get?]
  cases c.graphs[id]? <;> simp [Option.filter]

theorem IsKeyed.toList_only {c : Catalog} (h : c.IsKeyed) (keep : String → Bool) :
    (c.only keep).toList = c.toList.filter (keep ·.id) := by
  rw [toList_eq, toList_eq, only, Std.TreeMap.toList_filter, List.filter_map]
  refine congrArg _ (List.filter_congr fun e he => ?_)
  rw [Function.comp_apply, h e.1 e.2 (mem_toList_graphs.mp he)]

theorem IsKeyed.only {c : Catalog} (h : c.IsKeyed) (keep : String → Bool) :
    (c.only keep).IsKeyed := by
  intro id g hg
  rw [get?_only] at hg
  split at hg
  · exact h id g hg
  · cases hg

/-- A catalog lists what another one lists of some ids just if it agrees with it on them. -/
theorem toList_eq_filter_iff {c d : Catalog} (hc : c.IsKeyed) (hd : d.IsKeyed)
    (keep : String → Bool) : c.toList = d.toList.filter (keep ·.id) ↔
      ∀ id, c.get? id = if keep id then d.get? id else none := by
  rw [← hd.toList_only, hc.toList_eq_iff (hd.only keep)]
  simp only [get?_only]

end Catalog

theorem View.id_of_draw {model : Model} {options : Options} {v : View} {g : Graph}
    (h : v.draw model options = .ok g) : g.id = v.id := by
  obtain ⟨selected, l, nodes, _, _, _, rfl⟩ := View.draw_eq_ok_iff.mp h
  rfl

theorem View.viewId_of_draw {model : Model} {options : Options} {v : View} {f : ViewFault}
    (h : v.draw model options = .error f) : f.viewId = v.id := by
  obtain ⟨cause, _, rfl⟩ := mapError_eq_error_iff.mp h
  rfl

namespace Pass

theorem mem_drawings {p : Pass} {id : String} {d : Except ViewFault Graph} :
    d ∈ p.drawings id ↔ ∃ v ∈ p.views, v.id = id ∧ v.draw p.model p.options = d := by
  simp [drawings, and_assoc]

theorem id_of_lastGraph? {p : Pass} {id : String} {g : Graph} (h : p.lastGraph? id = some g) :
    g.id = id := by
  obtain ⟨d, hd, hg⟩ := List.mem_filterMap.mp (List.mem_of_getLast? h)
  obtain ⟨v, _, rfl, rfl⟩ := mem_drawings.mp hd
  cases hdraw : v.draw p.model p.options with
  | ok a =>
    rw [hdraw] at hg
    cases hg
    exact v.id_of_draw hdraw
  | error f =>
    rw [hdraw] at hg
    cases hg

/-- The faults under an id are those of its declarations. -/
theorem filter_faults (p : Pass) (id : String) :
    (p.views.filterMap fun v => faultOf (v.draw p.model p.options)).filter (·.viewId == id) =
      (p.drawings id).filterMap faultOf := by
  rw [drawings, List.filterMap_map, List.filter_filterMap, List.filterMap_filter]
  refine List.filterMap_congr fun v _ => ?_
  rw [Function.comp_apply]
  cases hdraw : v.draw p.model p.options with
  | ok g => simp [faultOf]
  | error f =>
    rw [faultOf, Option.filter_some, v.viewId_of_draw hdraw]

end Pass

namespace Report

def ofPass (p : Pass) : Report := ofViews p.model p.views p.options

def catalogOf (p : Pass) : Catalog := (({} : Catalog).update p.model p.views p.options).1

theorem get?_catalogOf (p : Pass) (id : String) : (catalogOf p).get? id = p.lastGraph? id := by
  rw [catalogOf, Catalog.get?_update]
  simp [Catalog.get?]

theorem isKeyed_catalogOf (p : Pass) : (catalogOf p).IsKeyed := fun id _ h =>
  Pass.id_of_lastGraph? ((get?_catalogOf p id).symm.trans h)

theorem faults_ofPass (p : Pass) : (ofPass p).faults =
    p.views.filterMap fun v => faultOf (v.draw p.model p.options) :=
  Catalog.faults_update {} p

/-- One report is the part of another under some ids: the same graphs in their order, and the same
faults in any order. -/
structure Restricts (r : Report) (keep : String → Bool) (s : Report) : Prop where
  graphs : r.graphs = s.graphs.filter (keep ·.id)
  faults : r.faults.Perm (s.faults.filter (keep ·.viewId))

theorem perm_faults_iff {xs ys : List ViewFault} : xs.Perm ys ↔
    ∀ id, (xs.filter (·.viewId == id)).Perm (ys.filter (·.viewId == id)) := by
  refine ⟨fun h id => h.filter _, fun h => List.perm_iff_count.mpr fun f => ?_⟩
  have hcount := (h f.viewId).count_eq f
  rwa [List.count_filter (by simp), List.count_filter (by simp)] at hcount

theorem restricts_ofPass_iff {p q : Pass} {keep : String → Bool} :
    (ofPass p).Restricts keep (ofPass q) ↔ ∀ id,
      p.lastGraph? id = (if keep id then q.lastGraph? id else none) ∧
      ((p.drawings id).filterMap faultOf).Perm
        (if keep id then (q.drawings id).filterMap faultOf else []) := by
  have hgraphs := Catalog.toList_eq_filter_iff (isKeyed_catalogOf p) (isKeyed_catalogOf q) keep
  simp only [get?_catalogOf] at hgraphs
  have hfaults (id : String) : ((ofPass q).faults.filter (keep ·.viewId)).filter (·.viewId == id) =
      if keep id then (q.drawings id).filterMap faultOf else [] := by
    rw [← q.filter_faults, ← faults_ofPass, List.filter_filter]
    split
    · rename_i hid
      refine List.filter_congr fun f _ => ?_
      by_cases hf : f.viewId = id <;> simp [hf, hid]
    · rename_i hid
      rw [List.filter_eq_nil_iff]
      rintro f - hf
      rw [Bool.and_eq_true, beq_iff_eq] at hf
      exact hid (hf.1 ▸ hf.2)
  constructor
  · rintro ⟨hsame, hperm⟩ id
    refine ⟨hgraphs.mp hsame id, ?_⟩
    have hid := perm_faults_iff.mp hperm id
    rwa [hfaults, faults_ofPass, p.filter_faults] at hid
  · intro h
    refine ⟨hgraphs.mpr fun id => (h id).1, perm_faults_iff.mpr fun id => ?_⟩
    rw [hfaults, faults_ofPass, p.filter_faults]
    exact (h id).2

end Report

def Json.Has (j : Json) (key : String) : Prop :=
  ∃ fields, j = .object fields ∧ key ∈ fields.map Prod.fst

theorem Report.has_errors_iff {r : Report} : r.toJson.Has "errors" ↔ r.faults ≠ [] := by
  rw [toJson]
  cases r.faults with
  | nil => simp [Json.Has]
  | cons f rest => simp [Json.Has]

end StepGraph
