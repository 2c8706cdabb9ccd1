import StepGraph.Proofs.Runs

/-!
What a run on selected views has in common with one on all of them. A name selects the first
declaration of its view, but all declarations are drawn where nothing is selected, and the last of
them gives the graph. So the report on selected views is the part of the full one under their names
just if every such view comes out the same either way. No names at all select every view.
-/
set_option autoImplicit false

namespace StepGraph

section

variable {ε α : Type}

theorem map_ok_filterMap_toOption {ds : List (Except ε α)} (h : ∀ d ∈ ds, faultOf d = none) :
    (ds.filterMap Except.toOption).map .ok = ds := by
  rw [List.map_filterMap]
  refine (List.filterMap_congr fun d hd => ?_).trans List.filterMap_some
  obtain ⟨a, rfl⟩ := faultOf_eq_none_iff.mp (h d hd)
  rfl

theorem eq_nil_of_filterMap {ds : List (Except ε α)} (hok : ds.filterMap Except.toOption = [])
    (hfault : ds.filterMap faultOf = []) : ds = [] := by
  rw [← map_ok_filterMap_toOption (List.filterMap_eq_nil_iff.mp hfault), hok, List.map_nil]

/-- The first of some results stands for all of them just if it is the only one, or if none failed
and the last is the same. -/
theorem head_stands_iff {ds : List (Except ε α)} :
    (ds.head?.toList.filterMap Except.toOption).getLast? = (ds.filterMap Except.toOption).getLast? ∧
      (ds.head?.toList.filterMap faultOf).Perm (ds.filterMap faultOf) ↔
    ds.length ≤ 1 ∨ ((∀ d ∈ ds, faultOf d = none) ∧ ds.getLast? = ds.head?) := by
  have hsingle (rest : List (Except ε α)) (h : rest.length + 1 ≤ 1) : rest = [] :=
    List.eq_nil_of_length_eq_zero (Nat.le_zero.mp (Nat.le_of_succ_le_succ h))
  rcases ds with _ | ⟨f | a, rest⟩
  · simp
  -- a fault in front leaves room for nothing else: a graph would be listed, a fault counted twice
  · constructor
    · rintro ⟨hlast, hperm⟩
      have hok : rest.filterMap Except.toOption = [] := List.getLast?_eq_none_iff.mp hlast.symm
      have hlength : (rest.filterMap faultOf).length = 0 := Nat.succ.inj hperm.length_eq.symm
      rw [eq_nil_of_filterMap hok (List.eq_nil_of_length_eq_zero hlength)]
      exact .inl (Nat.le_refl 1)
    · rintro (hlength | ⟨hnone, -⟩)
      · rw [hsingle rest hlength]
        exact ⟨rfl, .refl _⟩
      · cases hnone _ List.mem_cons_self
  -- behind a graph there may be others, if none of them is a fault and the last is the same
  · constructor
    · rintro ⟨hlast, hperm⟩
      have hnone : ∀ d ∈ .ok a :: rest, faultOf d = none :=
        List.filterMap_eq_nil_iff.mp hperm.nil_eq.symm
      refine .inr ⟨hnone, ?_⟩
      rw [← map_ok_filterMap_toOption hnone, List.getLast?_map, ← hlast]
      rfl
    · rintro (hlength | ⟨hnone, hlast⟩)
      · rw [hsingle rest hlength]
        exact ⟨rfl, .refl _⟩
      · refine ⟨?_, List.filterMap_eq_nil_iff.mpr hnone ▸ .nil⟩
        rw [← map_ok_filterMap_toOption hnone, List.getLast?_map] at hlast
        obtain ⟨b, hb, heq⟩ := Option.map_eq_some_iff.mp hlast
        cases heq
        exact hb.symm

end

namespace Pass

/-- The view is declared once at most, or all declarations can be drawn and the last one gives the
graph of the first. -/
def Unambiguous (p : Pass) (id : String) : Prop :=
  (p.drawings id).length ≤ 1 ∨
    ((∀ d ∈ p.drawings id, faultOf d = none) ∧ (p.drawings id).getLast? = (p.drawings id).head?)

def selected (p : Pass) (names : List String) : Pass where
  model := p.model
  views := if names = [] then p.views
    else names.filterMap fun name => p.views.find? (·.id == name)
  options := p.options

theorem filterMap_guard {β : Type} (o : Option β) {names : List String} (hnodup : names.Nodup)
    (id : String) : names.filterMap (fun name => if name = id then o else none) =
      if names.contains id then o.toList else [] := by
  induction names with
  | nil => rfl
  | cons name rest ih =>
    obtain ⟨hfresh, hnodup⟩ := List.nodup_cons.mp hnodup
    by_cases hname : name = id
    · subst hname
      have hrest : rest.contains name = false := by simpa using hfresh
      rw [List.filterMap_cons, if_pos rfl, ih hnodup, hrest]
      cases o <;> simp
    · rw [List.filterMap_cons, if_neg hname, ih hnodup]
      simp [Ne.symm hname]

theorem filter_selected (views : List View) {names : List String} (hnodup : names.Nodup)
    (id : String) :
    (names.filterMap fun name => views.find? (·.id == name)).filter (·.id == id) =
      if names.contains id then (views.find? (·.id == id)).toList else [] := by
  rw [List.filter_filterMap, ← filterMap_guard _ hnodup]
  refine List.filterMap_congr fun name _ => ?_
  cases hfind : views.find? (·.id == name) with
  | none =>
    split
    · rename_i h
      rw [← h, hfind]
      rfl
    · rfl
  | some v =>
    have hid : v.id = name := by simpa using List.find?_some hfind
    rw [Option.filter_some, hid]
    split
    · rename_i h
      rw [if_pos (beq_iff_eq.mp h), ← beq_iff_eq.mp h, hfind]
    · rename_i h
      rw [if_neg fun heq => h (beq_iff_eq.mpr heq)]

theorem drawings_selected {p : Pass} {names : List String} (hne : names ≠ [])
    (hnodup : names.Nodup) (id : String) : (p.selected names).drawings id =
      if names.contains id then (p.drawings id).head?.toList else [] := by
  rw [drawings, selected, if_neg hne, filter_selected p.views hnodup id, drawings, List.head?_map,
    List.head?_filter]
  split
  · cases p.views.find? (·.id == id) <;> rfl
  · rfl

theorem unambiguous_of_nodup {p : Pass} (h : (p.views.map (·.id)).Nodup) (id : String) :
    p.Unambiguous id := by
  have hcount := List.nodup_iff_count_le_one.mp h id
  rw [List.count_eq_countP, List.countP_map, List.countP_eq_length_filter] at hcount
  rw [Unambiguous, drawings, List.length_map]
  exact .inl hcount

theorem views_eq_nil_iff {p : Pass} : p.views = [] ↔ ∀ id, p.drawings id = [] := by
  constructor
  · intro h id
    rw [drawings, h]
    rfl
  · intro h
    rw [List.eq_nil_iff_forall_not_mem]
    intro v hv
    have hdraw : v.draw p.model p.options ∈ p.drawings v.id := mem_drawings.mpr ⟨v, hv, rfl, rfl⟩
    rw [h] at hdraw
    cases hdraw

end Pass

namespace Report

theorem restricts_nothing_iff {p : Pass} :
    (ofPass p).Restricts (fun _ => false) (ofPass p) ↔ p.views = [] := by
  rw [restricts_ofPass_iff, Pass.views_eq_nil_iff]
  refine forall_congr' fun id => ?_
  rw [if_neg Bool.false_ne_true, if_neg Bool.false_ne_true]
  constructor
  · rintro ⟨hlast, hperm⟩
    exact eq_nil_of_filterMap (List.getLast?_eq_none_iff.mp hlast) hperm.eq_nil
  · intro h
    rw [Pass.lastGraph?, h]
    exact ⟨rfl, .nil⟩

/-- The report on selected views is the part of that on all views under their names just if these
are unambiguous; without names it is so only if there are no views. -/
theorem restricts_selected_iff {p : Pass} {names : List String} (hnodup : names.Nodup) :
    (ofPass (p.selected names)).Restricts names.contains (ofPass p) ↔
      (names = [] → p.views = []) ∧ ∀ name ∈ names, p.Unambiguous name := by
  rcases eq_or_ne names [] with rfl | hne
  · have hall : p.selected [] = p := rfl
    rw [hall, and_iff_left (List.forall_mem_nil _), forall_prop_of_true rfl]
    exact restricts_nothing_iff
  rw [and_iff_right fun hnil => absurd hnil hne]
  simp only [restricts_ofPass_iff, Pass.lastGraph?, Pass.drawings_selected hne hnodup]
  constructor
  · intro h name hname
    have hone := h name
    rw [List.contains_iff_mem.mpr hname, if_pos rfl, if_pos rfl, if_pos rfl] at hone
    exact head_stands_iff.mp hone
  · intro h id
    split
    · rename_i hid
      exact head_stands_iff.mpr (h id (List.contains_iff_mem.mp hid))
    · exact ⟨rfl, .nil⟩

/-- Views whose ids are distinct can be selected without a change to any of them. -/
theorem restricts_selected_of_nodup {p : Pass} {names : List String} (hne : names ≠ [])
    (hnodup : names.Nodup) (h : (p.views.map (·.id)).Nodup) :
    (ofPass (p.selected names)).Restricts names.contains (ofPass p) :=
  (restricts_selected_iff hnodup).mpr
    ⟨fun hnil => absurd hnil hne, fun name _ => p.unambiguous_of_nodup h name⟩

end Report

namespace Command

namespace Task

def select (t : Task) (names : List String) : Task where
  settings := t.settings
  workspace := t.workspace
  views := if names = [] then t.workspace.views else names.filterMap t.workspace.view?

def pass (t : Task) (a : Arguments) (environment : Option String) : Pass where
  model := t.workspace.model
  views := t.views
  options := t.options a environment

theorem forall₂_view? {w : Workspace} {names : List String}
    (h : ∀ name ∈ names, (w.view? name).isSome = true) :
    List.Forall₂ (fun name v => w.view? name = some v) names (names.filterMap w.view?) := by
  induction names with
  | nil => exact .nil
  | cons name rest ih =>
    obtain ⟨hname, hrest⟩ := List.forall_mem_cons.mp h
    obtain ⟨v, hv⟩ := Option.isSome_iff_exists.mp hname
    rw [List.filterMap_cons_some hv]
    exact .cons hv (ih hrest)

variable {t : Task} {a : Arguments} {sources : Sources} {names : List String}

theorem Given.views_eq (ht : t.Given { a with views := [] } sources) :
    t.views = t.workspace.views := by
  obtain ⟨-, hviews⟩ | ⟨hne, -⟩ := ht.views
  · exact hviews
  · exact absurd rfl hne

theorem Given.given_select (ht : t.Given { a with views := [] } sources)
    (hdeclared : ∀ name ∈ names, (t.workspace.view? name).isSome = true) :
    (t.select names).Given { a with views := names } sources := by
  refine ⟨ht.settings, ht.workspace, ?_⟩
  rw [Task.select]
  rcases eq_or_ne names [] with hnil | hne
  · exact .inl ⟨hnil, if_pos hnil⟩
  · exact .inr ⟨hne, (if_neg hne).symm ▸ forall₂_view? hdeclared⟩

theorem Given.restricts_iff (ht : t.Given { a with views := [] } sources) (hnodup : names.Nodup)
    (environment : Option String) :
    ((t.select names).report a environment).Restricts names.contains (t.report a environment) ↔
      (names = [] → t.workspace.views = []) ∧
      ∀ name ∈ names, (t.pass a environment).Unambiguous name := by
  have hpass : (t.select names).pass a environment = (t.pass a environment).selected names := by
    rw [Pass.selected, pass, pass, Task.select, ht.views_eq]
    rfl
  have hselected : (t.select names).report a environment =
      .ofPass ((t.pass a environment).selected names) := by
    rw [← hpass]
    rfl
  rw [hselected, ← ht.views_eq]
  exact Report.restricts_selected_iff hnodup

end Task

/-- Where all of some names are declared, the run on them writes a report and the run on all views
writes one, and the first is the part of the second under the names just if every one of them is
unambiguous: declared once, or else drawn without a fault, the first time as the last. No names
select all views. -/
theorem selection_restricts_iff {t : Task} {a : Arguments} {sources : Sources}
    (ht : t.Given { a with views := [] } sources) {names : List String} (hnodup : names.Nodup)
    (hdeclared : ∀ name ∈ names, (t.workspace.view? name).isSome = true) :
    produce { a with views := [] } sources = .ok (t.product a sources.environment) ∧
    produce { a with views := names } sources =
      .ok ((t.select names).product a sources.environment) ∧
    (((t.select names).report a sources.environment).Restricts names.contains
        (t.report a sources.environment) ↔
      (names = [] → t.workspace.views = []) ∧
      ∀ name ∈ names, (t.pass a sources.environment).Unambiguous name) :=
  ⟨produce_eq_ok_iff.mpr ⟨t, ht, rfl⟩, produce_eq_ok_iff.mpr ⟨_, ht.given_select hdeclared, rfl⟩,
    ht.restricts_iff hnodup sources.environment⟩

def twice : Sources where
  input := .ok ("\x7b\"views\":[\x7b\"id\":\"v\",\"title\":\"first\"\x7d," ++
    "\x7b\"id\":\"v\",\"title\":\"last\"\x7d]\x7d")

theorem exists_given_twice : ∃ t : Task, t.Given {} twice ∧
    (∀ name ∈ ["v"], (t.workspace.view? name).isSome = true) ∧
    (((t.pass {} none).drawings "v").map fun d => d.toOption.map (·.title)) =
      [some (some "first"), some (some "last")] := by
  obtain ⟨w, hw, hviews⟩ : ∃ w, Workspace.ofText
      ("\x7b\"views\":[\x7b\"id\":\"v\",\"title\":\"first\"\x7d," ++
        "\x7b\"id\":\"v\",\"title\":\"last\"\x7d]\x7d") = .ok w ∧
      ((w.view? "v").isSome, ((Task.pass ⟨{}, w, w.views⟩ {} none).drawings "v").map
        fun d => d.toOption.map (·.title)) = (true, [some (some "first"), some (some "last")]) :=
    exists_ok_of_map_toOption (by decide +kernel)
  obtain ⟨hdeclared, htitles⟩ := Prod.mk.inj hviews
  exact ⟨⟨{}, w, w.views⟩, ⟨.inl ⟨rfl, rfl⟩, ⟨_, rfl, hw⟩, .inl ⟨rfl, rfl⟩⟩,
    List.forall_mem_singleton.mpr hdeclared, htitles⟩

theorem selection_restricts_iff_twice : ∃ t : Task, t.Given {} twice ∧
    produce {} twice = .ok (t.product {} none) ∧
    produce { views := ["v"] } twice = .ok ((t.select ["v"]).product {} none) ∧
    (((t.select ["v"]).report {} none).Restricts ["v"].contains (t.report {} none) ↔
      (["v"] = [] → t.workspace.views = []) ∧
      ∀ name ∈ ["v"], (t.pass {} none).Unambiguous name) := by
  obtain ⟨t, ht, hdeclared, -⟩ := exists_given_twice
  exact ⟨t, ht, selection_restricts_iff (a := {}) ht (by decide) hdeclared⟩

/-- The report on the view has the graph of the first declaration, the full one that of the last. -/
theorem selection_keeps_first : ∃ t : Task, t.Given {} twice ∧
    produce {} twice = .ok (t.product {} none) ∧
    produce { views := ["v"] } twice = .ok ((t.select ["v"]).product {} none) ∧
    (∀ name ∈ ["v"], (t.workspace.view? name).isSome = true) ∧
    ¬((t.select ["v"]).report {} none).Restricts ["v"].contains (t.report {} none) := by
  obtain ⟨t, ht, hdeclared, htitles⟩ := exists_given_twice
  have hselect : (t.select ["v"]).Given { views := ["v"] } twice :=
    Task.Given.given_select (a := {}) ht hdeclared
  refine ⟨t, ht, produce_eq_ok_iff.mpr ⟨t, ht, rfl⟩,
    produce_eq_ok_iff.mpr ⟨_, hselect, rfl⟩, hdeclared, ?_⟩
  rw [Task.Given.restricts_iff (a := {}) ht (by decide) none]
  rintro ⟨-, h⟩
  rcases h "v" List.mem_cons_self with hone | ⟨-, hsame⟩
  · have hlength := congrArg List.length htitles
    rw [List.length_map] at hlength
    rw [hlength] at hone
    exact absurd hone (by decide)
  · have hlast := congrArg List.getLast? htitles
    have hhead := congrArg List.head? htitles
    rw [List.getLast?_map, hsame, ← List.head?_map, hhead] at hlast
    exact absurd hlast (by decide)

end Command

end StepGraph
