import StepGraph.Proofs.Graph.Forest
import StepGraph.Proofs.Roster.Rules
import StepGraph.Settings

/-!
How the nodes of a graph look. The parts of a style are settled one by one: each is as the last rule
says that sets it for the node, or else as the element says, or else as the theme does. An opacity
that is set is a percentage, and so are those of the themes that can be chosen or written.
-/
set_option autoImplicit false

namespace StepGraph

def Rule.given? {α : Type} (part : StylePatch → Option α) (n : Name) : Rule → Option α
  | .styling r => if r.targets.any (Selector.reaches n) then part r.patch else none
  | .including _ | .excluding _ => none

/-- The part is as the last rule that sets it for the name says. If none does, the part is as the
element's `own` style says, and if this leaves it open, as `last` says. -/
structure Cascades {α : Type} (rules : List Rule) (n : Name) (own : StylePatch)
    (part : StylePatch → Option α) (last found : α) : Prop where
  ruled : ∀ (k : Nat) (r : Rule) (a : α), rules[k]? = some r → r.given? part n = some a →
    (∀ (j : Nat) (s : Rule), k < j → rules[j]? = some s → s.given? part n = none) → found = a
  owned : (∀ r ∈ rules, r.given? part n = none) → ∀ a, part own = some a → found = a
  left : (∀ r ∈ rules, r.given? part n = none) → part own = none → found = last

namespace Cascades

variable {α : Type} {rules : List Rule} {n : Name} {own : StylePatch}
  {part : StylePatch → Option α} {last found : α}

theorem nil : Cascades [] n own part last ((part own).getD last) where
  ruled k r a h := by simp at h
  owned _ a h := by rw [h, Option.getD_some]
  left _ h := by rw [h, Option.getD_none]

/-- A rule at the end decides if it sets the part, and otherwise changes nothing. -/
theorem concat (h : Cascades rules n own part last found) (r : Rule) :
    Cascades (rules ++ [r]) n own part last ((r.given? part n).getD found) := by
  cases hr : r.given? part n with
  | some b =>
    have hset : ¬∀ s ∈ rules ++ [r], s.given? part n = none := by
      intro hnone
      simp [hnone r (by simp)] at hr
    refine ⟨fun k s a hk hs hlater => ?_, fun hnone => absurd hnone hset,
      fun hnone => absurd hnone hset⟩
    rcases getElem?_concat_eq_some_iff.mp hk with hk | ⟨_, rfl⟩
    · have hlt := (List.getElem?_eq_some_iff.mp hk).1
      have hlast := hlater rules.length r hlt (getElem?_concat_eq_some_iff.mpr (.inr ⟨rfl, rfl⟩))
      simp [hr] at hlast
    · exact Option.some.inj (hr.symm.trans hs)
  | none =>
    have hbefore (hnone : ∀ s ∈ rules ++ [r], s.given? part n = none) :
        ∀ s ∈ rules, s.given? part n = none :=
      fun s hs => hnone s (List.mem_append_left _ hs)
    refine ⟨fun k s a hk hs hlater => ?_, fun hnone => h.owned (hbefore hnone),
      fun hnone => h.left (hbefore hnone)⟩
    rcases getElem?_concat_eq_some_iff.mp hk with hk | ⟨_, rfl⟩
    · refine h.ruled k s a hk hs fun j t hj ht => ?_
      exact hlater j t hj (getElem?_concat_eq_some_iff.mpr (.inl ht))
    · simp [hr] at hs

theorem foldl (rules : List Rule) (n : Name) (own : StylePatch) (part : StylePatch → Option α)
    (last : α) : Cascades rules n own part last
      (rules.foldl (fun a r => (r.given? part n).getD a) ((part own).getD last)) := by
  induction rules using List.reverseRecOn with
  | nil => exact nil
  | append_singleton rules r ih =>
    rw [List.foldl_append]
    exact ih.concat r

end Cascades

structure StyleMatch.Reads (r : StyleRule) (m : StyleMatch) : Prop where
  targets : Selector.parseAll r.targets = .ok m.targets
  patch : m.patch = r.patch

theorem styleMatches_eq_ok_iff {rules : List Rule} {styles : List StyleMatch} :
    styleMatches rules = .ok styles ↔
      List.Forall₂ StyleMatch.Reads (rules.filterMap Rule.style?) styles := by
  have hread : ∀ (r : StyleRule) (m : StyleMatch), StyleMatch.Reads r m ↔ ∃ targets,
      Selector.parseAll r.targets = .ok targets ∧ { targets, patch := r.patch } = m := by
    intro r m
    constructor
    · intro h
      exact ⟨m.targets, h.targets, by rw [← h.patch]⟩
    · intro h
      obtain ⟨targets, htargets, rfl⟩ := h
      exact ⟨htargets, rfl⟩
  simp only [styleMatches, mapM_eq_ok_iff, bind_eq_ok_iff, pure_eq_ok_iff, ← hread]

section

variable {α : Type} {part : StylePatch → Option α} {n : Name}

theorem StyleMatch.Reads.given?_eq {r : StyleRule} {m : StyleMatch} (h : Reads r m) :
    (Rule.styling r).given? part n = if m.selects n then part m.patch else none := by
  rw [Rule.given?, Selector.any_reaches h.targets, h.patch]
  rfl

theorem foldl_given?_of_reads {rules : List StyleRule} {styles : List StyleMatch}
    (h : List.Forall₂ StyleMatch.Reads rules styles) (a : α) :
    rules.foldl (fun a r => ((Rule.styling r).given? part n).getD a) a =
      (styles.filter (·.selects n)).foldl (fun a m => (part m.patch).getD a) a := by
  rw [List.foldl_filter]
  induction h generalizing a with
  | nil => rfl
  | cons hr _ ih =>
    rw [List.foldl_cons, List.foldl_cons, hr.given?_eq, ih]
    split <;> rfl

theorem foldl_given?_eq {rules : List Rule} {styles : List StyleMatch}
    (h : styleMatches rules = .ok styles) (a : α) :
    rules.foldl (fun a r => (r.given? part n).getD a) a =
      (styles.filter (·.selects n)).foldl (fun a m => (part m.patch).getD a) a := by
  rw [← foldl_given?_of_reads (styleMatches_eq_ok_iff.mp h), List.foldl_filterMap]
  congr
  funext a r
  cases r <;> rfl

/-- The rules that style the name, one after the other, leave each part as they say. -/
theorem cascades_nodeStyle {look : Style → α}
    (hlook : ∀ s p, look (s.patched p) = (part p).getD (look s)) {rules : List Rule}
    {styles : List StyleMatch} (hstyles : styleMatches rules = .ok styles) (theme : Theme)
    (compound : Bool) (e : Element) :
    Cascades rules n e.style part (look (theme.style compound))
      (look (nodeStyle theme styles compound e n)) := by
  have hfold : look (nodeStyle theme styles compound e n) =
      rules.foldl (fun a r => (r.given? part n).getD a)
        ((part e.style).getD (look (theme.style compound))) := by
    rw [foldl_given?_eq hstyles, ← hlook]
    exact (List.foldl_hom look fun s m => (hlook s m.patch).symm).symm
  rw [hfold]
  exact Cascades.foldl rules n e.style part _

end

def StylePatch.percent? (p : StylePatch) : Option UInt8 := p.opacity.map (min · 100)

def Theme.IsPercent (t : Theme) : Prop := t.elementOpacity ≤ 100 ∧ t.compoundOpacity ≤ 100

instance (t : Theme) : Decidable t.IsPercent := inferInstanceAs (Decidable (_ ∧ _))

theorem getD_percent_le {o : Option UInt8} {last : UInt8} (h : last ≤ 100) :
    (o.map (min · 100)).getD last ≤ 100 := by
  cases o with
  | none => exact h
  | some a => exact Std.min_le_right

theorem opacity_nodeStyle_le {theme : Theme} (h : theme.IsPercent) (styles : List StyleMatch)
    (compound : Bool) (e : Element) (n : Name) :
    (nodeStyle theme styles compound e n).opacity ≤ 100 := by
  have htheme : (theme.style compound).opacity ≤ 100 := by
    cases compound
    · exact h.1
    · exact h.2
  refine List.foldlRecOn _ _ (motive := fun s : Style => s.opacity ≤ 100) ?_ ?_
  · exact getD_percent_le htheme
  · exact fun s hs m _ => getD_percent_le hs

theorem Theme.isPercent_of_named? {name : String} {t : Theme} (h : named? name = some t) :
    t.IsPercent := by
  rw [named?] at h
  split at h
  · cases h
    decide
  · split at h
    · cases h
      decide
    · cases h

theorem Theme.isPercent_patched {t : Theme} (h : t.IsPercent) (p : ThemePatch) :
    (t.patched p).IsPercent := ⟨getD_percent_le h.1, getD_percent_le h.2⟩

theorem Theme.isPercent_of_find {name? : Option String} {t : Theme} (h : find name? = .ok t) :
    t.IsPercent := by
  cases name? with
  | none =>
    cases Except.ok.inj h
    decide
  | some name =>
    cases hname : named? name with
    | none => simp [Theme.find, hname] at h
    | some u =>
      have hu : u = t := by simpa [Theme.find, hname] using h
      exact hu ▸ isPercent_of_named? hname

theorem Settings.isPercent_of_ofText {text : String} {s : Settings} (h : ofText text = .ok s) :
    s.theme.IsPercent := by
  simp only [ofText, ofFile, bind_eq_ok_iff, pure_eq_ok_iff, mapError_eq_ok_iff] at h
  obtain ⟨file, _, t, ht, rfl⟩ := h
  exact Theme.isPercent_patched (Theme.isPercent_of_find ht) _

structure Node.IsStyled (theme : Theme) (rules : List Rule) (own : StylePatch) (n : Node) :
    Prop where
  color : Cascades rules n.id own (·.color) theme.elementColor n.style.color
  shape : Cascades rules n.id own (·.shape) theme.elementShape n.style.shape
  opacity : Cascades rules n.id own (·.percent?)
    (if n.isCompound then theme.compoundOpacity else theme.elementOpacity) n.style.opacity
  border : Cascades rules n.id own (·.border)
    (if n.isCompound then theme.compoundBorder else theme.elementBorder) n.style.border
  size : Cascades rules n.id own (·.size) theme.elementSize n.style.size

theorem childrenIn_ne_nil_iff {order : List Name} {n : Name} (hn : n ∈ order) :
    childrenIn order n ≠ [] ↔ ∃ m ∈ order, n.isAncestorOf m = true := by
  constructor
  · intro h
    obtain ⟨c, hc⟩ := List.exists_mem_of_ne_nil _ h
    obtain ⟨hco, hparent⟩ := mem_childrenIn.mp hc
    exact ⟨c, hco, (parentIn_eq_some_iff.mp hparent).2.1⟩
  · intro h
    obtain ⟨m, hm, hnm⟩ := h
    obtain ⟨c, hco, hparent, _⟩ := exists_child hn hm hnm
    exact List.ne_nil_of_mem (mem_childrenIn.mpr ⟨hco, hparent⟩)

/-- The compounds of a roster are the nodes that hold others. -/
theorem Roster.contains_compounds {selected referenced : List Name} {n : Name}
    (hn : n ∈ (Roster.of selected referenced).order) :
    (Roster.of selected referenced).compounds.contains n =
      !(childrenIn (Roster.of selected referenced).order n).isEmpty := by
  rw [Bool.eq_iff_iff, List.contains_iff_mem, mem_compounds, Bool.not_eq_true',
    ← Bool.not_eq_true, List.isEmpty_iff, ← ne_eq, childrenIn_ne_nil_iff hn]
  exact and_iff_right hn

theorem Node.isStyled_of_style {theme : Theme} {rules : List Rule} {styles : List StyleMatch}
    (hstyles : styleMatches rules = .ok styles) {e : Element} {n : Node}
    (h : n.style = nodeStyle theme styles n.isCompound e n.id) :
    n.IsStyled theme rules e.style := by
  have hcascades {α : Type} (part : StylePatch → Option α) (look : Style → α)
      (hlook : ∀ s p, look (s.patched p) = (part p).getD (look s)) :
      Cascades rules n.id e.style part (look (theme.style n.isCompound)) (look n.style) := by
    rw [h]
    exact cascades_nodeStyle hlook hstyles theme n.isCompound e
  constructor
  · exact hcascades (·.color) (·.color) fun _ _ => rfl
  · exact hcascades (·.shape) (·.shape) fun _ _ => rfl
  · exact hcascades (·.percent?) (·.opacity) fun _ _ => rfl
  · exact hcascades (·.border) (·.border) fun _ _ => rfl
  · exact hcascades (·.size) (·.size) fun _ _ => rfl

section

variable {model : Model} {options : Options} {v : View} {g : Graph}

/-- The style of a node is that of an element of the model under the rules of the view. -/
theorem exists_style_of_draw (h : v.draw model options = .ok g) :
    ∃ styles, styleMatches v.rules = .ok styles ∧ ∀ n ∈ g.nodes,
      ∃ e, model.element? n.id = some e ∧
        n.style = nodeStyle options.theme styles n.isCompound e n.id := by
  obtain ⟨selected, l, nodes, hsel, _, hnodes, rfl⟩ := View.draw_eq_ok_iff.mp h
  obtain ⟨styles, hstyles, _⟩ := nodesOf_eq_ok_iff.mp hnodes
  have hfirst := Roster.parentsFirst_order selected (referencedElements model v.steps)
  refine ⟨styles, hstyles, fun n hn => ?_⟩
  obtain ⟨m, hm, rfl⟩ := List.mem_map.mp hn
  have hmem : m.id ∈ (v.rosterOf model selected).order :=
    id_nodesOf hnodes ▸ List.mem_map_of_mem hm
  obtain ⟨e, he, heq⟩ := eq_nodeOf_of_mem hfirst hstyles hnodes hm
  refine ⟨e, he, ?_⟩
  have hchildren : m.children = childrenIn (v.rosterOf model selected).order m.id :=
    congrArg Node.children heq
  have hstyle : m.style = nodeStyle options.theme styles
      ((v.rosterOf model selected).compounds.contains m.id) e m.id := congrArg Node.style heq
  change m.style = nodeStyle options.theme styles (!m.children.isEmpty) e m.id
  rw [hstyle, hchildren, View.rosterOf, Roster.contains_compounds hmem]

/-- However a view was numbered, each part of the style of a node is settled by itself. With a theme
that has a name or was written in settings, all opacities are percentages. -/
theorem styles_of_draw (h : v.draw model options = .ok g) :
    (∀ n ∈ g.nodes, ∃ e, model.element? n.id = some e ∧
      n.IsStyled options.theme v.rules e.style) ∧
    ((∃ name, Theme.named? name = some options.theme) ∨
        (∃ text s, Settings.ofText text = .ok s ∧ s.theme = options.theme) →
      ∀ n ∈ g.nodes, n.style.opacity ≤ 100) := by
  obtain ⟨styles, hstyles, hall⟩ := exists_style_of_draw h
  constructor
  · intro n hn
    obtain ⟨e, he, hstyle⟩ := hall n hn
    exact ⟨e, he, Node.isStyled_of_style hstyles hstyle⟩
  · intro htheme n hn
    obtain ⟨e, _, hstyle⟩ := hall n hn
    have hpercent : options.theme.IsPercent := by
      rcases htheme with ⟨name, hname⟩ | ⟨text, s, hs, heq⟩
      · exact Theme.isPercent_of_named? hname
      · exact heq ▸ Settings.isPercent_of_ofText hs
    rw [hstyle]
    exact opacity_nodeStyle_le hpercent styles _ e n.id

end

def bazaarModel : Model where
  elements :=
    [{ id := ⟨"shop"⟩, style := { color := some "blue", opacity := some 140 } },
     { id := ⟨"shop.web"⟩, style := { shape := some "browser" } }, { id := ⟨"bank"⟩ }]

/-- Two rules reach the shop, and both set a color; only the first of them sets a size. -/
def bazaarView : View where
  id := "bazaar"
  rules :=
    [.including ["*", "shop.*"],
     .styling { targets := ["*"], patch := { color := some "red", size := some "lg" } },
     .styling { targets := ["shop.**", "shop"]
                patch := { color := some "green", border := some "double" } },
     .styling { targets := ["shop.web"], patch := { opacity := some 250 } }]

def bazaarSettings : String :=
  "\x7b\"theme\":\"muted\",\"themeOverrides\":\x7b\"elementOpacity\":180\x7d\x7d"

theorem exists_settings_bazaar : ∃ s, Settings.ofText bazaarSettings = .ok s ∧
    s.theme = { Theme.muted with elementOpacity := 100 } :=
  exists_ok_of_map_toOption (by decide +kernel)

theorem exists_draw_bazaar :
    ∃ g, bazaarView.draw bazaarModel { theme := { Theme.muted with elementOpacity := 100 } } =
        .ok g ∧
      g.nodes.map (fun n => (n.style.color, n.style.opacity, n.style.border, n.style.size)) =
        [("green", 100, "double", "lg"), ("red", 100, "none", "lg"),
         ("green", 100, "double", "sm")] :=
  exists_ok_of_map_toOption (by decide +kernel)

theorem styles_of_draw_bazaar :
    ∃ s g, Settings.ofText bazaarSettings = .ok s ∧
      bazaarView.draw bazaarModel { theme := s.theme } = .ok g ∧
      (∀ n ∈ g.nodes, ∃ e, bazaarModel.element? n.id = some e ∧
        n.IsStyled s.theme bazaarView.rules e.style) ∧
      ∀ n ∈ g.nodes, n.style.opacity ≤ 100 := by
  obtain ⟨s, hs, htheme⟩ := exists_settings_bazaar
  obtain ⟨g, hg, _⟩ := exists_draw_bazaar
  rw [← htheme] at hg
  obtain ⟨hstyled, hpercent⟩ := styles_of_draw hg
  exact ⟨s, g, hs, hg, hstyled, hpercent (.inr ⟨bazaarSettings, s, hs, rfl⟩)⟩

end StepGraph
