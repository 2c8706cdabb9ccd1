import Mathlib.Order.Bounds.Basic
import StepGraph.Proofs.Graph.EdgeIds
import StepGraph.Proofs.Walk.Paths

/-!
The last segments of ids inside forks. A path counts the steps in it, and a step takes the first
number from that count on that leaves its id free. So the numbers of the steps right inside a path
rise, and they are the counts themselves unless two forks stand next to each other.
-/
set_option autoImplicit false

namespace StepGraph

def EdgeId.last (id : EdgeId) : Nat := id.numbers.getLastD 0

theorem EdgeId.last_ofSegments (root : Nat) (nested : List Nat) (p : Nat) :
    (ofSegments root (nested ++ [p])).last = p := by
  rw [last, numbers_ofSegments, List.getLastD_eq_getLast?, ← List.cons_append,
    List.getLast?_concat]
  rfl

namespace Site

def idAt (t : Site) (p : Nat) : EdgeId := .ofSegments t.root (t.indices.reverse ++ [p])

@[simp] theorem last_idAt (t : Site) (p : Nat) : (t.idAt p).last = p :=
  EdgeId.last_ofSegments _ _ p

theorem idAt_inj {s t : Site} {p q : Nat} :
    s.idAt p = t.idAt q ↔ s.root = t.root ∧ s.indices = t.indices ∧ p = q := by
  rw [idAt, idAt, EdgeId.ofSegments_inj, ← List.reverse_cons, ← List.reverse_cons, List.reverse_inj,
    List.cons.injEq, and_comm (a := p = q)]

def count (met : List Site) (t : Site) : Nat := met.countP (·.isWithin t.around)

structure Takes (met : List Site) (taken : List EdgeId) (t : Site) (id : EdgeId) : Prop where
  outside : t.around = [] → id = .ofSegments t.root []
  inside : t.around ≠ [] → id = t.idAt id.last
  least : t.around ≠ [] → IsLeast {p | 1 + t.count met ≤ p ∧ t.idAt p ∉ taken} id.last

end Site

theorem IsFirstFree.isLeast {taken : List EdgeId} {idAt : Nat → EdgeId} {start position : Nat}
    (h : IsFirstFree taken idAt start position) :
    IsLeast {p | start ≤ p ∧ idAt p ∉ taken} position := by
  refine ⟨⟨h.le, h.free⟩, fun p hp => ?_⟩
  by_contra hlt
  exact hp.2 (h.below p hp.1 (by omega))

theorem Placed.Fits.takes {α : Type} {resolve : Interaction → Except Fault α}
    {placed : List (Placed α)} {met : List Site} {t : Site} {p : Placed α}
    (h : p.Fits resolve placed met t) : t.Takes met (placed.map (·.id)) p.id := by
  obtain ⟨position, hid, _, hfree⟩ := h.place
  by_cases ht : t.around = []
  · rw [Site.idAt_journal_of_outside ht] at hid
    exact ⟨fun _ => hid, fun hne => absurd ht hne, fun hne => absurd ht hne⟩
  · have hat : (t.journal met).idAt t.root = t.idAt :=
      funext fun q => Site.idAt_journal_of_inside ht met q
    have hlast : p.id.last = position := by rw [hid, hat, Site.last_idAt]
    have hstart : (t.journal met).nextPosition = 1 + t.count met := by
      obtain ⟨e, outer, ha⟩ := List.exists_cons_of_ne_nil ht
      simp [Site.journal, Site.count, Journal.nextPosition, ha, openLevels, Nat.add_comm]
    refine ⟨fun hnil => absurd hnil ht, fun _ => ?_, fun _ => ?_⟩
    · rw [hlast, hid, hat]
    · rw [hlast, ← hstart, ← hat]
      exact (hfree ht).isLeast

def Numbered (sites : List Site) (ids : List EdgeId) : Prop :=
  ∀ (k : Nat) (t : Site) (id : EdgeId), sites[k]? = some t → ids[k]? = some id →
    t.Takes (sites.take k) (ids.take k) id

theorem Site.count_lt {sites : List Site} {j k : Nat} {s t : Site} (hjk : j < k)
    (hs : sites[j]? = some s) (h : s.places = t.places) :
    s.count (sites.take j) < t.count (sites.take k) := by
  have hsame : t.count (sites.take k) = s.count (sites.take k) := by
    simp only [count, isWithin_congr h]
  have hself : s.isWithin s.around = true := isWithin_of_suffix List.suffix_rfl
  have hle := (List.take_prefix_take_left (l := sites) hjk).sublist.countP_le
    (p := (·.isWithin s.around))
  rw [List.take_add_one, hs, List.countP_append] at hle
  simp [hself] at hle
  rw [hsame, count, count]
  omega

namespace Numbered

variable {sites : List Site} {ids : List EdgeId} {k : Nat} {t : Site} {b : EdgeId}

theorem last_lt (h : Numbered sites ids) {j : Nat} {s : Site} {a : EdgeId} (hjk : j < k)
    (hs : sites[j]? = some s) (ht : sites[k]? = some t) (ha : ids[j]? = some a)
    (hb : ids[k]? = some b) (hne : s.around ≠ []) (hroot : s.root = t.root)
    (hplaces : s.places = t.places) : a.last < b.last := by
  have hat : t.idAt = s.idAt := by
    funext p
    rw [Site.idAt, Site.idAt, hroot, Site.indices_eq_of_places hplaces]
  have hfirst := h j s a hs ha
  obtain ⟨hstart, hfree⟩ := ((h k t b ht hb).least (Site.inside_of_places hplaces hne)).1
  rw [hat] at hfree
  -- What is free for the later step was so for the earlier one, which took something less.
  have hcount := Site.count_lt hjk hs hplaces
  have hle := (hfirst.least hne).2 ⟨by omega, fun hin =>
    hfree ((List.take_prefix_take_left (l := ids) hjk.le).subset hin)⟩
  refine Nat.lt_of_le_of_ne hle fun heq => hfree ?_
  rw [← heq, ← hfirst.inside hne]
  exact List.mem_of_getElem? ((List.getElem?_take_of_lt hjk).trans ha)

/-- Where root numbers and numbers of paths tell paths apart, no step has to move on. -/
theorem last_eq (h : Numbered sites ids) (htell : ∀ s ∈ sites, ∀ t ∈ sites,
      s.root = t.root → s.indices = t.indices → s.places = t.places)
    (ht : sites[k]? = some t) (hb : ids[k]? = some b) (hne : t.around ≠ []) :
    b.last = 1 + t.count (sites.take k) := by
  induction k using Nat.strongRecOn generalizing t b with
  | ind k ih =>
    have hleast := (h k t b ht hb).least hne
    refine Nat.le_antisymm (hleast.2 ⟨Nat.le_refl _, fun hin => ?_⟩) hleast.1.1
    obtain ⟨j, hj, hjb⟩ := List.mem_take_iff_getElem.mp hin
    have ha : ids[j]? = some (t.idAt (1 + t.count (sites.take k))) :=
      List.getElem?_eq_some_iff.mpr ⟨by omega, hjb⟩
    have hjk : j < k := by omega
    have hklen := (List.getElem?_eq_some_iff.mp ht).1
    obtain ⟨s, hs⟩ : ∃ s, sites[j]? = some s := ⟨_, List.getElem?_eq_getElem (by omega)⟩
    have hfirst := h j s _ hs ha
    by_cases hs' : s.around = []
    · have hid := hfirst.outside hs'
      simp [Site.idAt, EdgeId.ofSegments_inj] at hid
    · obtain ⟨hroot, hindices, _⟩ := Site.idAt_inj.mp (hfirst.inside hs')
      have hplaces := htell s (List.mem_of_getElem? hs) t (List.mem_of_getElem? ht) hroot.symm
        hindices.symm
      -- The earlier step stands right inside the same path, where it was counted itself.
      have hlt := Site.count_lt hjk hs hplaces
      have hlast := ih j hjk hs ha hs'
      rw [Site.last_idAt] at hlast
      omega

end Numbered

theorem Placings.numbered {α : Type} {resolve : Interaction → Except Fault α}
    {placed : List (Placed α)} {sites : List Site} (h : Placings resolve placed sites) :
    Numbered sites (placed.map (·.id)) := by
  intro k t id ht hid
  rw [List.getElem?_map, Option.map_eq_some_iff] at hid
  obtain ⟨p, hp, rfl⟩ := hid
  rw [← List.map_take]
  exact (h.fits ht hp).takes

/-- The walk meets the step of the site as the `k`-th one, inside of forks, and `e` is its edge. -/
structure View.DrawsInside (v : View) (g : Graph) (k : Nat) (t : Site) (e : Edge) : Prop where
  site : v.sites[k]? = some t
  edge : g.edges[k]? = some e
  inside : t.around ≠ []

theorem numbered_of_draw {model : Model} {options : Options} {v : View} {g : Graph}
    (h : v.draw model options = .ok g) (haware : options.branchAware = true) :
    g.edges.length = v.sites.length ∧ Numbered v.sites (g.edges.map (·.id)) := by
  obtain ⟨selected, l, nodes, _, hl, _, rfl⟩ := View.draw_eq_ok_iff.mp h
  rw [haware] at hl
  have hplacings := Scene.placings_of_place hl
  rw [View.graphOf, List.length_map, List.map_map]
  exact ⟨hplacings.length_eq, hplacings.numbered⟩

structure View.Counts (v : View) (g : Graph) : Prop where
  length_eq : g.edges.length = v.sites.length
  id_eq : ∀ k t e, v.DrawsInside g k t e → e.id = t.idAt e.id.last
  /-- The path counts from one on, and what an earlier edge has is passed over. -/
  isLeast : ∀ k t e, v.DrawsInside g k t e →
    IsLeast {p | 1 + t.count (v.sites.take k) ≤ p ∧ ∀ d ∈ g.edges.take k, d.id ≠ t.idAt p} e.id.last
  /-- Steps right inside one path. -/
  last_lt : ∀ j k s t d e, v.DrawsInside g j s d → v.DrawsInside g k t e → s.places = t.places →
    j < k → d.id.last < e.id.last
  last_eq : (∀ x ∈ v.forks, PartsOnce x) → ∀ k t e, v.DrawsInside g k t e →
    e.id.last = 1 + t.count (v.sites.take k)

/-- Inside of forks an id ends with the first number, from the count of its path on, that makes it
free. Right inside one path these numbers rise, and they are the counts where no path holds two forks
that stand for something. -/
theorem positions_of_draw {model : Model} {options : Options} {v : View} {g : Graph}
    (h : v.draw model options = .ok g) (haware : options.branchAware = true) : v.Counts g := by
  obtain ⟨hlength, hnumbered⟩ := numbered_of_draw h haware
  have hid {k : Nat} {e : Edge} (he : g.edges[k]? = some e) :
      (g.edges.map (·.id))[k]? = some e.id := by rw [List.getElem?_map, he, Option.map_some]
  constructor
  · exact hlength
  · exact fun k t e ht => (hnumbered k t e.id ht.site (hid ht.edge)).inside ht.inside
  · intro k t e ht
    have hfree (id : EdgeId) :
        id ∉ (g.edges.map (·.id)).take k ↔ ∀ d ∈ g.edges.take k, d.id ≠ id := by
      simp [← List.map_take]
    have hleast := (hnumbered k t e.id ht.site (hid ht.edge)).least ht.inside
    simpa only [hfree] using hleast
  · intro j k s t d e hs ht hplaces hjk
    have hroot := root_eq_of_places (List.mem_of_getElem? hs.site) (List.mem_of_getElem? ht.site)
      hs.inside hplaces
    exact hnumbered.last_lt hjk hs.site ht.site (hid hs.edge) (hid ht.edge) hs.inside hroot hplaces
  · intro honce k t e ht
    refine hnumbered.last_eq (fun s hs t ht => ?_) ht.site (hid ht.edge) ht.inside
    exact places_eq_of_indices honce hs ht

/-- Next to the fork `book` in the path `full` there is only one that stands for nothing. -/
def refundView : View where
  id := "refund"
  rules := [.including ["shop"]]
  steps :=
    [.fork { id := "refund", kind := .alternate }
      [({ id := "full" },
        [.single (checkoutCall "shop.web" "bank"),
         .fork { id := "book", kind := .parallel }
          [({ id := "goods" }, [.single (checkoutCall "shop.cart" "shop.cart.store")]),
           ({ id := "money" }, [.single (checkoutCall "bank" "mail")])],
         .fork { id := "none", kind := .parallel } [({ id := "empty" }, [])],
         .single (checkoutCall "mail" "shop.web")])]]

theorem exists_draw_refund :
    ∃ g, refundView.draw checkoutModel { branchAware := true } = .ok g ∧ g.edgeIds =
      ["step-01.01.01", "step-01.01.01.01", "step-01.01.02.01", "step-01.01.04"] :=
  exists_ok_of_map_toOption (by decide +kernel)

/-- In `checkoutView` a step is moved on, as two forks stand next to each other there. -/
theorem positions_of_draw_refund : ({ branchAware := true } : Options).branchAware = true ∧
    (∃ g, checkoutView.draw checkoutModel { branchAware := true } = .ok g ∧
      checkoutView.Counts g) ∧
    (∀ x ∈ refundView.forks, PartsOnce x) ∧
    ∃ g, refundView.draw checkoutModel { branchAware := true } = .ok g ∧ refundView.Counts g := by
  obtain ⟨g, hg, _⟩ := exists_draw_checkout
  obtain ⟨d, hd, _⟩ := exists_draw_refund
  exact ⟨rfl, ⟨g, hg, positions_of_draw hg rfl⟩, by decide, d, hd, positions_of_draw hd rfl⟩

end StepGraph
