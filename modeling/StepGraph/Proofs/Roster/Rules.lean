import Mathlib.Data.Prod.Lex
import Mathlib.Order.Bounds.Basic
import Mathlib.Order.WellFounded
import StepGraph.Proofs.Roster

/-!
Which elements the rules of a view select, and in which order. Rules work one after the other, so an
element can be let in, put out and let in again. What counts in the end is the last rule that
concerns it, and among the selectors that include it after it was last put out the first one.
-/
set_option autoImplicit false

namespace StepGraph

def Selector.reaches (n : Name) (expression : String) : Bool :=
  (parse expression).toOption.any (·.selects n)

theorem Selector.any_reaches {expressions : List String} {selectors : List Selector}
    (h : parseAll expressions = .ok selectors) (n : Name) :
    expressions.any (reaches n) = selectors.any (·.selects n) := by
  have hmap : expressions.map (reaches n) = selectors.map (·.selects n) :=
    map_eq_map_of_forall₂ (mapM_eq_ok_iff.mp h) fun e s hs => by
      simp [reaches, hs, Except.toOption]
  have hany := congrArg (List.any · id) hmap
  simpa [List.any_map] using hany

def Rule.concerns (n : Name) : Rule → Bool
  | .including expressions | .excluding expressions => expressions.any (Selector.reaches n)
  | .styling _ => false

/-- The selectors that bring a name in, each told by the place of its rule and its own place
there: they include it, and no later rule excludes it. -/
def places (rules : List Rule) (n : Name) : Set (Nat ×ₗ Nat) :=
  {p | (∃ expressions e, rules[(ofLex p).1]? = some (.including expressions) ∧
      expressions[(ofLex p).2]? = some e ∧ Selector.reaches n e = true) ∧
    ∀ k expressions, (ofLex p).1 < k → rules[k]? = some (.excluding expressions) →
      (Rule.excluding expressions).concerns n = false}

def Model.position (model : Model) (n : Name) : Nat := (model.elements.map (·.id)).idxOf n

theorem exists_isLeast {s : Set (Nat ×ₗ Nat)} (h : s.Nonempty) : ∃ p, IsLeast s p := by
  have hwf : WellFounded (fun p q : Nat ×ₗ Nat => p < q) := wellFounded_lt
  refine ⟨hwf.min s h, hwf.min_mem s h, fun q hq => ?_⟩
  exact not_lt.mp (hwf.not_lt_min s hq)

theorem getElem?_concat_eq_some_iff {α : Type} {xs : List α} {a b : α} {k : Nat} :
    (xs ++ [a])[k]? = some b ↔ xs[k]? = some b ∨ k = xs.length ∧ a = b := by
  rw [List.getElem?_append]
  split
  · rename_i hk
    simp [Nat.ne_of_lt hk]
  · rename_i hk
    rw [List.getElem?_eq_none (Nat.not_lt.mp hk), List.getElem?_singleton]
    simp only [reduceCtorEq, false_or]
    by_cases h : k = xs.length
    · simp [h]
    · simp [h, show k - xs.length ≠ 0 by omega]

section

variable {rules : List Rule} {n : Name} {p : Nat ×ₗ Nat}

theorem lt_length_of_mem_places (h : p ∈ places rules n) : (ofLex p).1 < rules.length := by
  obtain ⟨⟨expressions, _, hrule, _⟩, _⟩ := h
  exact (List.getElem?_eq_some_iff.mp hrule).1

@[simp] theorem places_nil : places [] n = ∅ := by
  rw [Set.eq_empty_iff_forall_notMem]
  intro p hp
  simpa using lt_length_of_mem_places hp

/-- A rule at the end takes away what it excludes, and adds its own selectors. -/
theorem mem_places_concat {r : Rule} : p ∈ places (rules ++ [r]) n ↔
    (p ∈ places rules n ∧ ∀ expressions, r = .excluding expressions → r.concerns n = false) ∨
    (ofLex p).1 = rules.length ∧ ∃ expressions e, r = .including expressions ∧
      expressions[(ofLex p).2]? = some e ∧ Selector.reaches n e = true := by
  simp only [places, Set.mem_ofPred_eq, getElem?_concat_eq_some_iff]
  constructor
  · intro h
    obtain ⟨⟨es, e, hrule, he, hreach⟩, hlater⟩ := h
    rcases hrule with hrule | ⟨hlen, hr⟩
    · have hlt := (List.getElem?_eq_some_iff.mp hrule).1
      refine .inl ⟨⟨⟨es, e, hrule, he, hreach⟩, fun k fs hk hf => hlater k fs hk (.inl hf)⟩, ?_⟩
      intro fs hr
      exact hr ▸ hlater rules.length fs hlt (.inr ⟨rfl, hr⟩)
    · exact .inr ⟨hlen, es, e, hr, he, hreach⟩
  · intro h
    rcases h with ⟨⟨⟨es, e, hrule, he, hreach⟩, hlater⟩, hr⟩ | ⟨hlen, es, e, rfl, he, hreach⟩
    · refine ⟨⟨es, e, .inl hrule, he, hreach⟩, fun k fs hk hf => ?_⟩
      rcases hf with hf | ⟨_, hf⟩
      · exact hlater k fs hk hf
      · exact hf ▸ hr fs hf
    · refine ⟨⟨es, e, .inr ⟨hlen, rfl⟩, he, hreach⟩, fun k fs hk hf => ?_⟩
      -- No rule comes after the one at the end.
      rcases hf with hf | ⟨_, hf⟩
      · have hlt := (List.getElem?_eq_some_iff.mp hf).1
        omega
      · cases hf

theorem Rule.concerns_including_of_getElem? {expressions : List String} {e : String} {j : Nat}
    (he : expressions[j]? = some e) (hreach : Selector.reaches n e = true) :
    (Rule.including expressions).concerns n = true :=
  List.any_eq_true.mpr ⟨e, List.mem_of_getElem? he, hreach⟩

theorem places_concat_of_not_concerns {r : Rule} (h : r.concerns n = false) :
    places (rules ++ [r]) n = places rules n := by
  ext p
  rw [mem_places_concat]
  constructor
  · intro hp
    rcases hp with ⟨hp, _⟩ | ⟨_, expressions, e, rfl, he, hreach⟩
    · exact hp
    · simp [Rule.concerns_including_of_getElem? he hreach] at h
  · exact fun hp => .inl ⟨hp, fun _ _ => h⟩

theorem places_excluding_of_concerns {expressions : List String}
    (h : (Rule.excluding expressions).concerns n = true) :
    places (rules ++ [.excluding expressions]) n = ∅ := by
  ext p
  simp [mem_places_concat, h]

theorem nonempty_places_including {expressions : List String}
    (h : (Rule.including expressions).concerns n = true) :
    (places (rules ++ [.including expressions]) n).Nonempty := by
  obtain ⟨e, he, hreach⟩ := List.any_eq_true.mp h
  obtain ⟨j, hj⟩ := List.getElem?_of_mem he
  exact ⟨toLex (rules.length, j), mem_places_concat.mpr (.inr ⟨rfl, _, e, rfl, hj, hreach⟩)⟩

/-- Some selector brings the name in if the last rule that concerns it includes it. -/
theorem nonempty_places_iff : (places rules n).Nonempty ↔
    ∃ expressions, (rules.filter (·.concerns n)).getLast? = some (.including expressions) := by
  induction rules using List.reverseRecOn with
  | nil => simp
  | append_singleton rules r ih =>
    rw [List.filter_append, List.getLast?_append]
    cases hr : r.concerns n with
    | false =>
      rw [places_concat_of_not_concerns hr, ih]
      simp [hr]
    | true =>
      cases r with
      | including expressions => simp [hr, nonempty_places_including hr]
      | excluding expressions => simp [hr, places_excluding_of_concerns hr]
      | styling r => cases hr

end

/-- The names are those that some selector brings in, in the order of the selectors that do so
first and then of the model. -/
structure SelectedBy (model : Model) (rules : List Rule) (selected : List Name) : Prop where
  mem_iff : ∀ n, n ∈ selected ↔ model.contains n = true ∧ (places rules n).Nonempty
  ordered : selected.Pairwise fun a b => ∀ p q, IsLeast (places rules a) p →
    IsLeast (places rules b) q → toLex (p, model.position a) < toLex (q, model.position b)

namespace SelectedBy

variable {model : Model} {rules : List Rule} {selected : List Name}

theorem nil : SelectedBy model [] [] := ⟨by simp, .nil⟩

theorem unconcerned (h : SelectedBy model rules selected) {r : Rule}
    (hr : ∀ n, r.concerns n = false) : SelectedBy model (rules ++ [r]) selected := by
  have hplaces : places (rules ++ [r]) = places rules :=
    funext fun n => places_concat_of_not_concerns (hr n)
  constructor
  · rw [hplaces]
    exact h.mem_iff
  · rw [hplaces]
    exact h.ordered

theorem excluding (h : SelectedBy model rules selected) (expressions : List String) :
    SelectedBy model (rules ++ [.excluding expressions])
      (selected.filter fun n => !(Rule.excluding expressions).concerns n) := by
  constructor
  · intro n
    rw [List.mem_filter, h.mem_iff]
    cases hn : (Rule.excluding expressions).concerns n with
    | false => simp [places_concat_of_not_concerns hn]
    | true => simp [places_excluding_of_concerns hn]
  · refine (h.ordered.filter _).imp_of_mem fun {a b} ha hb hab => ?_
    have ha := (List.mem_filter.mp ha).2
    have hb := (List.mem_filter.mp hb).2
    rw [Bool.not_eq_true'] at ha hb
    rwa [places_concat_of_not_concerns ha, places_concat_of_not_concerns hb]

theorem places_including_concat (before : List String) (e : String) (n : Name) :
    places (rules ++ [.including (before ++ [e])]) n =
      places (rules ++ [.including before]) n ∪
        if Selector.reaches n e then {toLex (rules.length, before.length)} else ∅ := by
  ext p
  have hplace : p = toLex (rules.length, before.length) ↔
      (ofLex p).1 = rules.length ∧ (ofLex p).2 = before.length := by
    rw [← ofLex_inj, ofLex_toLex, Prod.ext_iff]
  rw [Set.mem_union, mem_places_concat, mem_places_concat]
  simp only [reduceCtorEq, false_implies, implies_true, and_true, Rule.including.injEq,
    exists_and_left, exists_eq_left', getElem?_concat_eq_some_iff, or_and_right, exists_or,
    and_or_left, and_assoc, or_assoc]
  cases hr : Selector.reaches n e <;> simp [hplace]

theorem lt_of_mem_including {before : List String} {n : Name} {p : Nat ×ₗ Nat}
    (h : p ∈ places (rules ++ [.including before]) n) :
    p < toLex (rules.length, before.length) := by
  rw [← toLex_ofLex p, Prod.Lex.toLex_lt_toLex]
  rcases mem_places_concat.mp h with ⟨h, _⟩ | ⟨hrule, _, e, hbefore, he, _⟩
  · exact .inl (lt_length_of_mem_places h)
  · cases hbefore
    exact .inr ⟨hrule, (List.getElem?_eq_some_iff.mp he).1⟩

/-- A selector further on does not matter to a name that is brought in already. -/
theorem isLeast_of_including_concat {before : List String} {e : String} {n : Name} {p : Nat ×ₗ Nat}
    (hn : (places (rules ++ [.including before]) n).Nonempty)
    (hp : IsLeast (places (rules ++ [.including (before ++ [e])]) n) p) :
    IsLeast (places (rules ++ [.including before]) n) p := by
  rw [places_including_concat] at hp
  refine ⟨?_, fun q hq => hp.2 (.inl hq)⟩
  rcases hp.1 with hold | hnew
  · exact hold
  · obtain ⟨q, hq⟩ := hn
    have hle := hp.2 (.inl hq)
    have hlt := lt_of_mem_including hq
    split at hnew
    · rw [Set.mem_singleton_iff.mp hnew] at hle
      exact absurd hlt (not_lt.mpr hle)
    · exact absurd hnew (Set.notMem_empty p)

theorem eq_of_isLeast_including_concat {before : List String} {e : String} {n : Name}
    {p : Nat ×ₗ Nat} (hn : ¬(places (rules ++ [.including before]) n).Nonempty)
    (hp : IsLeast (places (rules ++ [.including (before ++ [e])]) n) p) :
    p = toLex (rules.length, before.length) := by
  rw [places_including_concat, Set.not_nonempty_iff_eq_empty.mp hn, Set.empty_union] at hp
  have hmem := hp.1
  split at hmem
  · exact Set.mem_singleton_iff.mp hmem
  · exact absurd hmem (Set.notMem_empty p)

theorem addSelected {before : List String} {e : String} {s : Selector} {more : List Name}
    (h : SelectedBy model (rules ++ [.including before]) selected) (hs : Selector.parse e = .ok s)
    (hmore : StepGraph.addSelected model selected s = .ok more) :
    SelectedBy model (rules ++ [.including (before ++ [e])]) more := by
  simp only [StepGraph.addSelected, bind_eq_ok_iff, pure_eq_ok_iff] at hmore
  obtain ⟨_, _, rfl⟩ := hmore
  have hreach : ∀ n, Selector.reaches n e = s.selects n := by
    intro n
    simp [Selector.reaches, hs, Except.toOption]
  constructor
  · intro n
    rw [mem_appendNew, List.mem_filter, h.mem_iff, Model.mem_ids_iff, places_including_concat,
      Set.union_nonempty, hreach]
    cases s.selects n
    · simp
    · simpa using fun hn _ => hn
  · rw [appendNew_eq, List.filter_filter, eraseDups_filter, List.pairwise_append]
    have hnew : ∀ n ∈ (model.elements.map (·.id)).eraseDups.filter fun n =>
        !selected.contains n && s.selects n,
        ¬(places (rules ++ [.including before]) n).Nonempty := by
      intro n hn hne
      simp only [List.mem_filter, List.mem_eraseDups, Model.mem_ids_iff, Bool.and_eq_true] at hn
      simp [(h.mem_iff n).mpr ⟨hn.1, hne⟩] at hn
    refine ⟨h.ordered.imp_of_mem fun {a b} ha hb hab p q hp hq => ?_, ?_, ?_⟩
    · have ha := ((h.mem_iff a).mp ha).2
      have hb := ((h.mem_iff b).mp hb).2
      exact hab p q (isLeast_of_including_concat ha hp) (isLeast_of_including_concat hb hq)
    · refine ((pairwise_idxOf_eraseDups _).filter _).imp_of_mem fun {a b} ha hb hab p q hp hq => ?_
      rw [eq_of_isLeast_including_concat (hnew a ha) hp,
        eq_of_isLeast_including_concat (hnew b hb) hq, Prod.Lex.toLex_lt_toLex]
      exact .inr ⟨rfl, hab⟩
    · intro a ha b hb p q hp hq
      have hold := isLeast_of_including_concat ((h.mem_iff a).mp ha).2 hp
      rw [eq_of_isLeast_including_concat (hnew b hb) hq, Prod.Lex.toLex_lt_toLex]
      exact .inl (lt_of_mem_including hold.1)

theorem including {before after : List String} {selectors : List Selector} {more : List Name}
    (h : SelectedBy model (rules ++ [.including before]) selected)
    (hs : List.Forall₂ (fun e s => Selector.parse e = .ok s) after selectors)
    (hmore : selectors.foldlM (StepGraph.addSelected model) selected = .ok more) :
    SelectedBy model (rules ++ [.including (before ++ after)]) more := by
  induction hs generalizing before selected with
  | nil =>
    rw [List.foldlM_nil, pure_eq_ok_iff] at hmore
    rwa [List.append_nil, ← hmore]
  | @cons e s after selectors he _ ih =>
    rw [List.foldlM_cons, bind_eq_ok_iff] at hmore
    obtain ⟨next, hnext, hmore⟩ := hmore
    have hrest := ih (h.addSelected he hnext) hmore
    rwa [List.append_assoc] at hrest

theorem applyRule {r : Rule} {more : List Name} (h : SelectedBy model rules selected)
    (hr : StepGraph.applyRule model selected r = .ok more) :
    SelectedBy model (rules ++ [r]) more := by
  cases r with
  | including expressions =>
    simp only [StepGraph.applyRule, bind_eq_ok_iff] at hr
    obtain ⟨selectors, hs, hmore⟩ := hr
    have hempty : SelectedBy model (rules ++ [.including []]) selected :=
      h.unconcerned fun _ => rfl
    exact hempty.including (mapM_eq_ok_iff.mp hs) hmore
  | excluding expressions =>
    simp only [StepGraph.applyRule, bind_eq_ok_iff, pure_eq_ok_iff] at hr
    obtain ⟨selectors, hs, rfl⟩ := hr
    have hconcerns : ∀ n,
        (Rule.excluding expressions).concerns n = selectors.any (·.selects n) :=
      Selector.any_reaches hs
    simpa only [hconcerns] using h.excluding expressions
  | styling r =>
    cases hr
    exact h.unconcerned fun _ => rfl

theorem foldlM {rest : List Rule} {more : List Name} (h : SelectedBy model rules selected)
    (hmore : rest.foldlM (StepGraph.applyRule model) selected = .ok more) :
    SelectedBy model (rules ++ rest) more := by
  induction rest generalizing rules selected with
  | nil =>
    rw [List.foldlM_nil, pure_eq_ok_iff] at hmore
    rwa [List.append_nil, ← hmore]
  | cons r rest ih =>
    rw [List.foldlM_cons, bind_eq_ok_iff] at hmore
    obtain ⟨next, hnext, hmore⟩ := hmore
    have hrest := ih (h.applyRule hnext) hmore
    rwa [List.append_assoc] at hrest

end SelectedBy

theorem selectedBy_selectedElements {model : Model} {rules : List Rule} {selected : List Name}
    (h : selectedElements model rules = .ok selected) : SelectedBy model rules selected :=
  SelectedBy.nil.foldlM h

/-- Elements that can be selected in more than one way: each is selected once, and it is selected if
and only if the last rule that concerns it includes it. They are listed by rule, then by selector,
then by where the model has them first; what counts is the first selector that includes an element
after the last rule that excludes it. -/
theorem selected_by_last_rule {model : Model} {rules : List Rule} {selected : List Name}
    (h : selectedElements model rules = .ok selected) :
    selected.Nodup ∧
    (∀ n, n ∈ selected ↔ model.contains n = true ∧
      ∃ expressions, (rules.filter (·.concerns n)).getLast? = some (.including expressions)) ∧
    (∀ n ∈ selected, ∃ p, IsLeast (places rules n) p) ∧
    selected.Pairwise fun a b => ∀ p q, IsLeast (places rules a) p → IsLeast (places rules b) q →
      toLex (p, model.position a) < toLex (q, model.position b) := by
  have hselected := selectedBy_selectedElements h
  refine ⟨(enrols_selectedElements h).nodup, fun n => ?_, fun n hn => ?_, hselected.ordered⟩
  · rw [hselected.mem_iff, nonempty_places_iff]
  · exact exists_isLeast ((hselected.mem_iff n).mp hn).2

def marketModel : Model where
  elements := ["stall", "gate", "stall.till", "gate", "well"].map fun n => { id := ⟨n⟩ }

/-- The stall is let in, put out and let in again. -/
def marketRules : List Rule :=
  [.including ["well", "*"], .excluding ["stall", "gate.*"], .styling { targets := ["*"] },
   .including ["stall.**", "*"]]

theorem selectedElements_market : selectedElements marketModel marketRules =
    .ok [⟨"well"⟩, ⟨"gate"⟩, ⟨"stall.till"⟩, ⟨"stall"⟩] := by rfl

theorem selected_by_last_rule_market :
    ∃ selected, selectedElements marketModel marketRules = .ok selected ∧
      selected.map (·.text) = ["well", "gate", "stall.till", "stall"] ∧ selected.Nodup ∧
      (∀ n, n ∈ selected ↔ marketModel.contains n = true ∧ ∃ expressions,
        (marketRules.filter (·.concerns n)).getLast? = some (.including expressions)) ∧
      (∀ n ∈ selected, ∃ p, IsLeast (places marketRules n) p) ∧
      selected.Pairwise fun a b => ∀ p q, IsLeast (places marketRules a) p →
        IsLeast (places marketRules b) q →
        toLex (p, marketModel.position a) < toLex (q, marketModel.position b) :=
  ⟨_, selectedElements_market, rfl, selected_by_last_rule selectedElements_market⟩

end StepGraph
