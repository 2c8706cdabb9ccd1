import StepGraph.Proofs.Graph.EdgeIds
import StepGraph.Proofs.Walk.Solitary

/-!
The search for an id as a loop that nothing bounds. Where levels are open every position makes
another id, so the loop passes over no more ids than were given out among the same paths. Outside of
forks all positions make one id, and there the loop ends only because a walk never comes to the same
root number twice.
-/
set_option autoImplicit false

namespace StepGraph

/-- A search, told by its first position, by how many taken ids it passes over and by the position of
the free one at which it ends. -/
inductive Search (taken : EdgeId → Bool) (idAt : Nat → EdgeId) : Nat → Nat → Nat → Prop where
  | stop {position : Nat} : taken (idAt position) = false → Search taken idAt position 0 position
  | advance {position passed last : Nat} : taken (idAt position) = true →
    Search taken idAt (position + 1) passed last → Search taken idAt position (passed + 1) last

namespace Search

variable {taken : EdgeId → Bool} {idAt : Nat → EdgeId} {start passed last : Nat}

theorem unique (h : Search taken idAt start passed last) {n m : Nat}
    (hn : Search taken idAt start n m) : n = passed ∧ m = last := by
  induction h generalizing n m with
  | stop hfree =>
    cases hn with
    | stop => exact ⟨rfl, rfl⟩
    | advance htaken => simp [hfree] at htaken
  | advance htaken _ ih =>
    cases hn with
    | stop hfree => simp [htaken] at hfree
    | advance _ hrest =>
      obtain ⟨hpassed, hlast⟩ := ih hrest
      exact ⟨congrArg (· + 1) hpassed, hlast⟩

theorem taken_of_lt (h : Search taken idAt start passed last) {q : Nat} (hq : start ≤ q)
    (hlt : q < start + passed) : taken (idAt q) = true := by
  induction h with
  | stop => omega
  | @advance position passed last htaken _ ih =>
    rcases Nat.eq_or_lt_of_le hq with rfl | hq
    · exact htaken
    · exact ih hq (by omega)

theorem passed_eq_zero (h : Search taken idAt start passed last)
    (hfree : taken (idAt start) = false) : passed = 0 := by
  cases h with
  | stop => rfl
  | advance htaken => simp [hfree] at htaken

end Search

theorem IsFirstFree.search {ids : List EdgeId} {taken : EdgeId → Bool} {idAt : Nat → EdgeId}
    {start last : Nat} (h : IsFirstFree ids idAt start last)
    (htaken : ∀ id, taken id = true ↔ id ∈ ids) : Search taken idAt start (last - start) last := by
  generalize hd : last - start = d
  induction d generalizing start with
  | zero =>
    have hle := h.le
    obtain rfl : last = start := by omega
    refine .stop (Bool.eq_false_iff.mpr fun ht => ?_)
    exact h.free ((htaken _).mp ht)
  | succ d ih =>
    refine .advance ((htaken _).mpr (h.below start (Nat.le_refl _) (by omega))) ?_
    exact ih ⟨by omega, h.free, fun q hq => h.below q (by omega)⟩ (by omega)

namespace Walk

def alongside {α : Type} (root : Nat) (w : Walk α) : Nat :=
  w.placed.countP fun p =>
    p.id.numbers.dropLast == root :: (w.journal.levels.map (·.index)).reverse

variable {α : Type} {w : Walk α} {root : Nat}

theorem dropLast_numbers_idAt (hw : w.journal.levels ≠ []) (root position : Nat) :
    (w.journal.idAt root position).numbers.dropLast =
      root :: (w.journal.levels.map (·.index)).reverse := by
  rw [Journal.idAt, if_neg (by simpa [Journal.isIdle] using hw), EdgeId.numbers_ofSegments,
    ← List.cons_append, List.dropLast_concat]

theorem passed_le_alongside (hw : w.journal.levels ≠ []) {start passed last : Nat}
    (h : Search w.isTaken (w.journal.idAt root) start passed last) :
    passed ≤ w.alongside root := by
  have hsub : (List.range' start passed).map (w.journal.idAt root) ⊆
      (w.placed.filter fun p => p.id.numbers.dropLast ==
        root :: (w.journal.levels.map (·.index)).reverse).map (·.id) := by
    intro id hid
    obtain ⟨q, hq, rfl⟩ := List.mem_map.mp hid
    rw [List.mem_range'_1] at hq
    obtain ⟨p, hp, hpid⟩ := List.mem_map.mp ((w.isTaken_iff _).mp (h.taken_of_lt hq.1 hq.2))
    refine List.mem_map.mpr ⟨p, List.mem_filter.mpr ⟨hp, ?_⟩, hpid⟩
    rw [hpid, w.dropLast_numbers_idAt hw, beq_self_eq_true]
  have hnodup : ((List.range' start passed).map (w.journal.idAt root)).Nodup :=
    List.Nodup.map (fun p q => Journal.idAt_injective hw) List.nodup_range'
  have hlen := hnodup.length_le_of_subset hsub
  rwa [List.length_map, List.length_range', List.length_map,
    ← List.countP_eq_length_filter] at hlen

theorem placed_prefix_run {resolve : Interaction → Except Fault α} (visits : List (Nat × Visit))
    (w : Walk α) : w.placed <+: (run resolve visits w).placed := by
  induction visits generalizing w with
  | nil => exact List.prefix_rfl
  | cons v visits ih =>
    refine List.IsPrefix.trans ?_ (ih _)
    obtain ⟨root, v⟩ := v
    cases v with
    | enter f p n => exact List.prefix_rfl
    | meet i =>
      simp only [visit, meet, place]
      split
      · exact List.prefix_rfl
      · exact List.prefix_rfl
      · exact List.prefix_append _ _
    | leave => exact List.prefix_rfl

theorem nodup_ids_of_run {resolve : Interaction → Except Fault α} (visits : List (Nat × Visit))
    {w : Walk α} (h : ((run resolve visits w).placed.map (·.id)).Nodup) :
    (w.placed.map (·.id)).Nodup := h.sublist ((placed_prefix_run visits w).map _).sublist

end Walk

/-- The walk through the steps of the view comes so far without a failure, and what it meets next
gets an id of the root number. -/
structure Scene.Reaches (s : Scene) (v : View) (root : Nat) (w : Walk Resolved) : Prop where
  exists_visits : ∃ before i after, rootVisits 1 v.steps = before ++ (root, .meet i) :: after ∧
    Walk.run s.resolve before {} = w
  sound : w.failure = none

theorem nodup_ids_of_visits (steps : List Step) :
    ((Walk.run .ok (rootVisits 1 steps) {}).placed.map (·.id)).Nodup := by
  have hok : (Walk.run .ok (rootVisits 1 steps) {}).failure = none := by
    rw [Walk.failure_run, firstFault_eq_none_iff.mpr fun i _ => ⟨i, rfl⟩]
    rfl
  have hstart : Walk.HasMet .ok ({} : Walk Interaction) [] [] := ⟨rfl, .nil⟩
  have hmet : Walk.HasMet .ok _ ([] ++ rootSites 1 0 steps) [] :=
    run_rootVisits steps hstart (fun t ht => absurd ht List.not_mem_nil) hok
  exact hmet.placings.nodup (rootSites_pairwise 1 0 steps)

namespace Scene.Reaches

variable {s : Scene} {v : View} {root : Nat} {w : Walk Resolved}

/-- The walk goes on as one that fails nowhere, and no id of that one is given out twice. -/
theorem nodup_concat (h : s.Reaches v root w) :
    (w.placed.map (·.id) ++ [w.journal.idAt root (w.position root)]).Nodup := by
  obtain ⟨⟨before, i, after, hvisits, rfl⟩, hok⟩ := h
  have havoids (r : Nat) : AvoidsRoot r ([] : List (Placed Resolved)) := List.forall_mem_nil _
  have hstart : Walk.Follows s [] {} {} := ⟨rfl, rfl, [], rfl, .nil⟩
  have hfollows : Walk.Follows s [] (Walk.run .ok before {}) (Walk.run s.resolve before {}) :=
    hstart.run (fun v _ => havoids v.1) hok
  obtain ⟨hid, _⟩ := hfollows.place_eq (havoids root)
  obtain ⟨added, hadded, hresolves⟩ := hfollows.placed
  have hnodup := nodup_ids_of_visits v.steps
  rw [hvisits, Walk.run_append, Walk.run_cons] at hnodup
  have hplaced := Walk.nodup_ids_of_run after hnodup
  simp only [Walk.visit, Walk.meet, hfollows.sound, Walk.place, List.map_append, List.map_cons,
    List.map_nil] at hplaced
  rwa [hadded, List.nil_append, ← map_id_of_resolves hresolves, ← hid]

theorem isTaken_position (h : s.Reaches v root w) :
    w.isTaken (w.journal.idAt root (w.position root)) = false := by
  rw [Bool.eq_false_iff]
  intro ht
  have hdisjoint := (List.nodup_append'.mp h.nodup_concat).2.2
  exact hdisjoint ((w.isTaken_iff _).mp ht) (List.mem_singleton_self _)

/-- Outside of forks all positions make one id. -/
theorem isTaken_of_outside (h : s.Reaches v root w) (hw : w.journal.levels = [])
    (position : Nat) : w.isTaken (w.journal.idAt root position) = false := by
  have hfree := h.isTaken_position
  simpa [Journal.idAt, Journal.isIdle, hw] using hfree

theorem search (h : s.Reaches v root w) : ∃ passed, Search w.isTaken (w.journal.idAt root)
    w.journal.nextPosition passed (w.position root) := by
  by_cases hw : w.journal.levels = []
  · have hstart : w.position root = w.journal.nextPosition := by
      unfold Walk.position
      cases w.placed.length with
      | zero => rfl
      | succ n => rw [freePosition, if_neg (by simp [h.isTaken_of_outside hw])]
    rw [hstart]
    exact ⟨0, .stop (h.isTaken_of_outside hw _)⟩
  · exact ⟨_, (w.isFirstFree_position root hw).search w.isTaken_iff⟩

end Scene.Reaches

/-- Wherever a walk comes to a step, the search for its id ends, at the position that the walk takes.
Where levels are open it passes over no more ids than were given out alongside, none of them twice;
outside of forks it passes over none. -/
theorem search_ends_of_reaches {s : Scene} {v : View} {root : Nat} {w : Walk Resolved}
    (h : s.Reaches v root w) : (w.placed.map (·.id)).Nodup ∧
    ∃ passed, Search w.isTaken (w.journal.idAt root) w.journal.nextPosition passed
        (w.position root) ∧
      (∀ n last, Search w.isTaken (w.journal.idAt root) w.journal.nextPosition n last →
        n = passed ∧ last = w.position root) ∧
      (w.journal.levels ≠ [] → passed ≤ w.alongside root) ∧
      (w.journal.levels = [] → passed = 0) := by
  obtain ⟨passed, hsearch⟩ := h.search
  refine ⟨(List.nodup_append'.mp h.nodup_concat).1, passed, hsearch, ?_, ?_, ?_⟩
  · exact fun n last hn => hsearch.unique hn
  · exact fun hw => Walk.passed_le_alongside hw hsearch
  · exact fun hw => hsearch.passed_eq_zero (h.isTaken_of_outside hw _)

/-- The step inside `tell` begins at the first position, and two ids were given out alongside. -/
theorem exists_reaches_checkout :
    ∃ w, (checkoutView.sceneOf checkoutModel [⟨"shop"⟩]).Reaches checkoutView 2 w ∧
      w.journal.levels.map (·.index) = [1, 1] ∧ w.alongside 2 = 2 ∧ w.position 2 = 3 := by
  refine ⟨_, ⟨⟨(rootVisits 1 checkoutView.steps).take 10, checkoutCall "bank" "mail",
    (rootVisits 1 checkoutView.steps).drop 11, rfl, rfl⟩, ?_⟩, ?_, ?_, ?_⟩
  all_goals decide +kernel

theorem search_ends_of_reaches_checkout :
    ∃ w, (checkoutView.sceneOf checkoutModel [⟨"shop"⟩]).Reaches checkoutView 2 w ∧
      w.journal.levels.map (·.index) = [1, 1] ∧ w.alongside 2 = 2 ∧ w.position 2 = 3 ∧
      (w.placed.map (·.id)).Nodup ∧
      ∃ passed, Search w.isTaken (w.journal.idAt 2) w.journal.nextPosition passed (w.position 2) ∧
        (∀ n last, Search w.isTaken (w.journal.idAt 2) w.journal.nextPosition n last →
          n = passed ∧ last = w.position 2) ∧
        (w.journal.levels ≠ [] → passed ≤ w.alongside 2) ∧
        (w.journal.levels = [] → passed = 0) := by
  obtain ⟨w, hw, hlevels, halongside, hposition⟩ := exists_reaches_checkout
  exact ⟨w, hw, hlevels, halongside, hposition, search_ends_of_reaches hw⟩

end StepGraph
