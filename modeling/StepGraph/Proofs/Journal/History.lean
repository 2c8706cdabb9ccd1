import Mathlib.Data.List.Induction
import StepGraph.Proofs.Journal

/-!
Journals read off what was done to them. Whatever the order in which levels are entered and left,
ids recorded and steps counted, the open levels are those entered and not left since, and the
summary can be told from the acts alone.
-/
set_option autoImplicit false

namespace StepGraph

section

variable {α : Type} (key : α → String)

def firstsBy : List α → List α
  | [] => []
  | a :: rest => a :: (firstsBy rest).filter (key · != key a)

theorem firstsBy_sublist (xs : List α) : (firstsBy key xs).Sublist xs := by
  induction xs with
  | nil => exact List.Sublist.slnil
  | cons a rest ih => exact (List.filter_sublist.trans ih).cons_cons a

theorem mem_map_firstsBy {k : String} {xs : List α} :
    k ∈ (firstsBy key xs).map key ↔ k ∈ xs.map key := by
  induction xs with
  | nil => rfl
  | cons a rest ih =>
    have hrest : k ∈ ((firstsBy key rest).filter (key · != key a)).map key ↔
        k ∈ rest.map key ∧ k ≠ key a := by
      rw [← ih]
      simp only [List.mem_map, List.mem_filter, bne_iff_ne]
      constructor
      · rintro ⟨b, ⟨hb, hne⟩, rfl⟩
        exact ⟨⟨b, hb, rfl⟩, hne⟩
      · rintro ⟨⟨b, hb, rfl⟩, hne⟩
        exact ⟨b, ⟨hb, hne⟩, rfl⟩
    rw [firstsBy, List.map_cons, List.mem_cons, hrest, List.map_cons, List.mem_cons]
    by_cases h : k = key a <;> simp [h]

theorem nodup_map_firstsBy (xs : List α) : ((firstsBy key xs).map key).Nodup := by
  induction xs with
  | nil => exact List.nodup_nil
  | cons a rest ih =>
    rw [firstsBy, List.map_cons, List.nodup_cons]
    refine ⟨?_, ih.sublist (List.filter_sublist.map key)⟩
    simp

/-- Of a second list only the keys that are new count. -/
theorem firstsBy_append (xs ys : List α) : firstsBy key (xs ++ ys) =
    firstsBy key xs ++ (firstsBy key ys).filter fun b => !(xs.map key).contains (key b) := by
  induction xs with
  | nil => simp [firstsBy]
  | cons a rest ih =>
    rw [List.cons_append, firstsBy, ih, List.filter_append, List.filter_filter, firstsBy,
      List.cons_append]
    congr 2
    refine List.filter_congr fun b _ => ?_
    simp [bne, Bool.beq_eq_decide_eq]

theorem firstsBy_concat_of_mem {xs : List α} {a : α} (h : key a ∈ xs.map key) :
    firstsBy key (xs ++ [a]) = firstsBy key xs := by
  simp [firstsBy_append, firstsBy, List.mem_map.mp h]

theorem firstsBy_concat_of_not_mem {xs : List α} {a : α} (h : key a ∉ xs.map key) :
    firstsBy key (xs ++ [a]) = firstsBy key xs ++ [a] := by
  have hall : ∀ b ∈ xs, key b ≠ key a := fun b hb he => h (List.mem_map.mpr ⟨b, hb, he⟩)
  simpa [firstsBy_append, firstsBy] using hall

theorem firstsBy_of_nodup {xs : List α} (h : (xs.map key).Nodup) : firstsBy key xs = xs := by
  induction xs with
  | nil => rfl
  | cons a rest ih =>
    rw [List.map_cons, List.nodup_cons] at h
    rw [firstsBy, ih h.2, List.filter_eq_self.mpr]
    intro b hb
    rw [bne_iff_ne]
    exact fun he => h.1 (List.mem_map.mpr ⟨b, hb, he⟩)

end

/-- What can be done to a journal. A level may be opened with any count that a word can hold. -/
inductive Act where
  | enter (l : Level) (fits : l.count < UInt64.size)
  | leave
  | record (id : EdgeId)
  | advance

namespace Act

def isAdvance : Act → Bool
  | .advance => true
  | _ => false

def entered? : Act → Option Level
  | .enter l _ => some l
  | _ => none

def recorded? : Act → Option EdgeId
  | .record id => some id
  | _ => none

/-- How many of the levels open before the acts are left in their course, if there are as many. -/
def leavings : List Act → Nat
  | [] => 0
  | .enter _ _ :: rest => leavings rest - 1
  | .leave :: rest => leavings rest + 1
  | .record _ :: rest => leavings rest
  | .advance :: rest => leavings rest

/-- The levels entered and not left again, the outermost first, each with the acts since. -/
def openings : List Act → List (Level × List Act)
  | [] => []
  | .enter l _ :: rest => if leavings rest = 0 then (l, rest) :: openings rest else openings rest
  | .leave :: rest => openings rest
  | .record _ :: rest => openings rest
  | .advance :: rest => openings rest

def entered (acts : List Act) : List Level := acts.filterMap entered?

def recorded (acts : List Act) : List Entry :=
  acts.zipIdx.filterMap fun (a, n) =>
    a.recorded?.map fun id => (id, (openings (acts.take n)).map (·.1.key))

theorem entered_append (first second : List Act) :
    entered (first ++ second) = entered first ++ entered second := List.filterMap_append

theorem entered_concat (acts : List Act) (a : Act) :
    entered (acts ++ [a]) = entered acts ++ a.entered?.toList := by
  rw [entered_append]
  cases a <;> rfl

theorem recorded_concat (acts : List Act) (a : Act) : recorded (acts ++ [a]) =
    recorded acts ++ (a.recorded?.map fun id => (id, (openings acts).map (·.1.key))).toList := by
  rw [recorded, List.zipIdx_append, List.filterMap_append]
  congr 1
  · refine List.filterMap_congr fun (b, n) hb => ?_
    have hlt : n < acts.length := by simpa using (List.mem_zipIdx hb).2.1
    simp only [List.take_append_of_le_length (Nat.le_of_lt hlt)]
  · cases a <;> simp [recorded?]

theorem mem_entered_of_mem_openings {acts : List Act} {o : Level × List Act}
    (h : o ∈ openings acts) : o.1 ∈ entered acts := by
  induction acts with
  | nil => simp [openings] at h
  | cons a rest ih =>
    have hrest : o ∈ openings rest → o.1 ∈ entered (a :: rest) := by
      intro ho
      rw [← List.singleton_append, entered_append]
      exact List.mem_append_right _ (ih ho)
    cases a with
    | enter l fits =>
      rw [openings] at h
      split at h
      · rcases List.mem_cons.mp h with rfl | h
        · exact List.mem_cons_self
        · exact hrest h
      · exact hrest h
    | leave => exact hrest h
    | record id => exact hrest h
    | advance => exact hrest h

/-- Whatever was recorded, was so on levels that had been entered. -/
theorem key_mem_of_mem_recorded {acts : List Act} {x : Entry} (h : x ∈ recorded acts) {key : Key}
    (hkey : key ∈ x.2) : key ∈ (entered acts).map Level.key := by
  rw [recorded, List.mem_filterMap] at h
  obtain ⟨⟨a, n⟩, _, hx⟩ := h
  obtain ⟨id, _, rfl⟩ := Option.map_eq_some_iff.mp hx
  obtain ⟨o, ho, rfl⟩ := List.mem_map.mp hkey
  have hsplit := entered_append (acts.take n) (acts.drop n)
  rw [List.take_append_drop] at hsplit
  rw [hsplit]
  exact List.mem_map_of_mem (List.mem_append_left _ (mem_entered_of_mem_openings ho))

end Act

open Act

namespace Journal

def act (j : Journal) : Act → Journal
  | .enter l _ => j.enter l
  | .leave => j.leave.2
  | .record id => j.record id
  | .advance => j.advance

def after (acts : List Act) : Journal := acts.foldl act {}

theorem after_concat (acts : List Act) (a : Act) : after (acts ++ [a]) = (after acts).act a := by
  simp [after]

end Journal

def Level.counted (since : List Act) (l : Level) : Level :=
  { l with count := (l.count + since.countP isAdvance) % UInt64.size }

@[simp] theorem Level.key_counted (since : List Act) (l : Level) :
    (l.counted since).key = l.key := rfl

theorem Level.counted_nil {l : Level} (h : l.count < UInt64.size) : l.counted [] = l := by
  rw [counted, List.countP_nil, Nat.add_zero, Nat.mod_eq_of_lt h]

theorem Level.counted_cons {a : Act} (h : a.isAdvance = false) (since : List Act) (l : Level) :
    l.counted (a :: since) = l.counted since := by
  rw [counted, counted, List.countP_cons_of_neg (by simp [h])]

/-- One reduction at the end is as good as one at every step. -/
theorem Level.counted_advance (since : List Act) (l : Level) :
    l.counted (.advance :: since) =
      { l with count := (l.count + 1) % UInt64.size }.counted since := by
  have hcount : (Act.advance :: since).countP isAdvance = since.countP isAdvance + 1 :=
    List.countP_cons_of_pos rfl
  rw [counted, counted, hcount, Nat.mod_add_mod, Nat.add_assoc, Nat.add_comm 1]

namespace Journal

def Fits (j : Journal) : Prop := ∀ l ∈ j.levels, l.count < UInt64.size

theorem Fits.act {j : Journal} (h : j.Fits) (a : Act) : (j.act a).Fits := by
  cases a with
  | enter l fits => exact List.forall_mem_cons.mpr ⟨fits, h⟩
  | leave =>
    intro l hl
    rw [Journal.act, levels_leave] at hl
    exact h l (List.mem_of_mem_tail hl)
  | record id => exact h
  | advance => exact List.forall_mem_map.mpr fun l _ => Nat.mod_lt _ (by decide)

theorem levels_foldl_act (acts : List Act) {j : Journal} (h : j.Fits) :
    (acts.foldl act j).levels = ((openings acts).map fun o => o.1.counted o.2).reverse ++
      (j.levels.drop (leavings acts)).map (·.counted acts) := by
  induction acts generalizing j with
  | nil =>
    have hsame : j.levels.map (·.counted []) = j.levels.map id :=
      List.map_congr_left fun l hl => Level.counted_nil (h l hl)
    simp [openings, leavings, hsame]
  | cons a rest ih =>
    rw [List.foldl_cons, ih (h.act a)]
    cases a with
    | enter l fits =>
      have hcounted := Level.counted_cons (rfl : (Act.enter l fits).isAdvance = false) rest
      simp only [act, enter, openings, leavings, hcounted]
      -- The level entered is the first that what follows can leave.
      cases leavings rest with
      | zero => simp
      | succ n => simp
    | leave =>
      have hcounted := Level.counted_cons (rfl : Act.leave.isAdvance = false) rest
      simp only [act, openings, leavings, hcounted, levels_leave, List.drop_tail]
    | record id =>
      have hcounted := Level.counted_cons (rfl : (Act.record id).isAdvance = false) rest
      simp only [act, Journal.record, openings, leavings, hcounted]
    | advance =>
      simp only [act, Journal.advance, openings, leavings, Level.counted_advance, ← List.map_drop,
        List.map_map, Function.comp_def]

theorem levels_after (acts : List Act) :
    (after acts).levels = ((openings acts).map fun o => o.1.counted o.2).reverse := by
  have hempty : Fits {} := fun l hl => by simp at hl
  rw [after, levels_foldl_act acts hempty]
  simp

end Journal

def forkRecord (levels : List Level) (log : List Entry) (l : Level) : ForkRecord where
  fork := l.fork
  paths := (firstsBy (·.path.id) (levels.filter (·.fork.id == l.fork.id))).map fun m =>
    { path := m.path, index := m.index, ids := idsUnder m.key log }

def forkRecords (levels : List Level) (log : List Entry) : List ForkRecord :=
  (firstsBy (·.fork.id) levels).map (forkRecord levels log)

theorem map_id_forkRecords (levels : List Level) (log : List Entry) :
    (forkRecords levels log).map (·.fork.id) = (firstsBy (·.fork.id) levels).map (·.fork.id) := by
  simp [forkRecords, forkRecord]

theorem fork_id_of_mem_firstsBy {levels : List Level} {id : String} {m : Level}
    (h : m ∈ firstsBy (·.path.id) (levels.filter (·.fork.id == id))) : m.fork.id = id := by
  have hmem := (firstsBy_sublist _ _).subset h
  simpa using (List.mem_filter.mp hmem).2

/-- Only the ids under the keys of the levels matter. -/
theorem forkRecords_eq_of_holds {levels : List Level} {log log' : List Entry}
    (h : Holds (forkRecords levels log) log') :
    forkRecords levels log = forkRecords levels log' := by
  refine List.map_congr_left fun l hl => ?_
  have hids := h.ids _ (List.mem_map_of_mem hl)
  rw [forkRecord, forkRecord, ForkRecord.mk.injEq]
  refine ⟨rfl, List.map_congr_left fun m hm => ?_⟩
  have hkey : idsUnder m.key log = idsUnder (l.fork.id, m.path.id) log' :=
    hids _ (List.mem_map_of_mem hm)
  rw [Level.key, fork_id_of_mem_firstsBy hm] at hkey ⊢
  rw [hkey]

theorem recordUnder_forkRecord (levels : List Level) (log : List Entry) (l : Level) (x : Entry) :
    (forkRecord levels log l).recordUnder x.2 x.1 = forkRecord levels (log ++ [x]) l := by
  simp only [ForkRecord.recordUnder, forkRecord, List.map_map, ForkRecord.mk.injEq, true_and]
  refine List.map_congr_left fun m hm => ?_
  simp [idsUnder_concat, Level.key, fork_id_of_mem_firstsBy hm]

theorem enterOn_forkRecord {levels : List Level} {log : List Entry} {l : Level}
    (hnew : l.key ∉ levels.map Level.key → idsUnder l.key log = []) (m : Level) :
    (forkRecord levels log m).enterOn l = forkRecord (levels ++ [l]) log m := by
  rw [ForkRecord.enterOn]
  split
  · rename_i hf
    have hfork : m.fork.id = l.fork.id := beq_iff_eq.mp hf
    have hfilter : (levels ++ [l]).filter (·.fork.id == m.fork.id) =
        levels.filter (·.fork.id == m.fork.id) ++ [l] := by simp [hfork]
    have hpaths : (forkRecord levels log m).paths.any (·.path.id == l.path.id) = true ↔
        l.path.id ∈ (levels.filter (·.fork.id == m.fork.id)).map (·.path.id) := by
      rw [← mem_map_firstsBy]
      simp [forkRecord]
    rw [ForkRecord.enterPath]
    split
    · rename_i hp
      rw [forkRecord, forkRecord, hfilter, firstsBy_concat_of_mem _ (hpaths.mp hp)]
    -- A path that is new has no level of its key, and so nothing was recorded under it.
    · rename_i hp
      have hkey : l.key ∉ levels.map Level.key := by
        intro hmem
        obtain ⟨k, hk, he⟩ := List.mem_map.mp hmem
        rw [Level.key, Level.key, Prod.mk.injEq] at he
        refine hp (hpaths.mpr (List.mem_map.mpr ⟨k, List.mem_filter.mpr ⟨hk, ?_⟩, he.2⟩))
        rw [beq_iff_eq, he.1, hfork]
      rw [forkRecord, forkRecord, hfilter, firstsBy_concat_of_not_mem _ (mt hpaths.mpr hp)]
      simp [hnew hkey]
  · rename_i hf
    have hne : l.fork.id ≠ m.fork.id := fun he => hf (beq_iff_eq.mpr he.symm)
    have hfilter : (levels ++ [l]).filter (·.fork.id == m.fork.id) =
        levels.filter (·.fork.id == m.fork.id) := by simp [hne]
    rw [forkRecord, forkRecord, hfilter]

/-- A fork that was never entered has no record yet. -/
theorem withFork_forkRecords (levels : List Level) (log : List Entry) (l : Level) :
    withFork l.fork (forkRecords levels log) =
      (firstsBy (·.fork.id) (levels ++ [l])).map (forkRecord levels log) := by
  have hforks : (forkRecords levels log).any (·.fork.id == l.fork.id) = true ↔
      l.fork.id ∈ levels.map (·.fork.id) := by
    rw [← mem_map_firstsBy, ← map_id_forkRecords levels log]
    simp
  rw [withFork]
  split
  · rename_i h
    rw [firstsBy_concat_of_mem _ (hforks.mp h), forkRecords]
  · rename_i h
    have hmem := mt hforks.mpr h
    have hnone : levels.filter (·.fork.id == l.fork.id) = [] := by
      rw [List.filter_eq_nil_iff]
      intro m hm he
      exact hmem (List.mem_map.mpr ⟨m, hm, beq_iff_eq.mp he⟩)
    rw [firstsBy_concat_of_not_mem _ hmem, List.map_append, List.map_singleton, forkRecords]
    simp [forkRecord, hnone, firstsBy]

theorem enterFork_forkRecords {levels : List Level} {log : List Entry} {l : Level}
    (hnew : l.key ∉ levels.map Level.key → idsUnder l.key log = []) :
    Journal.enterFork l (forkRecords levels log) = forkRecords (levels ++ [l]) log := by
  have hnodup : ((forkRecords levels log).map (·.fork.id)).Nodup := by
    rw [map_id_forkRecords]
    exact nodup_map_firstsBy _ _
  rw [Journal.enterFork_eq l hnodup, withFork_forkRecords, List.map_map, forkRecords]
  exact List.map_congr_left fun m _ => enterOn_forkRecord hnew m

namespace Journal

theorem forks_after (acts : List Act) :
    (after acts).forks = forkRecords (entered acts) (recorded acts) := by
  induction acts using List.reverseRecOn with
  | nil => rfl
  | append_singleton acts a ih =>
    rw [after_concat, entered_concat, recorded_concat]
    cases a with
    | enter l fits =>
      have hnew : l.key ∉ (entered acts).map Level.key → idsUnder l.key (recorded acts) = [] :=
        fun hkey => idsUnder_eq_nil fun x hx h => hkey (key_mem_of_mem_recorded hx h)
      have h := enterFork_forkRecords hnew
      rw [← ih] at h
      simpa [act, enter, recorded?, entered?] using h
    | leave =>
      simp [act, forks_leave, ih, recorded?, entered?]
    | record id =>
      -- The journal goes through the levels from the innermost on, the log from the outermost on.
      have hperm : ((after acts).levels.map Level.key).Perm
          ((openings acts).map (·.1.key)) := by
        rw [levels_after, List.map_reverse, List.map_map]
        exact List.reverse_perm _
      have hrecord (r : ForkRecord) : r.recordUnder ((after acts).levels.map Level.key) id =
          r.recordUnder ((openings acts).map (·.1.key)) id := by
        simp only [ForkRecord.recordUnder, hperm.count_eq]
      let x : Entry := (id, (openings acts).map (·.1.key))
      have hmap : (forkRecords (entered acts) (recorded acts)).map (·.recordUnder x.2 x.1) =
          forkRecords (entered acts) (recorded acts ++ [x]) := by
        rw [forkRecords, List.map_map]
        exact List.map_congr_left fun l _ => recordUnder_forkRecord _ _ l x
      simpa [act, Journal.record, foldl_recordOn, hrecord, ih, recorded?, entered?] using hmap
    | advance => simp [act, Journal.advance, ih, recorded?, entered?]

/-- The slot of a key: the place of its fork, and in this the place of its path. -/
def HasSlot (j : Journal) (slot : Nat × Nat) (key : Key) : Prop :=
  ∃ r, j.forks[slot.1]? = some r ∧ r.fork.id = key.1 ∧
    ∃ q, r.paths[slot.2]? = some q ∧ q.path.id = key.2

theorem hasSlot_after_iff {acts : List Act} {slot : Nat × Nat} {key : Key} :
    (after acts).HasSlot slot key ↔
      (∃ l, (firstsBy (·.fork.id) (entered acts))[slot.1]? = some l ∧ l.fork.id = key.1) ∧
      ∃ m, (firstsBy (·.path.id) ((entered acts).filter (·.fork.id == key.1)))[slot.2]? = some m ∧
        m.path.id = key.2 := by
  rw [HasSlot, forks_after, forkRecords]
  simp only [List.getElem?_map, Option.map_eq_some_iff]
  constructor
  · rintro ⟨r, ⟨l, hl, rfl⟩, hfork, q, hq, hpath⟩
    replace hfork : l.fork.id = key.1 := hfork
    simp only [forkRecord, hfork, List.getElem?_map, Option.map_eq_some_iff] at hq
    obtain ⟨m, hm, rfl⟩ := hq
    exact ⟨⟨l, hl, hfork⟩, m, hm, hpath⟩
  · rintro ⟨⟨l, hl, hfork⟩, m, hm, hpath⟩
    refine ⟨_, ⟨l, hl, rfl⟩, hfork, ?_⟩
    simp only [forkRecord, hfork, List.getElem?_map, hm]
    exact ⟨_, rfl, hpath⟩

/-- What was first stays first, and so a slot never moves. -/
theorem hasSlot_after_append {acts : List Act} {slot : Nat × Nat} {key : Key}
    (h : (after acts).HasSlot slot key) (more : List Act) :
    (after (acts ++ more)).HasSlot slot key := by
  rw [hasSlot_after_iff] at h ⊢
  obtain ⟨⟨l, hl, hfork⟩, m, hm, hpath⟩ := h
  rw [entered_append, List.filter_append, firstsBy_append, firstsBy_append]
  have hll := (List.getElem?_eq_some_iff.mp hl).1
  have hmm := (List.getElem?_eq_some_iff.mp hm).1
  exact ⟨⟨l, (List.getElem?_append_left hll).trans hl, hfork⟩,
    m, (List.getElem?_append_left hmm).trans hm, hpath⟩

theorem exists_slot_of_mem {acts : List Act} {l : Level} (h : l ∈ entered acts) :
    ∃ slot, (after acts).HasSlot slot l.key := by
  have hfork : l.fork.id ∈ (firstsBy (·.fork.id) (entered acts)).map (·.fork.id) :=
    (mem_map_firstsBy _).mpr (List.mem_map_of_mem h)
  have hpath : l.path.id ∈ (firstsBy (·.path.id)
      ((entered acts).filter (·.fork.id == l.fork.id))).map (·.path.id) :=
    (mem_map_firstsBy _).mpr (List.mem_map_of_mem (List.mem_filter.mpr ⟨h, beq_self_eq_true _⟩))
  obtain ⟨k, hk, hkid⟩ := List.mem_map.mp hfork
  obtain ⟨m, hm, hmid⟩ := List.mem_map.mp hpath
  obtain ⟨i, hi⟩ := List.mem_iff_getElem?.mp hk
  obtain ⟨n, hn⟩ := List.mem_iff_getElem?.mp hm
  exact ⟨(i, n), hasSlot_after_iff.mpr ⟨⟨k, hi, hkid⟩, m, hn, hmid⟩⟩

theorem exists_slot_of_enter (before since : List Act) (l : Level) (fits : l.count < UInt64.size) :
    ∃ slot, (after (before ++ [.enter l fits])).HasSlot slot l.key ∧
      (after (before ++ .enter l fits :: since)).HasSlot slot l.key := by
  have hmem : l ∈ entered (before ++ [.enter l fits]) := by
    rw [entered_concat]
    exact List.mem_append_right _ (List.mem_singleton_self l)
  obtain ⟨slot, hslot⟩ := exists_slot_of_mem hmem
  have hlater := hasSlot_after_append hslot since
  rw [List.append_assoc] at hlater
  exact ⟨slot, hslot, hlater⟩

end Journal

/-- Sorting by index keeps the paths of one index in their order. -/
theorem filter_index_mergeSort (n : Nat) (ps : List PathSummary) :
    (ps.mergeSort fun p q => p.index ≤ q.index).filter (·.index == n) =
      ps.filter (·.index == n) := by
  have hsame : (ps.filter (·.index == n)).Pairwise fun p q => decide (p.index ≤ q.index) := by
    refine List.pairwise_of_forall_mem_list fun p hp q hq => ?_
    have hp' : p.index = n := by simpa using (List.mem_filter.mp hp).2
    have hq' : q.index = n := by simpa using (List.mem_filter.mp hq).2
    simp [hp', hq']
  have hsub : (ps.filter (·.index == n)).Sublist (ps.mergeSort fun p q => p.index ≤ q.index) :=
    List.sublist_mergeSort (fun a b c hab hbc => by simp at *; omega)
      (fun a b => by simp; omega) hsame List.filter_sublist
  have hfilter := hsub.filter (·.index == n)
  rw [List.filter_filter] at hfilter
  simp only [Bool.and_self] at hfilter
  -- A sublist as long as the whole is the whole.
  refine (hfilter.eq_of_length ?_).symm
  exact ((List.mergeSort_perm ps _).filter _).length_eq.symm

theorem ForkRecord.pairwise_summary (r : ForkRecord) :
    r.summary.paths.Pairwise fun p q => p.index ≤ q.index := by
  have h : r.summary.paths.Pairwise fun p q => decide (p.index ≤ q.index) = true :=
    List.pairwise_mergeSort (fun a b c hab hbc => by simp at *; omega)
      (fun a b => by simp; omega) (r.paths.map (pathSummary r.fork))
  exact h.imp of_decide_eq_true

def Level.told (acts : List Act) (fork : Fork) (l : Level) : PathSummary where
  pathId := l.path.id
  index := l.index
  isDefault := fork.isDefault l.path
  name := l.path.name
  title := l.path.title
  description := l.path.description
  tags := l.path.tags
  edgeIds := idsUnder l.key (recorded acts)

/-- What is told of a fork first entered as `fork`. Its paths stand by index, and those of one index
in the order in which they were first entered. -/
structure ForkSummary.Tells (acts : List Act) (fork : Fork) (c : ForkSummary) : Prop where
  forkId : c.forkId = fork.id
  kind : c.kind = fork.kind
  label : c.label = fork.label
  defaultPath : c.defaultPath = fork.defaultPath
  sorted : c.paths.Pairwise fun p q => p.index ≤ q.index
  paths : ∀ n, c.paths.filter (·.index == n) =
    ((firstsBy (·.path.id) ((entered acts).filter (·.fork.id == fork.id))).map
      (·.told acts fork)).filter (·.index == n)

theorem tells_forkRecord (acts : List Act) (l : Level) :
    (forkRecord (entered acts) (recorded acts) l).summary.Tells acts l.fork := by
  refine ⟨rfl, rfl, rfl, rfl, ForkRecord.pairwise_summary _, fun n => ?_⟩
  rw [ForkRecord.summary, filter_index_mergeSort, forkRecord, List.map_map]
  rfl

/-- The journal after the acts. Every level that was ever entered has its slot since then, and
leaving takes the innermost level away, if there is one, and nothing else. -/
structure Journal.Tells (acts : List Act) (j : Journal) : Prop where
  levels : j.levels.reverse = (openings acts).map fun o =>
    { o.1 with count := (o.1.count + o.2.countP isAdvance) % UInt64.size }
  slots : ∀ before l fits since, acts = before ++ .enter l fits :: since →
    ∃ slot, (after (before ++ [.enter l fits])).HasSlot slot l.key ∧ j.HasSlot slot l.key
  leave_of_idle : j.levels = [] → j.leave = (none, j)
  leave_of_open : ∀ l outer, j.levels = l :: outer → j.leave = (some l, { j with levels := outer })
  summary?_eq_none_iff : j.summary? = none ↔ openings acts ≠ []
  summary : ∀ cs, j.summary? = some cs →
    List.Forall₂ (fun l c => c.Tells acts l.fork) (firstsBy (·.fork.id) (entered acts)) cs

/-- Whatever is done to a journal, it tells what was done. -/
theorem Journal.tells_after (acts : List Act) : (after acts).Tells acts := by
  have hidle : (after acts).isIdle = true ↔ openings acts = [] := by
    rw [isIdle, levels_after]
    simp
  constructor
  · rw [levels_after, List.reverse_reverse]
    rfl
  · rintro before l fits since rfl
    exact exists_slot_of_enter before since l fits
  · intro h
    simp only [leave, h]
  · intro l outer h
    simp only [leave, h]
  · rw [summary?, ne_eq, ← hidle]
    split <;> simp_all
  · intro cs h
    have hcs : (after acts).forks.map (·.summary) = cs := by
      rw [summary?] at h
      split at h <;> simp_all
    rw [← hcs, forks_after, forkRecords, List.map_map, List.forall₂_map_right_iff,
      List.forall₂_same]
    exact fun l _ => tells_forkRecord acts l

/-- On a level opened with the greatest count a step leaves none, and not one more. -/
theorem Journal.full_count_starts_over :
    let l : Level := { fork := { id := "pay", kind := .parallel }, path := { id := "card" },
                       index := 1, count := UInt64.size - 1 }
    let acts : List Act := [.enter l (by decide), .advance]
    (after acts).levels.map (·.count) = [0] ∧
      (after acts).levels.reverse.map (·.count) ≠
        (openings acts).map fun o => o.1.count + o.2.countP isAdvance := by
  decide

end StepGraph
