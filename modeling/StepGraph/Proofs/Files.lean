import StepGraph.Files
import StepGraph.Proofs.Outcome

/-!
What a write leaves behind. It only adds a place or changes the text at one, so whatever could be
followed before leads to the same place after, and the path that was written to reads as written.
-/
set_option autoImplicit false

namespace StepGraph.Files

variable {f g : Files} {place origin : List String}

theorem lookup_setEntry (place : List String) (text : String)
    (entries : List (List String × String)) (other : List String) :
    (setEntry place text entries).lookup other =
      if other = place then some text else entries.lookup other := by
  induction entries with
  | nil =>
    rw [setEntry, List.lookup_cons]
    split
    · rename_i h
      rw [if_pos (beq_iff_eq.mp h)]
    · rename_i h
      rw [if_neg (beq_eq_false_iff_ne.mp h)]
  | cons e rest ih =>
    obtain ⟨p, t⟩ := e
    rw [setEntry]
    split
    · rename_i hp
      subst hp
      rw [List.lookup_cons, List.lookup_cons]
      by_cases h : other = p
      · simp [h]
      · simp [beq_eq_false_iff_ne.mpr h, h]
    · rename_i hp
      rw [List.lookup_cons, List.lookup_cons, ih]
      by_cases h : other = p
      · simp [h, hp]
      · simp [beq_eq_false_iff_ne.mpr h]

theorem mem_setEntry {place : List String} {text : String}
    {entries : List (List String × String)} {p : List String} :
    p ∈ (setEntry place text entries).map Prod.fst ↔ p = place ∨ p ∈ entries.map Prod.fst := by
  induction entries with
  | nil => simp [setEntry]
  | cons e rest ih =>
    obtain ⟨q, t⟩ := e
    rw [setEntry]
    split
    · rename_i h
      simp [h]
    · rw [List.map_cons, List.mem_cons, ih, List.map_cons, List.mem_cons]
      exact or_left_comm

theorem isFile_iff : f.isFile place = true ↔ place ∈ f.entries.map Prod.fst := by
  simp [isFile, List.any_eq_true, List.mem_map]

theorem isDirectory_iff : f.isDirectory place = true ↔ isFixed place = true ∨
    ∃ p ∈ f.entries.map Prod.fst, place.isPrefixOf p = true ∧ p ≠ place := by
  simp [isDirectory, List.any_eq_true, List.mem_map]

def Extends (g f : Files) : Prop := ∀ p ∈ f.entries.map Prod.fst, p ∈ g.entries.map Prod.fst

theorem Extends.isFile (h : g.Extends f) (hf : f.isFile place = true) : g.isFile place = true :=
  isFile_iff.mpr (h _ (isFile_iff.mp hf))

theorem Extends.isDirectory (h : g.Extends f) (hf : f.isDirectory place = true) :
    g.isDirectory place = true := by
  rw [isDirectory_iff] at hf ⊢
  exact hf.imp_right fun ⟨p, hp, hbelow⟩ => ⟨p, h p hp, hbelow⟩

theorem follow_cons_eq_ok_iff {s : String} {rest : List String} :
    f.follow origin (s :: rest) = .ok place ↔
      f.isDirectory origin = true ∧ isLongName s = false ∧
      (f.isFile (step origin s) = true ∨ f.isDirectory (step origin s) = true) ∧
      f.follow (step origin s) rest = .ok place := by
  rw [follow]
  cases f.isDirectory origin <;> cases isLongName s <;> cases f.isFile (step origin s) <;>
    cases f.isDirectory (step origin s) <;> simp

theorem Extends.follow (h : g.Extends f) {parts : List String}
    (hf : f.follow origin parts = .ok place) : g.follow origin parts = .ok place := by
  induction parts generalizing origin with
  | nil => exact hf
  | cons s rest ih =>
    obtain ⟨hdir, hlong, hnext, hrest⟩ := follow_cons_eq_ok_iff.mp hf
    exact follow_cons_eq_ok_iff.mpr
      ⟨h.isDirectory hdir, hlong, hnext.imp h.isFile h.isDirectory, ih hrest⟩

theorem follow_append {first last : List String} :
    f.follow origin (first ++ last) = f.follow origin first >>= (f.follow · last) := by
  induction first generalizing origin with
  | nil => rfl
  | cons s rest ih =>
    rw [List.cons_append, Files.follow, Files.follow, ih]
    split
    · rfl
    · split
      · rfl
      · split <;> rfl

theorem reverse_dropWhile_eq {parts : List String} (h : parts.getLast? ≠ some "") :
    (parts.reverse.dropWhile (· == "")).reverse = parts := by
  rcases List.eq_nil_or_concat parts with rfl | ⟨inner, last, rfl⟩
  · rfl
  · have hlast : (last == "") = false := by simpa using h
    simp [hlast]

/-- The path has to end in a name that no directory has, in a directory that is there. -/
theorem write_eq_ok_iff {path text : String} : f.write path text = .ok g ↔
    ∃ origin inner name place, start? path = .ok (origin, inner ++ [name]) ∧
      f.follow origin inner = .ok place ∧ f.isDirectory place = true ∧
      isDots name = false ∧ isLongName name = false ∧ f.isDirectory (place ++ [name]) = false ∧
      { entries := setEntry (place ++ [name]) text f.entries } = g := by
  rw [write, bind_eq_ok_iff]
  constructor
  · rintro ⟨⟨origin, parts⟩, hstart, h⟩
    obtain ⟨place, hfollow, h⟩ := bind_eq_ok_iff.mp h
    split at h
    · cases h
    rename_i hdir
    split at h
    · cases h
    rename_i hend
    rw [Bool.or_eq_true, not_or, Bool.not_eq_true, beq_iff_eq] at hend
    -- a slash at the end is refused by now, so nothing was cut off the path
    rw [reverse_dropWhile_eq hend.2] at h hfollow hend
    rcases List.eq_nil_or_concat parts with rfl | ⟨inner, name, rfl⟩
    · cases hend.1
    simp only [List.concat_eq_append, List.getLast?_concat, Option.getD_some,
      List.dropLast_concat] at h hfollow hend
    split at h
    · cases h
    rename_i hlong
    split at h
    · cases h
    rename_i hfree
    refine ⟨origin, inner, name, place, ?_, hfollow, by simpa using hdir, hend.1,
      by simpa using hlong, by simpa using hfree, Except.ok.inj h⟩
    rw [hstart, List.concat_eq_append]
  · rintro ⟨origin, inner, name, place, hstart, hfollow, hdir, hdots, hlong, hfree, rfl⟩
    have hname : name ≠ "" := by
      rintro rfl
      cases hdots
    have hparts := reverse_dropWhile_eq fun h : (inner ++ [name]).getLast? = some "" =>
      hname (by simpa using h)
    refine ⟨_, hstart, bind_eq_ok_iff.mpr ⟨place, ?_, ?_⟩⟩
    · simp only [hparts, List.dropLast_concat, hfollow]
    · simp only [hparts, List.getLast?_concat, Option.getD_some]
      simp [hdir, hdots, hname, hlong, hfree]

theorem isDirectory_setEntry {text : String} (h : f.isDirectory place = false) :
    isDirectory { entries := setEntry place text f.entries } place = false := by
  rw [Bool.eq_false_iff, Ne, isDirectory_iff] at h ⊢
  rintro (hfixed | ⟨p, hp, hbelow, hne⟩)
  · exact h (.inl hfixed)
  · exact h (.inr ⟨p, (mem_setEntry.mp hp).resolve_left hne, hbelow, hne⟩)

/-- What was written is read back under the same path. -/
theorem read_write {path text : String} (h : f.write path text = .ok g) :
    g.read path = .ok text := by
  obtain ⟨origin, inner, name, place, hstart, hfollow, hdir, hdots, hlong, hfree, hg⟩ :=
    write_eq_ok_iff.mp h
  have hentries : g.entries = setEntry (place ++ [name]) text f.entries := by rw [← hg]
  have hext : g.Extends f := fun p hp => hentries ▸ mem_setEntry.mpr (.inr hp)
  have hstep : step place name = place ++ [name] := by simp [step, hdots]
  have hfile : g.isFile (place ++ [name]) = true :=
    isFile_iff.mpr (hentries ▸ mem_setEntry.mpr (.inl rfl))
  have hlast : g.follow place [name] = .ok (place ++ [name]) :=
    follow_cons_eq_ok_iff.mpr
      ⟨hext.isDirectory hdir, hlong, .inl (hstep.symm ▸ hfile), congrArg Except.ok hstep⟩
  have hpath : g.follow origin (inner ++ [name]) = .ok (place ++ [name]) := by
    rw [follow_append, hext.follow hfollow, ok_bind, hlast]
  rw [read, hstart, ok_bind]
  show (g.follow origin (inner ++ [name]) >>= _) = _
  rw [hpath, ok_bind, if_neg, hentries, lookup_setEntry, if_pos rfl]
  rw [← hg, isDirectory_setEntry hfree]
  exact Bool.false_ne_true

end StepGraph.Files
