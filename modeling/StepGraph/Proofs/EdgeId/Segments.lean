import Mathlib.Data.List.Basic
import StepGraph.EdgeId

/-!
Ids read back from what `EdgeId.ofSegments` writes. Segments hold no separator and a number is
recovered from its digits, whatever the padding, so different segments make different ids; and every
id that is written is recognised as one. Ids that were read may be any texts; the segments of those
that are recognised can be told.
-/
set_option autoImplicit false

namespace StepGraph.EdgeId

theorem segmentChars_eq (n : Nat) :
    segmentChars n = List.replicate (2 - (Nat.toDigits 10 n).length) '0' ++ Nat.toDigits 10 n := by
  simp [segmentChars, List.leftpad]

theorem segmentChars_ne_nil (n : Nat) : segmentChars n ≠ [] := by
  simp [segmentChars_eq]

theorem isDigit_of_mem_segmentChars {n : Nat} {c : Char} (h : c ∈ segmentChars n) :
    c.isDigit = true := by
  rw [segmentChars_eq, List.mem_append] at h
  rcases h with h | h
  · rw [List.eq_of_mem_replicate h]
    rfl
  · exact Nat.isDigit_of_mem_toDigits (by decide) (by decide) h

theorem ofDigitChars_segmentChars (n : Nat) : Nat.ofDigitChars 10 (segmentChars n) 0 = n := by
  rw [segmentChars_eq, Nat.ofDigitChars_append, Nat.ofDigitChars_replicate_zero, Nat.mul_zero]
  exact Nat.ofDigitChars_ten_toDigits

theorem segmentChars_injective {m n : Nat} (h : segmentChars m = segmentChars n) : m = n := by
  rw [← ofDigitChars_segmentChars m, h, ofDigitChars_segmentChars]

theorem isSeparator_eq_false {c : Char} (h : c.isDigit = true) : isSeparator c = false := by
  cases hs : isSeparator c with
  | false => rfl
  | true =>
    simp only [isSeparator, Bool.or_eq_true, beq_iff_eq] at hs
    rcases hs with rfl | rfl <;> exact absurd h (by decide)

theorem isSeparator_segmentChars {n : Nat} {c : Char} (h : c ∈ segmentChars n) :
    isSeparator c = false := isSeparator_eq_false (isDigit_of_mem_segmentChars h)

def body (root : Nat) (nested : List Nat) : List Char :=
  segmentChars root ++ nested.flatMap fun n => '.' :: segmentChars n

theorem chars_ofSegments (root : Nat) (nested : List Nat) :
    (ofSegments root nested).chars = lead ++ body root nested := by
  simp [ofSegments, body]

theorem body_cons (root n : Nat) (nested : List Nat) :
    body root (n :: nested) = segmentChars root ++ '.' :: body n nested := by
  simp [body]

theorem pieces_body (root : Nat) (nested : List Nat) :
    Text.pieces isSeparator (body root nested) = (root :: nested).map segmentChars := by
  rw [Text.pieces_eq_splitOnP]
  induction nested generalizing root with
  | nil =>
    have hnone := fun c (hc : c ∈ segmentChars root) => isSeparator_segmentChars hc
    simpa [body] using List.splitOnP_eq_singleton hnone
  | cons n nested ih =>
    rw [body_cons, List.splitOnP_append_cons_of_forall_mem
      (fun c hc => isSeparator_segmentChars hc) '.' rfl, ih]
    rfl

theorem ofSegments_inj {root root' : Nat} {nested nested' : List Nat} :
    ofSegments root nested = ofSegments root' nested' ↔ root = root' ∧ nested = nested' := by
  constructor
  · intro h
    have hc := congrArg chars h
    rw [chars_ofSegments, chars_ofSegments] at hc
    have hp := congrArg (Text.pieces isSeparator) (List.append_cancel_left hc)
    rw [pieces_body, pieces_body] at hp
    have hl := List.map_injective_iff.mpr (fun _ _ => segmentChars_injective) hp
    simpa using hl
  · intro h
    obtain ⟨rfl, rfl⟩ := h
    rfl

theorem cut?_append (front rest : List Char) : cut? front (front ++ rest) = some rest := by
  simp [cut?]

theorem takeWhile_body (root : Nat) (nested : List Nat) :
    (body root nested).takeWhile (!isSeparator ·) = segmentChars root := by
  have hall : ∀ c ∈ segmentChars root, (!isSeparator c) = true := by
    intro c hc
    rw [isSeparator_segmentChars hc]
    rfl
  rw [body, List.takeWhile_append_of_pos hall]
  cases nested <;> simp [isSeparator]

theorem parse?_ofSegments (root : Nat) (nested : List Nat) :
    parse? (ofSegments root nested).text = some (ofSegments root nested) := by
  have hc : (ofSegments root nested).text.toList = lead ++ body root nested :=
    chars_ofSegments root nested
  have hd : (segmentChars root).all Char.isDigit = true :=
    List.all_eq_true.mpr fun c hc => isDigit_of_mem_segmentChars hc
  simp [parse?, hc, cut?_append, takeWhile_body, hd, segmentChars_ne_nil]

def numbers (id : EdgeId) : List Nat :=
  (Text.pieces isSeparator (id.chars.drop lead.length)).map (Nat.ofDigitChars 10 · 0)

theorem numbers_ofSegments (root : Nat) (nested : List Nat) :
    (ofSegments root nested).numbers = root :: nested := by
  rw [numbers, chars_ofSegments, List.drop_left, pieces_body, List.map_map]
  refine (List.map_congr_left fun n _ => ?_).trans (List.map_id _)
  exact ofDigitChars_segmentChars n

theorem utf8ByteSize_ofList_cons (c : Char) (cs : List Char) :
    (String.ofList (c :: cs)).utf8ByteSize = c.utf8Size + (String.ofList cs).utf8ByteSize := by
  rw [String.ofList_cons, String.utf8ByteSize_append, String.utf8ByteSize_singleton]

theorem dropBytes_eq_some_iff {n : Nat} {cs rest : List Char} : dropBytes n cs = some rest ↔
    ∃ front, front ++ rest = cs ∧ (String.ofList front).utf8ByteSize = n := by
  fun_induction dropBytes n cs with
  | case1 cs =>
    rw [Option.some.injEq]
    constructor
    · rintro rfl
      exact ⟨[], rfl, rfl⟩
    · rintro ⟨front, rfl, hsize⟩
      cases front with
      | nil => rfl
      | cons c front =>
        have hc := c.utf8Size_pos
        rw [utf8ByteSize_ofList_cons] at hsize
        omega
  | case2 n => simp
  | case3 n c cs hle ih =>
    rw [ih]
    constructor
    · rintro ⟨front, rfl, hsize⟩
      refine ⟨c :: front, rfl, ?_⟩
      rw [utf8ByteSize_ofList_cons, hsize]
      exact Nat.add_sub_cancel' hle
    · rintro ⟨front, hcs, hsize⟩
      cases front with
      | nil => simp at hsize
      | cons d front =>
        obtain ⟨rfl, rfl⟩ := List.cons.inj hcs
        rw [utf8ByteSize_ofList_cons] at hsize
        exact ⟨front, rfl, by omega⟩
  | case4 n c cs hle =>
    simp only [reduceCtorEq, false_iff]
    rintro ⟨front, hcs, hsize⟩
    cases front with
    | nil => simp at hsize
    | cons d front =>
      obtain ⟨rfl, rfl⟩ := List.cons.inj hcs
      rw [utf8ByteSize_ofList_cons] at hsize
      omega

/-- Segments can be read where a character ends after the bytes of the lead. -/
theorem isSome_segments?_iff {id : EdgeId} : id.segments?.isSome = true ↔
    ∃ front rest : String, id.text = front ++ rest ∧ front.utf8ByteSize = 5 := by
  rw [segments?, Option.isSome_map, Option.isSome_iff_exists]
  simp only [dropBytes_eq_some_iff]
  constructor
  · rintro ⟨rest, front, hchars, hsize⟩
    refine ⟨String.ofList front, String.ofList rest, ?_, hsize⟩
    rw [← String.ofList_append, hchars, chars, String.ofList_toList]
  · rintro ⟨front, rest, htext, hsize⟩
    refine ⟨rest.toList, front.toList, ?_, by rwa [String.ofList_toList]⟩
    rw [chars, htext, String.toList_append]

theorem isSome_segments?_of_isId {id : EdgeId} (h : isId id.text = true) :
    id.segments?.isSome = true := by
  rw [isId, parse?, cut?] at h
  by_cases hlead : lead.isPrefixOf id.text.toList = true
  · obtain ⟨rest, hrest⟩ := List.isPrefixOf_iff_prefix.mp hlead
    refine isSome_segments?_iff.mpr ⟨String.ofList lead, String.ofList rest, ?_, rfl⟩
    rw [← String.ofList_append, hrest, String.ofList_toList]
  · simp [hlead] at h

theorem parse?_eq_some_iff {id : EdgeId} : parse? id.text = some id ↔ isId id.text = true := by
  rw [isId, Option.isSome_iff_exists]
  constructor
  · intro h
    exact ⟨id, h⟩
  · rintro ⟨i, hi⟩
    rw [hi]
    rw [parse?] at hi
    split at hi
    · cases hi
    · exact (Option.ite_none_right_eq_some.mp hi).2.symm

/-- Padding leaves no room for another number: the separator that follows it ends the root. -/
theorem continuesWith_ofSegments {c : Char} (hc : isSeparator c = true) (root : Nat)
    (nested : List Nat) (block : Nat) : continuesWith c (ofSegments root nested).text block = true ↔
      c = '.' ∧ root = block ∧ nested ≠ [] := by
  have hchars : (ofSegments root nested).text.toList = lead ++ body root nested :=
    chars_ofSegments root nested
  rw [continuesWith, hchars, List.isPrefixOf_iff_prefix, List.append_assoc,
    List.prefix_append_right_inj]
  constructor
  · rintro ⟨rest, hrest⟩
    have hroot : segmentChars block = segmentChars root := by
      have htake := congrArg (List.takeWhile (!isSeparator ·)) hrest
      rw [takeWhile_body, List.append_assoc, List.takeWhile_append_of_pos] at htake
      · simpa [hc] using htake
      · intro d hd
        rw [isSeparator_segmentChars hd]
        rfl
    rw [hroot, body, List.append_assoc] at hrest
    have hafter := List.append_cancel_left hrest
    cases nested with
    | nil => simp at hafter
    | cons n nested =>
      rw [List.flatMap_cons] at hafter
      exact ⟨(List.cons.inj hafter).1, (segmentChars_injective hroot).symm, List.cons_ne_nil n _⟩
  · rintro ⟨rfl, rfl, hne⟩
    obtain ⟨n, nested, rfl⟩ := List.exists_cons_of_ne_nil hne
    rw [body_cons]
    exact ⟨body n nested, by simp⟩

theorem isInParallel_ofSegments (root : Nat) (nested : List Nat) (block : Nat) :
    isInParallel (ofSegments root nested).text block = true ↔ root = block ∧ nested ≠ [] := by
  rw [isInParallel, continuesWith_ofSegments rfl]
  simp

/-- Colons are read but never written. -/
theorem isInAlternate_ofSegments (root : Nat) (nested : List Nat) (block : Nat) :
    isInAlternate (ofSegments root nested).text block = false := by
  rw [isInAlternate, ← Bool.not_eq_true, continuesWith_ofSegments rfl]
  simp

end StepGraph.EdgeId
