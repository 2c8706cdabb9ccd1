/-! A text cut at separators, and the pieces joined again. -/
set_option autoImplicit false

namespace StepGraph.Text

/-- The pieces between separators; a text without one is a single piece. -/
def pieces (isSep : Char → Bool) : List Char → List (List Char)
  | [] => [[]]
  | c :: cs =>
    if isSep c then [] :: pieces isSep cs
    else match pieces isSep cs with
      | [] => [[c]]
      | p :: ps => (c :: p) :: ps

theorem pieces_ne_nil (isSep : Char → Bool) (cs : List Char) : pieces isSep cs ≠ [] := by
  cases cs with
  | nil => simp [pieces]
  | cons c cs =>
    simp only [pieces]
    split
    · simp
    · split <;> simp

def joinWith (sep : Char) : List (List Char) → List Char
  | [] => []
  | [p] => p
  | p :: q :: ps => p ++ sep :: joinWith sep (q :: ps)

theorem pieces_eq_splitOnP (isSep : Char → Bool) (cs : List Char) :
    pieces isSep cs = cs.splitOnP isSep := by
  induction cs with
  | nil => simp [pieces]
  | cons c cs ih =>
    rw [pieces, List.splitOnP_cons_eq_if_modifyHead, ih]
    cases h : cs.splitOnP isSep with
    | nil => exact absurd h (List.splitOnP_ne_nil isSep cs)
    | cons p ps => simp

theorem joinWith_eq_intercalate (sep : Char) (ps : List (List Char)) :
    joinWith sep ps = [sep].intercalate ps := by
  fun_induction joinWith sep ps with
  | case1 => simp
  | case2 p => simp
  | case3 p q ps ih => simp [ih]

theorem joinWith_pieces (sep : Char) (cs : List Char) :
    joinWith sep (pieces (· == sep) cs) = cs := by
  rw [joinWith_eq_intercalate, pieces_eq_splitOnP, ← List.splitOn_eq_splitOnP]
  exact List.intercalate_splitOn sep

theorem isSep_of_mem_pieces {isSep : Char → Bool} {cs p : List Char} {c : Char}
    (hp : p ∈ pieces isSep cs) (hc : c ∈ p) : isSep c = false := by
  induction cs generalizing p with
  | nil =>
    simp only [pieces, List.mem_singleton] at hp
    simp [hp] at hc
  | cons d cs ih =>
    rw [pieces_eq_splitOnP, List.splitOnP_cons_eq_if_modifyHead, ← pieces_eq_splitOnP] at hp
    split at hp
    · rcases List.mem_cons.mp hp with rfl | hp
      · simp at hc
      · exact ih hp hc
    · rename_i hd
      cases h : pieces isSep cs with
      | nil => exact absurd h (pieces_ne_nil isSep cs)
      | cons q qs =>
        rw [h, List.modifyHead_cons, List.mem_cons] at hp
        rcases hp with rfl | hp
        · rcases List.mem_cons.mp hc with rfl | hc
          · simpa using hd
          · exact ih (by simp [h]) hc
        · exact ih (by simp [h, hp]) hc

theorem joinWith_append (sep : Char) {ps qs : List (List Char)} (hp : ps ≠ []) (hq : qs ≠ []) :
    joinWith sep (ps ++ qs) = joinWith sep ps ++ sep :: joinWith sep qs := by
  induction ps with
  | nil => exact absurd rfl hp
  | cons p ps ih =>
    rw [joinWith_eq_intercalate, List.cons_append,
      List.intercalate_cons_of_ne_nil (by simp [hq]), ← joinWith_eq_intercalate]
    cases ps with
    | nil => simp [joinWith]
    | cons q ps =>
      rw [ih (by simp)]
      simp [joinWith]

end StepGraph.Text
