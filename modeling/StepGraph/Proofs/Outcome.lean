import Mathlib.Data.List.Forall2

/-! Computations that may fail, taken apart where they succeed. -/
set_option autoImplicit false

namespace StepGraph

variable {ε α β : Type}

def faultOf : Except ε α → Option ε
  | .ok _ => none
  | .error fault => some fault

theorem bind_eq_ok_iff {x : Except ε α} {f : α → Except ε β} {b : β} :
    x >>= f = .ok b ↔ ∃ a, x = .ok a ∧ f a = .ok b := by
  cases x <;> simp [bind, Except.bind]

theorem ok_bind (a : α) (f : α → Except ε β) : Except.ok a >>= f = f a := rfl

@[simp] theorem faultOf_map (f : α → β) (x : Except ε α) : faultOf (x.map f) = faultOf x := by
  cases x <;> rfl

theorem eq_of_faultOf_eq {x y : Except ε α} (hfault : faultOf x = faultOf y)
    (hok : ∀ a, x = .ok a → y = .ok a) : x = y := by
  cases x with
  | ok a => exact (hok a rfl).symm
  | error e =>
    cases y with
    | ok b => simp [faultOf] at hfault
    | error d => exact congrArg Except.error (Option.some.inj hfault)

@[simp] theorem faultOf_mapError (f : ε → β) (x : Except ε α) :
    faultOf (x.mapError f) = (faultOf x).map f := by
  cases x <;> rfl

theorem faultOf_eq_none_iff {x : Except ε α} : faultOf x = none ↔ ∃ a, x = .ok a := by
  cases x <;> simp [faultOf]

theorem faultOf_eq_some_iff {x : Except ε α} {fault : ε} :
    faultOf x = some fault ↔ x = .error fault := by
  cases x <;> simp [faultOf]

/-- Where what follows can fail in one way only, whatever it goes on with. -/
theorem faultOf_bind {x : Except ε α} {f : α → Except ε β} {fault : Option ε}
    (h : ∀ a, x = .ok a → faultOf (f a) = fault) : faultOf (x >>= f) = (faultOf x).or fault := by
  cases x with
  | error e => rfl
  | ok a => exact h a rfl

@[simp] theorem faultOf_bind_pure (x : Except ε α) (f : α → β) :
    faultOf (x >>= fun a => pure (f a)) = faultOf x := by
  cases x <;> rfl

theorem faultOf_mapM (f : α → Except ε β) (xs : List α) :
    faultOf (xs.mapM f) = xs.findSome? fun x => faultOf (f x) := by
  induction xs with
  | nil => rfl
  | cons x xs ih =>
    have htail : ∀ b, f x = .ok b →
        faultOf (xs.mapM f >>= fun bs => pure (b :: bs)) = faultOf (xs.mapM f) :=
      fun b _ => faultOf_bind_pure _ _
    rw [List.mapM_cons, faultOf_bind htail, ih, List.findSome?_cons]
    cases faultOf (f x) <;> rfl

/-- The state of a fold does not count where a step fails for its element alone. -/
theorem faultOf_foldlM {f : β → α → Except ε β} {fault? : α → Option ε}
    (h : ∀ b a, faultOf (f b a) = fault? a) (b : β) (xs : List α) :
    faultOf (xs.foldlM f b) = xs.findSome? fault? := by
  induction xs generalizing b with
  | nil => rfl
  | cons x xs ih =>
    rw [List.foldlM_cons, faultOf_bind fun c _ => ih c, h, List.findSome?_cons]
    cases fault? x <;> rfl

theorem pure_eq_ok_iff {a b : α} : (pure a : Except ε α) = .ok b ↔ a = b := by
  simp [pure, Except.pure]

theorem mapError_eq_ok_iff {x : Except ε α} {f : ε → β} {a : α} :
    x.mapError f = .ok a ↔ x = .ok a := by
  cases x <;> simp [Except.mapError]

theorem mapError_eq_error_iff {x : Except ε α} {f : ε → β} {e : β} :
    x.mapError f = .error e ↔ ∃ cause, x = .error cause ∧ f cause = e := by
  cases x <;> simp [Except.mapError]

theorem exists_ok_of_map_toOption {x : Except ε α} {f : α → β} {b : β}
    (h : x.toOption.map f = some b) : ∃ a, x = .ok a ∧ f a = b := by
  cases x with
  | error e => simp [Except.toOption] at h
  | ok a => exact ⟨a, rfl, Option.some.inj h⟩

theorem mapM_eq_ok_iff {f : α → Except ε β} {xs : List α} {ys : List β} :
    xs.mapM f = .ok ys ↔ List.Forall₂ (fun x y => f x = .ok y) xs ys := by
  induction xs generalizing ys with
  | nil =>
    rw [List.mapM_nil, pure_eq_ok_iff, List.forall₂_nil_left_iff]
    exact eq_comm
  | cons x xs ih =>
    simp only [List.mapM_cons, bind_eq_ok_iff, pure_eq_ok_iff, ih, List.forall₂_cons_left_iff]
    constructor
    · intro h
      obtain ⟨y, hy, ys, hys, rfl⟩ := h
      exact ⟨y, ys, hy, hys, rfl⟩
    · intro h
      obtain ⟨y, ys, hy, hys, rfl⟩ := h
      exact ⟨y, hy, ys, hys, rfl⟩

theorem foldlM_induction {P : β → Prop} {f : β → α → Except ε β}
    (hstep : ∀ b a c, P b → f b a = .ok c → P c) {xs : List α} {b c : β} (hb : P b)
    (h : xs.foldlM f b = .ok c) : P c := by
  induction xs generalizing b with
  | nil =>
    rw [List.foldlM_nil, pure_eq_ok_iff] at h
    exact h ▸ hb
  | cons x xs ih =>
    rw [List.foldlM_cons, bind_eq_ok_iff] at h
    obtain ⟨d, hd, hc⟩ := h
    exact ih (hstep b x d hb hd) hc

/-- A fold that succeeds also does so with steps that succeed at least as often. -/
theorem foldlM_eq_ok_of {f g : β → α → Except ε β} {xs : List α}
    (hstep : ∀ b, ∀ a ∈ xs, ∀ c, f b a = .ok c → g b a = .ok c) {b c : β}
    (h : xs.foldlM f b = .ok c) : xs.foldlM g b = .ok c := by
  induction xs generalizing b with
  | nil => exact h
  | cons x xs ih =>
    rw [List.foldlM_cons, bind_eq_ok_iff] at h ⊢
    obtain ⟨d, hd, hc⟩ := h
    refine ⟨d, hstep b x List.mem_cons_self d hd, ih (fun b a ha => ?_) hc⟩
    exact hstep b a (List.mem_cons_of_mem x ha)

theorem mapM_congr {f g : α → Except ε β} {xs : List α} (h : ∀ x ∈ xs, f x = g x) :
    xs.mapM f = xs.mapM g := by
  induction xs with
  | nil => rfl
  | cons x xs ih =>
    rw [List.forall_mem_cons] at h
    rw [List.mapM_cons, List.mapM_cons, h.1, ih h.2]

theorem exists_forall₂_iff {R : α → β → Prop} {xs : List α} :
    (∃ ys, List.Forall₂ R xs ys) ↔ ∀ x ∈ xs, ∃ y, R x y := by
  induction xs with
  | nil => simp
  | cons x xs ih =>
    simp only [List.forall₂_cons_left_iff, List.forall_mem_cons, ← ih]
    constructor
    · intro h
      obtain ⟨_, y, ys, hy, hys, _⟩ := h
      exact ⟨⟨y, hy⟩, ys, hys⟩
    · intro h
      obtain ⟨⟨y, hy⟩, ys, hys⟩ := h
      exact ⟨y :: ys, y, ys, hy, hys, rfl⟩

theorem exists_of_mem_right {R : α → β → Prop} {xs : List α} {ys : List β}
    (h : List.Forall₂ R xs ys) {y : β} (hy : y ∈ ys) : ∃ x ∈ xs, R x y := by
  have hmem := (List.forall₂_and_left _ _).mpr ⟨fun x hx => hx, h⟩
  exact exists_forall₂_iff.mp ⟨xs, hmem.flip⟩ y hy

theorem forall₂_append_left_iff {R : α → β → Prop} {xs ys : List α} {zs : List β} :
    List.Forall₂ R (xs ++ ys) zs ↔
      ∃ us vs, us ++ vs = zs ∧ List.Forall₂ R xs us ∧ List.Forall₂ R ys vs := by
  constructor
  · intro h
    have htake := List.forall₂_take_append zs xs ys h.flip
    have hdrop := List.forall₂_drop_append zs xs ys h.flip
    exact ⟨_, _, List.take_append_drop _ zs, htake.flip, hdrop.flip⟩
  · rintro ⟨us, vs, rfl, hu, hv⟩
    exact List.rel_append hu hv

theorem map_eq_map_of_forall₂ {γ : Type} {R : α → β → Prop} {f : α → γ} {g : β → γ} {xs : List α}
    {ys : List β} (h : List.Forall₂ R xs ys) (hfg : ∀ x y, R x y → f x = g y) :
    xs.map f = ys.map g := by
  rw [← List.forall₂_eq_eq_eq, List.forall₂_map_left_iff, List.forall₂_map_right_iff]
  exact h.imp hfg

/-- What is listed part by part falls into one run for each part. -/
theorem exists_runs {γ : Type} {R : β → γ → Prop} (f : α → List β) {xs : List α} {zs : List γ}
    (h : List.Forall₂ R (xs.flatMap f) zs) : ∃ runs, runs.flatten = zs ∧
      List.Forall₂ (fun x run => List.Forall₂ R (f x) run) xs runs := by
  induction xs generalizing zs with
  | nil =>
    rw [List.flatMap_nil, List.forall₂_nil_left_iff] at h
    exact ⟨[], h.symm, .nil⟩
  | cons x xs ih =>
    rw [List.flatMap_cons, forall₂_append_left_iff] at h
    obtain ⟨run, more, rfl, hrun, hmore⟩ := h
    obtain ⟨runs, rfl, hruns⟩ := ih hmore
    exact ⟨run :: runs, rfl, .cons hrun hruns⟩

end StepGraph
