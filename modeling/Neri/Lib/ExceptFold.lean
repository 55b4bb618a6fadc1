import Mathlib.Data.List.Forall2

/-!
# Checks that thread a state

A verifier reads a list and threads a state that it extends, or stops with an error. These are the
rules to read such a computation backwards: what is known once it has returned.
-/

namespace ExceptFold

open List

universe u v

variable {ε : Type u} {α σ β : Type v}

theorem bind_eq_ok {x : Except ε α} {f : α → Except ε β} {b : β} :
    (x >>= f) = .ok b ↔ ∃ a, x = .ok a ∧ f a = .ok b := by
  cases x with
  | error e => simp [bind, Except.bind]
  | ok a => simp [bind, Except.bind]

variable {xs : List α} {f : σ → α → Except ε σ}

/-- What holds of the state at the start and is kept by every element holds at the end; the
invariant may speak of the elements read so far. -/
theorem foldlM_induction (P : List α → σ → Prop)
    (hstep : ∀ done x s s', f s x = .ok s' → P done s → P (done ++ [x]) s') {s s' : σ}
    (h : xs.foldlM f s = .ok s') (h0 : P [] s) : P xs s' := by
  have hgen : ∀ (xs done : List α) (s : σ), xs.foldlM f s = .ok s' → P done s →
      P (done ++ xs) s' := by
    intro xs
    induction xs with
    | nil =>
      intro done s hs hP
      rw [append_nil]
      cases hs
      exact hP
    | cons x xs ih =>
      intro done s hs hP
      rw [foldlM_cons, bind_eq_ok] at hs
      obtain ⟨s₁, h₁, h₂⟩ := hs
      have := ih (done ++ [x]) s₁ h₂ (hstep done x s s₁ h₁ hP)
      rwa [append_assoc] at this
  exact hgen xs [] s h h0

/-- Where each element extends the state by the entries `g x`, the whole list extends it by all of
them in order. `R s s' es` says that `s'` is `s` extended by `es`. -/
theorem foldlM_extends {R : σ → σ → List β → Prop} {g : α → List β}
    (hrefl : ∀ s, R s s []) (htrans : ∀ {a b c xs ys}, R a b xs → R b c ys → R a c (xs ++ ys))
    (hstep : ∀ s x s', f s x = .ok s' → R s s' (g x)) {s s' : σ}
    (h : xs.foldlM f s = .ok s') : R s s' (xs.flatMap g) := by
  refine foldlM_induction (fun done t => R s t (done.flatMap g)) ?_ h (hrefl s)
  intro done x t t' hx hR
  rw [flatMap_append, flatMap_singleton]
  exact htrans hR (hstep t x t' hx)

theorem forM_eq_ok {f : α → Except ε PUnit} : xs.forM f = .ok ⟨⟩ ↔ ∀ x ∈ xs, f x = .ok ⟨⟩ := by
  induction xs with
  | nil => simp [pure, Except.pure]
  | cons x xs ih =>
    show (f x >>= fun _ => xs.forM f) = .ok ⟨⟩ ↔ _
    rw [bind_eq_ok]
    constructor
    · rintro ⟨u, hu, hrest⟩ y hy
      rcases mem_cons.mp hy with rfl | hy
      · exact hu
      · exact ih.mp hrest y hy
    · intro h
      exact ⟨⟨⟩, h x mem_cons_self, ih.mpr fun y hy => h y (mem_cons_of_mem _ hy)⟩

/-- The error of a list of independent checks is the error of one of them. -/
theorem exists_of_forM_eq_error {f : α → Except ε PUnit} {e : ε}
    (h : xs.forM f = .error e) : ∃ x ∈ xs, f x = .error e := by
  induction xs with
  | nil => cases h
  | cons x xs ih =>
    cases hx : f x with
    | error e' =>
      have h' : (f x >>= fun _ => xs.forM f) = .error e := h
      rw [hx] at h'
      cases h'
      exact ⟨x, mem_cons_self, hx⟩
    | ok u =>
      have h' : (f x >>= fun _ => xs.forM f) = .error e := h
      rw [hx] at h'
      obtain ⟨y, hy, hfy⟩ := ih h'
      exact ⟨y, mem_cons_of_mem _ hy, hfy⟩

theorem mapM_eq_some_iff {α : Type u} {β : Type v} {f : α → Option β} {xs : List α}
    {ys : List β} : xs.mapM f = some ys ↔ List.Forall₂ (fun x y => f x = some y) xs ys := by
  induction xs generalizing ys with
  | nil => simp [eq_comm]
  | cons x xs ih =>
    rw [mapM_cons, forall₂_cons_left_iff]
    cases hx : f x with
    | none => simp
    | some y =>
      cases hxs : xs.mapM f with
      | none => simp [← ih, hxs]
      | some rest => simp [← ih, hxs, eq_comm]

theorem mapM_isSome_iff {α : Type u} {β : Type v} {f : α → Option β} {xs : List α} :
    (xs.mapM f).isSome = true ↔ ∀ x ∈ xs, (f x).isSome = true := by
  induction xs with
  | nil => simp
  | cons x xs ih =>
    rw [mapM_cons, forall_mem_cons, ← ih]
    cases f x <;> cases xs.mapM f <;> simp

section

variable {α : Type u} {β : Type v} {R : α → β → Prop} {xs : List α} {ys : List β}

theorem exists_right_of_forall₂ (h : List.Forall₂ R xs ys) {x : α} (hx : x ∈ xs) :
    ∃ y ∈ ys, R x y := by
  induction h with
  | nil => cases hx
  | cons hxy _ ih =>
    rcases mem_cons.mp hx with rfl | hx
    · exact ⟨_, mem_cons_self, hxy⟩
    · obtain ⟨y, hy, hR⟩ := ih hx
      exact ⟨y, mem_cons_of_mem _ hy, hR⟩

theorem exists_left_of_forall₂ (h : List.Forall₂ R xs ys) {y : β} (hy : y ∈ ys) : ∃ x ∈ xs, R x y :=
  exists_right_of_forall₂ h.flip hy

end

end ExceptFold
