import Mathlib.GroupTheory.FreeGroup.Basic

/-!
# Steps that undo each other

Every letter has a step and the step that undoes it; on normal states the one behind the other changes nothing.

* `foldl_of_red`, `foldl_of_mk`: a run on a normal state depends on its word as an element of the free group.
-/

set_option autoImplicit false

namespace Lib.Cancel

variable {α σ : Type*} {step : σ → α × Bool → σ} {Normal : σ → Prop}

/-- A run stays normal. -/
theorem normal_foldl (hnormal : ∀ x l, Normal x → Normal (step x l)) (w : List (α × Bool)) {x : σ} (hx : Normal x) :
    Normal (w.foldl step x) := by
  induction w generalizing x with
  | nil => exact hx
  | cons l w ih => exact ih (hnormal x l hx)

theorem foldl_of_step (hnormal : ∀ x l, Normal x → Normal (step x l))
    (hcancel : ∀ x a b, Normal x → step (step x (a, b)) (a, !b) = x) {w w' : List (α × Bool)}
    (h : FreeGroup.Red.Step w w') {x : σ} (hx : Normal x) : w.foldl step x = w'.foldl step x := by
  cases h with
  | not =>
    rw [List.foldl_append, List.foldl_append, List.foldl_cons, List.foldl_cons,
      hcancel _ _ _ (normal_foldl hnormal _ hx)]

theorem foldl_of_red (hnormal : ∀ x l, Normal x → Normal (step x l))
    (hcancel : ∀ x a b, Normal x → step (step x (a, b)) (a, !b) = x) {w w' : List (α × Bool)}
    (h : FreeGroup.Red w w') {x : σ} (hx : Normal x) : w.foldl step x = w'.foldl step x := by
  induction h with
  | refl => rfl
  | tail _ hstep ih => exact ih.trans (foldl_of_step hnormal hcancel hstep hx)

/-- **Two words for one element** of the free group do the same. -/
theorem foldl_of_mk (hnormal : ∀ x l, Normal x → Normal (step x l))
    (hcancel : ∀ x a b, Normal x → step (step x (a, b)) (a, !b) = x) {w w' : List (α × Bool)}
    (h : FreeGroup.mk w = FreeGroup.mk w') {x : σ} (hx : Normal x) : w.foldl step x = w'.foldl step x := by
  obtain ⟨v, hv, hv'⟩ := FreeGroup.Red.exact.1 h
  exact (foldl_of_red hnormal hcancel hv hx).trans (foldl_of_red hnormal hcancel hv' hx).symm

end Lib.Cancel
