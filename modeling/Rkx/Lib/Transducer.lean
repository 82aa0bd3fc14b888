import Mathlib.Data.List.Basic

/-!
# Machines that read and write

A step takes an element in and gives one out, and a machine makes a step for each element of a list.

* `transduce`, `transduce_append`;
* `transduce_flatten`: a machine that works through a list of lists is one that works through the whole;
* `transduce_undo`: steps that are undone one by one are undone together;
* `transduce_map`: the same machine on other states and elements;
* `calls`: a machine whose steps may have no result, `calls_map`.
-/

set_option autoImplicit false

namespace Lib.Transducer

variable {σ τ α β α' β' : Type*}

/-- The state behind the list, and what was given out. -/
def transduce (step : σ → α → σ × β) : σ → List α → σ × List β
  | s, [] => (s, [])
  | s, a :: l => ((transduce step (step s a).1 l).1, (step s a).2 :: (transduce step (step s a).1 l).2)

variable {step : σ → α → σ × β}

@[simp] theorem transduce_nil (s : σ) : transduce step s [] = (s, []) := rfl

theorem transduce_cons (s : σ) (a : α) (l : List α) :
    transduce step s (a :: l) =
      ((transduce step (step s a).1 l).1, (step s a).2 :: (transduce step (step s a).1 l).2) := rfl

@[simp] theorem length_transduce (s : σ) (l : List α) : (transduce step s l).2.length = l.length := by
  induction l generalizing s with
  | nil => rfl
  | cons a l ih => simp [transduce_cons, ih]

/-- What is the same of every element and of what is given out for it. -/
theorem map_transduce {γ : Type*} {g : α → γ} {g' : β → γ} (h : ∀ s a, g' (step s a).2 = g a) (s : σ) (l : List α) :
    (transduce step s l).2.map g' = l.map g := by
  induction l generalizing s with
  | nil => rfl
  | cons a l ih => simp [transduce_cons, h, ih]

/-- The second part goes on from the state behind the first one. -/
theorem transduce_append (s : σ) (l l' : List α) :
    transduce step s (l ++ l') =
      ((transduce step (transduce step s l).1 l').1,
        (transduce step s l).2 ++ (transduce step (transduce step s l).1 l').2) := by
  induction l generalizing s with
  | nil => rfl
  | cons a l ih => simp [transduce_cons, ih]

/-- **The pieces of a list** one after the other. -/
theorem transduce_flatten (s : σ) (ls : List (List α)) :
    transduce step s ls.flatten =
      ((transduce (transduce step) s ls).1, (transduce (transduce step) s ls).2.flatten) := by
  induction ls generalizing s with
  | nil => rfl
  | cons l ls ih => simp [transduce_cons, transduce_append, ih]

/-- **Steps that are undone** give back what was taken in, and leave the same state. -/
theorem transduce_undo {step' : σ → β → σ × α} (h : ∀ s a, step' s (step s a).2 = ((step s a).1, a)) (s : σ)
    (l : List α) : transduce step' s (transduce step s l).2 = ((transduce step s l).1, l) := by
  induction l generalizing s with
  | nil => rfl
  | cons a l ih =>
    rw [transduce_cons]
    simp only [transduce_cons, h, ih]

/-- **A machine in other words**: `f`, `g` and `g'` take its states and elements to those of another one. -/
theorem transduce_map {step' : τ → α' → τ × β'} (f : σ → τ) (g : α → α') (g' : β → β')
    (h : ∀ s a, step' (f s) (g a) = (f (step s a).1, g' (step s a).2)) (s : σ) (l : List α) :
    transduce step' (f s) (l.map g) = (f (transduce step s l).1, (transduce step s l).2.map g') := by
  induction l generalizing s with
  | nil => rfl
  | cons a l ih => simp [transduce_cons, h, ih]

/-- The same with steps that may have no result. -/
def calls (f : σ → α → Option (σ × β)) : σ → List α → Option (σ × List β)
  | s, [] => some (s, [])
  | s, a :: l => do
    let (s, b) ← f s a
    let (s, out) ← calls f s l
    return (s, b :: out)

theorem calls_map {f : σ → α' → Option (σ × β')} (g : α → α') (g' : β → β')
    (h : ∀ s a, f s (g a) = some ((step s a).1, g' (step s a).2)) (s : σ) (l : List α) :
    calls f s (l.map g) = some ((transduce step s l).1, (transduce step s l).2.map g') := by
  induction l generalizing s with
  | nil => rfl
  | cons a l ih => simp [calls, transduce_cons, h, ih]

end Lib.Transducer
