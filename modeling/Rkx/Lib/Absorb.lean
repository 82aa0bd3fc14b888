import Mathlib.Data.List.Basic

/-!
# Lists worked off in blocks

Elements are collected until there are `B` of them, and a block changes a state.

* `feed`, `absorb`: one element, and a list;
* `absorb_fits`, `absorb_block`: what does not fill the block, and what just fills it;
* `length_absorb`: how many elements are left.
-/

set_option autoImplicit false

namespace Lib.Absorb

variable {σ α : Type*} {B : Nat} {f : σ → List α → σ}

/-- One more element behind those that are collected. -/
def feed (B : Nat) (f : σ → List α → σ) (x : σ × List α) (a : α) : σ × List α :=
  if x.2.length + 1 < B then (x.1, x.2 ++ [a]) else (f x.1 (x.2 ++ [a]), [])

/-- The state, and what is collected, behind a list. -/
def absorb (B : Nat) (f : σ → List α → σ) (x : σ × List α) (l : List α) : σ × List α := l.foldl (feed B f) x

@[simp] theorem absorb_nil (x : σ × List α) : absorb B f x [] = x := rfl

/-- **One list after the other** is the two in a row. -/
theorem absorb_append (x : σ × List α) (l l' : List α) :
    absorb B f x (l ++ l') = absorb B f (absorb B f x l) l' :=
  List.foldl_append

theorem absorb_fits {s : σ} {r l : List α} (h : r.length + l.length < B) : absorb B f (s, r) l = (s, r ++ l) := by
  induction l generalizing r with
  | nil => rw [absorb_nil, List.append_nil]
  | cons a l ih =>
    rw [List.length_cons] at h
    have hfeed : feed B f (s, r) a = (s, r ++ [a]) := if_pos (by simp only; omega)
    have hrest := ih (r := r ++ [a]) (by simp; omega)
    rw [absorb, List.foldl_cons, hfeed]
    exact hrest.trans (by rw [List.append_assoc]; rfl)

/-- **A block that is full** changes the state. -/
theorem absorb_block {s : σ} {r l : List α} (hl : l ≠ []) (h : r.length + l.length = B) :
    absorb B f (s, r) l = (f s (r ++ l), []) := by
  obtain ⟨l, a, rfl⟩ : ∃ l' a, l = l' ++ [a] := ⟨_, _, (List.dropLast_concat_getLast hl).symm⟩
  rw [List.length_append, List.length_singleton] at h
  have hpartial : absorb B f (s, r) l = (s, r ++ l) := absorb_fits (by omega)
  rw [absorb_append, hpartial, ← List.append_assoc]
  exact if_neg (by simp; omega)

theorem length_absorb (x : σ × List α) (hx : x.2.length < B) (l : List α) :
    (absorb B f x l).2.length = (x.2.length + l.length) % B := by
  induction l generalizing x with
  | nil => exact (Nat.mod_eq_of_lt hx).symm
  | cons a l ih =>
    have hfeed : (feed B f x a).2.length = (x.2.length + 1) % B := by
      unfold feed
      split
      · rename_i hlt
        rw [Nat.mod_eq_of_lt hlt, List.length_append, List.length_singleton]
      · rw [show x.2.length + 1 = B by omega, Nat.mod_self, List.length_nil]
    have hlt : (feed B f x a).2.length < B := by
      rw [hfeed]
      exact Nat.mod_lt _ (by omega)
    rw [absorb, List.foldl_cons]
    refine (ih _ hlt).trans ?_
    rw [hfeed, Nat.mod_add_mod, List.length_cons, Nat.add_assoc, Nat.add_comm 1]

end Lib.Absorb
