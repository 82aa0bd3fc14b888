import Mathlib.Logic.Function.Basic

/-!
# Logs of writes

A store that maps keys to values is written one entry after another, and nothing is ever removed.

* `replay`: the store after a log of writes;
* `replay_eq_some_iff`: a key has the value of the last write to it.
-/

set_option autoImplicit false

namespace Lib.Log

variable {κ ν : Type*} [DecidableEq κ]

/-- The store after the writes of the log, in order. -/
def replay (start : κ → Option ν) (log : List (κ × ν)) : κ → Option ν :=
  log.foldl (fun store entry => Function.update store entry.1 (some entry.2)) start

@[simp] theorem replay_nil (start : κ → Option ν) : replay start [] = start := rfl

theorem replay_cons (start : κ → Option ν) (entry : κ × ν) (log : List (κ × ν)) :
    replay start (entry :: log) = replay (Function.update start entry.1 (some entry.2)) log := rfl

/-- **The last write to a key counts.** -/
theorem replay_eq_some_iff (start : κ → Option ν) (log : List (κ × ν)) (k : κ) (v : ν) :
    replay start log k = some v ↔
      (∃ pre post, log = pre ++ (k, v) :: post ∧ ∀ v', (k, v') ∉ post) ∨
        start k = some v ∧ ∀ v', (k, v') ∉ log := by
  induction log generalizing start with
  | nil => simp
  | cons entry log ih =>
    obtain ⟨k₁, v₁⟩ := entry
    rw [replay_cons, ih]
    constructor
    · rintro (⟨pre, post, rfl, hpost⟩ | ⟨hstart, hlog⟩)
      · exact Or.inl ⟨(k₁, v₁) :: pre, post, rfl, hpost⟩
      · by_cases hk : k = k₁
        · subst hk
          rw [Function.update_self] at hstart
          cases hstart
          exact Or.inl ⟨[], log, rfl, hlog⟩
        · rw [Function.update_of_ne hk] at hstart
          refine Or.inr ⟨hstart, ?_⟩
          intro v' hv'
          rcases List.mem_cons.1 hv' with h | h
          · exact hk (congrArg Prod.fst h)
          · exact hlog v' h
    · rintro (⟨pre, post, hlog, hpost⟩ | ⟨hstart, hlog⟩)
      · cases pre with
        | nil =>
          obtain ⟨hentry, rfl⟩ := List.cons_eq_cons.1 hlog
          cases hentry
          exact Or.inr ⟨Function.update_self _ _ _, hpost⟩
        | cons first pre =>
          obtain ⟨-, rfl⟩ := List.cons_eq_cons.1 hlog
          exact Or.inl ⟨pre, post, rfl, hpost⟩
      · have hk : k ≠ k₁ := by
          rintro rfl
          exact hlog v₁ List.mem_cons_self
        exact Or.inr ⟨by rw [Function.update_of_ne hk, hstart],
          fun v' h => hlog v' (List.mem_cons_of_mem _ h)⟩

end Lib.Log
