import Rkx.Lib.OptionLoop

/-!
# Loops that may not end

A turn of a loop goes on with a state or leaves with a result; a run has some number of turns at most.

* `Ends`: some number of turns is enough, `Ends.unique`;
* `ends_next`, `ends_leave`: one turn;
* `not_ends_of_invariant`: a loop that only goes on from states with an invariant does not end;
* `ends_rule`: what an invariant says about the result;
* `exists_run_of_measure`: a loop that uses something up ends, `run_rule`: with an invariant;
* `GoesOn`: the states that turns lead to;
* `Matches`, `ends_of_matches`, `GoesOn.matches`: two loops that go side by side.
-/

set_option autoImplicit false

namespace Lib.While

open Lib.OptionLoop

variable {σ ρ : Type*} {turn : σ → Turn σ ρ}

/-- At most `turns` turns: `none` if they are not enough. -/
def run (turn : σ → Turn σ ρ) : Nat → σ → Option ρ
  | 0, _ => none
  | turns + 1, s =>
    match turn s with
    | .next s' => run turn turns s'
    | .leave r => some r

theorem run_next {s s' : σ} (h : turn s = .next s') (turns : Nat) :
    run turn (turns + 1) s = run turn turns s' := by
  rw [run, h]

theorem run_leave {s : σ} {r : ρ} (h : turn s = .leave r) (turns : Nat) : run turn (turns + 1) s = some r := by
  rw [run, h]

/-- More turns change nothing. -/
theorem run_add {turns : Nat} {s : σ} {r : ρ} (h : run turn turns s = some r) (more : Nat) :
    run turn (turns + more) s = some r := by
  induction turns generalizing s with
  | zero => cases h
  | succ turns ih =>
    rw [Nat.succ_add]
    cases hturn : turn s with
    | next s' =>
      rw [run_next hturn] at h ⊢
      exact ih h
    | leave r' =>
      rw [run_leave hturn] at h ⊢
      exact h

/-- The loop ends in `r`. -/
def Ends (turn : σ → Turn σ ρ) (s : σ) (r : ρ) : Prop := ∃ turns, run turn turns s = some r

/-- **A loop ends in one result.** -/
theorem Ends.unique {s : σ} {r r' : ρ} (h : Ends turn s r) (h' : Ends turn s r') : r = r' := by
  obtain ⟨n, hn⟩ := h
  obtain ⟨k, hk⟩ := h'
  have hr := run_add hn k
  have hr' := run_add hk n
  rw [Nat.add_comm, hr] at hr'
  exact Option.some_inj.1 hr'

theorem ends_leave {s : σ} {r : ρ} (h : turn s = .leave r) : Ends turn s r := ⟨1, run_leave h 0⟩

theorem ends_next {s s' : σ} {r : ρ} (h : turn s = .next s') (hr : Ends turn s' r) : Ends turn s r := by
  obtain ⟨turns, hturns⟩ := hr
  exact ⟨turns + 1, (run_next h turns).trans hturns⟩

/-- **A loop that only goes on** does not end. -/
theorem not_ends_of_invariant {I : σ → Prop} (hnext : ∀ s, I s → ∃ s', turn s = .next s' ∧ I s') {s : σ}
    (hs : I s) (r : ρ) : ¬ Ends turn s r := by
  rintro ⟨turns, hrun⟩
  induction turns generalizing s with
  | zero => cases hrun
  | succ turns ih =>
    obtain ⟨s', hturn, hs'⟩ := hnext s hs
    rw [run_next hturn] at hrun
    exact ih hs' hrun

/-- What holds of the outcome of a turn. -/
def Outcome (I : σ → Prop) (Q : ρ → Prop) : Turn σ ρ → Prop
  | .next s => I s
  | .leave r => Q r

/-- **A loop with an invariant** ends as it leaves from a state with the invariant. -/
theorem ends_rule {I : σ → Prop} {Q : ρ → Prop} (hturn : ∀ s, I s → Outcome I Q (turn s)) {s : σ} {r : ρ}
    (hs : I s) (h : Ends turn s r) : Q r := by
  obtain ⟨turns, hrun⟩ := h
  induction turns generalizing s with
  | zero => cases hrun
  | succ turns ih =>
    have hout := hturn s hs
    cases hnext : turn s with
    | next s' =>
      rw [run_next hnext] at hrun
      rw [hnext] at hout
      exact ih hout hrun
    | leave r' =>
      rw [run_leave hnext, Option.some_inj] at hrun
      rw [hnext, hrun] at hout
      exact hout

/-- **A loop that uses something up** in every turn ends before it is used up. -/
theorem exists_run_of_measure {m : σ → Nat} (hm : ∀ s s', turn s = .next s' → m s' < m s) {turns : Nat} {s : σ}
    (hs : m s < turns) : ∃ r, run turn turns s = some r := by
  induction turns generalizing s with
  | zero => cases hs
  | succ turns ih =>
    cases hturn : turn s with
    | leave r => exact ⟨r, run_leave hturn turns⟩
    | next s' =>
      rw [run_next hturn]
      exact ih (Nat.lt_of_lt_of_le (hm s s' hturn) (Nat.le_of_lt_succ hs))

/-- **A loop with an invariant** that uses something up leaves as its last turn does. -/
theorem run_rule {I : σ → Prop} {Q : ρ → Prop} {m : σ → Nat}
    (hturn : ∀ s, I s → (∃ s', turn s = .next s' ∧ I s' ∧ m s' < m s) ∨ ∃ r, turn s = .leave r ∧ Q r) {turns : Nat}
    {s : σ} (hs : I s) (hm : m s < turns) : ∃ r, run turn turns s = some r ∧ Q r := by
  induction turns generalizing s with
  | zero => cases hm
  | succ turns ih =>
    obtain ⟨s', hnext, hs', hlt⟩ | ⟨r, hleave, hr⟩ := hturn s hs
    · rw [run_next hnext]
      exact ih hs' (Nat.lt_of_lt_of_le hlt (Nat.le_of_lt_succ hm))
    · exact ⟨r, run_leave hleave turns, hr⟩

/-- Turns that go on lead from a state to another. -/
inductive GoesOn (turn : σ → Turn σ ρ) : σ → σ → Prop
  | refl (s : σ) : GoesOn turn s s
  | next {s s' t : σ} (hturn : turn s = .next s') (h : GoesOn turn s' t) : GoesOn turn s t

/-- **What a turn keeps** holds wherever turns lead. -/
theorem GoesOn.invariant {I : σ → Prop} {s t : σ} (h : GoesOn turn s t) (hturn : ∀ s s', I s → turn s = .next s' → I s')
    (hs : I s) : I t := by
  induction h with
  | refl s => exact hs
  | next hnext _ ih => exact ih (hturn _ _ hs hnext)

/-! ## Two loops side by side -/

variable {τ ρ' : Type*} {turn' : τ → Turn τ ρ'}

/-- The turns go on with states in `R`, or leave with results in `Q`. -/
def Matches (R : σ → τ → Prop) (Q : ρ → ρ' → Prop) : Turn σ ρ → Turn τ ρ' → Prop
  | .next s, .next t => R s t
  | .leave r, .leave r' => Q r r'
  | _, _ => False

/-- **Loops that match turn by turn** end together. -/
theorem ends_of_matches {R : σ → τ → Prop} {Q : ρ → ρ' → Prop}
    (hturn : ∀ s t, R s t → Matches R Q (turn s) (turn' t)) {s : σ} {t : τ} {r' : ρ'} (hst : R s t)
    (h : Ends turn' t r') : ∃ r, Ends turn s r ∧ Q r r' := by
  obtain ⟨turns, hrun⟩ := h
  induction turns generalizing s t with
  | zero => cases hrun
  | succ turns ih =>
    have hmatch := hturn s t hst
    cases ht : turn' t with
    | next t' =>
      rw [run_next ht] at hrun
      cases hs : turn s with
      | leave r => rw [hs, ht] at hmatch; cases hmatch
      | next s' =>
        rw [hs, ht] at hmatch
        obtain ⟨r, hr, hq⟩ := ih hmatch hrun
        exact ⟨r, ends_next hs hr, hq⟩
    | leave q =>
      rw [run_leave ht, Option.some_inj] at hrun
      subst hrun
      cases hs : turn s with
      | next s' => rw [hs, ht] at hmatch; cases hmatch
      | leave r => rw [hs, ht] at hmatch; exact ⟨r, ends_leave hs, hmatch⟩

end Lib.While
