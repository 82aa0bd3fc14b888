import Mathlib.Data.List.TakeWhile

/-!
# Loops over options

A loop takes one option a turn and keeps a state; a turn goes on or leaves the loop with a result,
and when no option is left `done` makes the result.

* `loop_takeWhile`: the options that never leave the loop are a fold over the state;
* `taken`, `loop_rule`: the options that did not leave it, and the rule for invariants of the state and
  these options;
* `Until`: a run of options of one kind and an option of another behind it.
-/

set_option autoImplicit false

namespace Lib.OptionLoop

variable {σ ω ρ : Type*}

/-- What the body of the loop does with one option. -/
inductive Turn (σ ρ : Type*) where
  | next (s : σ)
  | leave (r : ρ)

def loop (turn : σ → ω → Turn σ ρ) (done : σ → ρ) : σ → List ω → ρ
  | s, [] => done s
  | s, o :: opts =>
    match turn s o with
    | .next s' => loop turn done s' opts
    | .leave r => r

variable {turn : σ → ω → Turn σ ρ} {done : σ → ρ}

@[simp] theorem loop_nil (s : σ) : loop turn done s [] = done s := rfl

theorem loop_next {s s' : σ} {o : ω} (opts : List ω) (h : turn s o = .next s') :
    loop turn done s (o :: opts) = loop turn done s' opts := by
  rw [loop, h]

theorem loop_leave {s : σ} {o : ω} {r : ρ} (opts : List ω) (h : turn s o = .leave r) :
    loop turn done s (o :: opts) = r := by
  rw [loop, h]

/-- **Options that never leave the loop** fold over the state. -/
theorem loop_takeWhile {plain : ω → Bool} {f : σ → ω → σ}
    (h : ∀ s o, plain o = true → turn s o = .next (f s o)) (opts : List ω) (s : σ) :
    loop turn done s opts =
      loop turn done ((opts.takeWhile plain).foldl f s) (opts.dropWhile plain) := by
  induction opts generalizing s with
  | nil => rfl
  | cons o opts ih =>
    cases ho : plain o with
    | true =>
      rw [loop_next opts (h s o ho), List.takeWhile_cons_of_pos ho, List.dropWhile_cons_of_pos ho,
        List.foldl_cons, ih]
    | false =>
      have hneg : ¬ plain o = true := by rw [ho]; exact Bool.false_ne_true
      rw [List.takeWhile_cons_of_neg hneg, List.dropWhile_cons_of_neg hneg, List.foldl_nil]

/-! ## Options that were taken -/

/-- The options whose turn goes on, up to the first that leaves the loop. -/
def taken (turn : σ → ω → Turn σ ρ) : σ → List ω → List ω
  | _, [] => []
  | s, o :: opts =>
    match turn s o with
    | .next s' => o :: taken turn s' opts
    | .leave _ => []

@[simp] theorem taken_nil (s : σ) : taken turn s [] = [] := rfl

theorem taken_next {s s' : σ} {o : ω} (opts : List ω) (h : turn s o = .next s') :
    taken turn s (o :: opts) = o :: taken turn s' opts := by
  rw [taken, h]

theorem taken_leave {s : σ} {o : ω} {r : ρ} (opts : List ω) (h : turn s o = .leave r) :
    taken turn s (o :: opts) = [] := by
  rw [taken, h]

/-- **An invariant** of the state and the options taken so far holds, when every turn keeps it, of the
    result and the options taken in all. -/
theorem loop_rule {I : σ → List ω → Prop} {R : ρ → List ω → Prop} {A : ω → Prop}
    (hnext : ∀ {s acc o s'}, A o → I s acc → turn s o = .next s' → I s' (acc ++ [o]))
    (hleave : ∀ {s acc o r}, I s acc → turn s o = .leave r → R r acc)
    (hdone : ∀ {s acc}, I s acc → R (done s) acc) (opts : List ω) (hopts : ∀ o ∈ opts, A o)
    {s : σ} {acc : List ω} (h : I s acc) : R (loop turn done s opts) (acc ++ taken turn s opts) := by
  induction opts generalizing s acc with
  | nil =>
    rw [loop_nil, taken_nil, List.append_nil]
    exact hdone h
  | cons o opts ih =>
    cases hturn : turn s o with
    | next s' =>
      rw [loop_next opts hturn, taken_next opts hturn, List.append_cons]
      exact ih (fun o' ho' => hopts o' (List.mem_cons_of_mem _ ho')) (hnext (hopts o List.mem_cons_self) h hturn)
    | leave r =>
      rw [loop_leave opts hturn, taken_leave opts hturn, List.append_nil]
      exact hleave h hturn

/-! ## Runs of options -/

/-- Options with `P`, and behind them one with `Q`. -/
def Until (P Q : ω → Prop) (opts : List ω) : Prop :=
  ∃ pre o rest, opts = pre ++ o :: rest ∧ (∀ x ∈ pre, P x) ∧ Q o

variable {P Q : ω → Prop}

@[simp] theorem not_until_nil : ¬ Until P Q [] := by
  rintro ⟨pre, o, rest, h, -⟩
  exact List.append_ne_nil_of_right_ne_nil pre (List.cons_ne_nil o rest) h.symm

theorem until_cons {o : ω} {opts : List ω} :
    Until P Q (o :: opts) ↔ Q o ∨ (P o ∧ Until P Q opts) := by
  constructor
  · rintro ⟨pre, x, rest, heq, hpre, hx⟩
    cases pre with
    | nil =>
      obtain ⟨rfl, -⟩ := List.cons_eq_cons.1 heq
      exact Or.inl hx
    | cons y pre =>
      obtain ⟨rfl, htail⟩ := List.cons_eq_cons.1 heq
      exact Or.inr ⟨hpre _ List.mem_cons_self,
        pre, x, rest, htail, fun z hz => hpre z (List.mem_cons_of_mem _ hz), hx⟩
  · rintro (ho | ⟨ho, pre, x, rest, rfl, hpre, hx⟩)
    · exact ⟨[], o, opts, rfl, by simp, ho⟩
    · exact ⟨o :: pre, x, rest, rfl, by simpa using ⟨ho, hpre⟩, hx⟩

end Lib.OptionLoop
