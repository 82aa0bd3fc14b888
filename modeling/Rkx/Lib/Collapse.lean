import Mathlib.Data.List.Destutter
import Mathlib.Data.List.SplitBy
import Mathlib.Data.List.TakeWhile
import Rkx.Lib.Words

/-!
# Runs of a separator

* `collapse`: a list with each run of the separator replaced by one;
* `collapse_cons_of_ne`, `collapse_cons_self`: the collapsed list from the front;
* `collapse_take`: a part from the front of a collapsed list is collapsed;
* `words_collapse`: the words between the separators are the same;
* `runs`, `collapse_eq_runs`: the maximal runs of separators and of others, of which the former are
  replaced.
-/

set_option autoImplicit false

namespace Lib.Collapse

open Lib.Words

variable {α : Type*} [DecidableEq α] {s : α}

/-- Not both are separators. -/
def Apart (s a b : α) : Prop := a ≠ s ∨ b ≠ s

instance : DecidableRel (Apart s) := fun a b => inferInstanceAs (Decidable (a ≠ s ∨ b ≠ s))

/-- The list with each run of `s` replaced by one `s`. -/
def collapse (s : α) (l : List α) : List α := l.destutter (Apart s)

@[simp] theorem collapse_nil : collapse s [] = [] := rfl

theorem collapse_cons_of_ne {a : α} (ha : a ≠ s) (l : List α) : collapse s (a :: l) = a :: collapse s l := by
  cases l with
  | nil => rfl
  | cons b l => exact List.destutter'_cons_pos (R := Apart s) _ (Or.inl ha)

theorem collapse_cons_self (l : List α) :
    collapse s (s :: l) = s :: collapse s (l.dropWhile (· == s)) := by
  induction l with
  | nil => rfl
  | cons b l ih =>
    by_cases hb : b = s
    · have hskip : collapse s (s :: b :: l) = collapse s (s :: l) :=
        List.destutter'_cons_neg (R := Apart s) _ (by simp [Apart, hb])
      rw [hskip, ih, List.dropWhile_cons_of_pos (by simpa using hb)]
    · rw [List.dropWhile_cons_of_neg (by simpa using hb)]
      exact List.destutter'_cons_pos (R := Apart s) _ (Or.inr hb)

theorem collapse_sublist (l : List α) : (collapse s l).Sublist l := List.destutter_sublist _ l

theorem length_collapse_le (l : List α) : (collapse s l).length ≤ l.length := (collapse_sublist l).length_le

/-- Collapsing twice is collapsing once. -/
theorem collapse_idem (l : List α) : collapse s (collapse s l) = collapse s l := List.destutter_idem ..

/-- **A part from the front** of a collapsed list is collapsed. -/
theorem collapse_take {l : List α} (h : collapse s l = l) (n : Nat) : collapse s (l.take n) = l.take n := by
  have hchain := (List.destutter_eq_self_iff _ l).1 h
  exact List.destutter_of_isChain _ _ (hchain.take n)

theorem head?_collapse (l : List α) : (collapse s l).head? = l.head? := by
  cases l with
  | nil => rfl
  | cons a l =>
    by_cases ha : a = s
    · subst ha
      rw [collapse_cons_self, List.head?_cons, List.head?_cons]
    · rw [collapse_cons_of_ne ha, List.head?_cons, List.head?_cons]

theorem collapse_eq_nil_iff {l : List α} : collapse s l = [] ↔ l = [] := List.destutter_eq_nil (Apart s)

/-- A run without separators stays. -/
theorem collapse_run_append {w : List α} (hw : ∀ a ∈ w, (a == s) = false) (l : List α) :
    collapse s (w ++ l) = w ++ collapse s l := by
  induction w with
  | nil => rfl
  | cons a w ih =>
    have ha : a ≠ s := by simpa using hw a List.mem_cons_self
    rw [List.cons_append, collapse_cons_of_ne ha, ih fun b hb => hw b (List.mem_cons_of_mem _ hb),
      List.cons_append]

/-- A separator in front of a list that begins with one is lost. -/
theorem words_collapse_cons_self (l : List α) :
    words (· == s) (collapse s (s :: l)) = words (· == s) (collapse s l) := by
  have hsep : ∀ m : List α, words (· == s) (s :: m) = words (· == s) m :=
    words_cons_of_pos (beq_self_eq_true s)
  rw [collapse_cons_self, hsep]
  cases l with
  | nil => rfl
  | cons b l =>
    by_cases hb : b = s
    · subst hb
      rw [List.dropWhile_cons_of_pos (p := (· == b)) (beq_self_eq_true b), collapse_cons_self, hsep]
    · rw [List.dropWhile_cons_of_neg (by simpa using hb)]

/-- **The words of a collapsed list** are those of the list. -/
theorem words_collapse (l : List α) : words (· == s) (collapse s l) = words (· == s) l := by
  induction l using words_induction (p := (· == s)) with
  | nil => rfl
  | sep a l ha ih =>
    obtain rfl : a = s := by simpa using ha
    rw [words_collapse_cons_self, ih, words_cons_of_pos (p := (· == a)) ha]
  | run w r hne hw hr ih =>
    rw [collapse_run_append hw, words_run_append hw hne hr,
      words_run_append hw hne (by rw [head?_collapse]; exact hr), ih]

/-! ## Maximal runs -/

/-- The maximal runs of a list, of separators and of other elements in turn. -/
def runs (s : α) (l : List α) : List (List α) := l.splitBy fun a b => (a == s) == (b == s)

/-- One separator for a run of them, and any other run as it is. -/
def squeeze (s : α) (run : List α) : List α := if s ∈ run then [s] else run

/-- A run, up to the end or an element of the other kind, is the first one. -/
theorem runs_append {w r : List α} {k : Bool} (hne : w ≠ []) (hw : ∀ a ∈ w, (a == s) = k)
    (hr : ∀ a ∈ r.head?, (a == s) ≠ k) : runs s (w ++ r) = w :: runs s r := by
  have hchain : w.IsChain fun a b => (a == s) == (b == s) := by
    apply List.Pairwise.isChain
    apply List.pairwise_of_forall_mem_list
    intro a ha b hb
    rw [hw a ha, hw b hb]
    exact beq_self_eq_true k
  unfold runs
  rw [List.splitBy_append, List.splitBy_of_isChain hne hchain, List.singleton_append]
  intro a ha b hb
  rw [hw a (List.mem_of_getLast? ha)]
  simpa using (hr b hb).symm

/-- **The collapsed list** has its runs, those of separators replaced by one. -/
theorem collapse_eq_runs (l : List α) : collapse s l = (runs s l).flatMap (squeeze s) := by
  induction hn : l.length using Nat.strong_induction_on generalizing l with
  | _ n ih =>
    subst hn
    cases l with
    | nil => rfl
    | cons a l =>
      by_cases ha : a = s
      · -- a run of separators
        subst ha
        have hsplit := List.takeWhile_append_dropWhile (p := (· == a)) (l := l)
        have hle := (List.dropWhile_sublist (· == a) (l := l)).length_le
        have hruns : runs a (a :: l) = (a :: l.takeWhile (· == a)) :: runs a (l.dropWhile (· == a)) := by
          conv => lhs; rw [← hsplit, ← List.cons_append]
          refine runs_append (k := true) (List.cons_ne_nil _ _) ?_ ?_
          · intro b hb
            rcases List.mem_cons.1 hb with rfl | hb
            · exact beq_self_eq_true b
            · have hsep := List.mem_takeWhile_imp hb
              exact hsep
          · intro b hb
            have hhead := List.head?_dropWhile_not (· == a) l
            rw [Option.mem_def.1 hb] at hhead
            simpa using hhead
        rw [collapse_cons_self, hruns, List.flatMap_cons, squeeze, if_pos List.mem_cons_self,
          ih _ (by rw [List.length_cons]; omega) _ rfl, List.singleton_append]
      · -- a run of other elements
        obtain ⟨w, r, heq, hne, hw, hr⟩ := exists_run_append (p := (· == s)) (by simpa using ha) l
        have hlen : r.length < (a :: l).length := by
          have hpos := List.length_pos_iff.2 hne
          rw [heq, List.length_append]
          omega
        have hout : s ∉ w := by
          intro hs
          have hkind := hw s hs
          simp at hkind
        rw [heq, collapse_run_append hw, runs_append hne hw (fun b hb => by rw [hr b hb]; decide),
          List.flatMap_cons, squeeze, if_neg hout, ih _ hlen _ rfl]

end Lib.Collapse
