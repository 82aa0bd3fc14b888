import Mathlib.Data.List.DropRight
import Mathlib.Data.List.Destutter

/-!
# The latest entries of a log

A log takes elements at its end, except one that is there already; a record keeps some of the latest ones.

* `push`, `foldl_push`: the log of a list of elements is the list without repetitions in a row;
* `Recent`: a record that has nothing but a last part of the log, and at least the latest `m` entries;
* `Recent.push`, `Recent.rtake`: what keeps this.
-/

set_option autoImplicit false

namespace Lib.Latest

variable {α : Type*}

section Push

variable [DecidableEq α]

/-- `a` at the end, unless it is the last element already. -/
def push (l : List α) (a : α) : List α := if l.getLast? = some a then l else l ++ [a]

theorem push_of_ne {l : List α} {a : α} (h : l.getLast? ≠ some a) : push l a = l ++ [a] := if_neg h

theorem push_of_eq {l : List α} {a : α} (h : l.getLast? = some a) : push l a = l := if_pos h

theorem getLast?_push (l : List α) (a : α) : (push l a).getLast? = some a := by
  unfold push
  split
  · assumption
  · simp

@[simp] theorem push_push (l : List α) (a : α) : push (push l a) a = push l a := push_of_eq (getLast?_push l a)

theorem foldl_push_append_singleton (lines acc : List α) (a : α) :
    lines.foldl push (acc ++ [a]) = acc ++ lines.destutter' (· ≠ ·) a := by
  induction lines generalizing acc a with
  | nil => rfl
  | cons b lines ih =>
    rw [List.foldl_cons]
    by_cases hab : a = b
    · subst hab
      rw [push_of_eq (by simp), ih, List.destutter'_cons_neg _ (by simp)]
    · rw [push_of_ne (by simpa using hab), ih, List.destutter'_cons_pos _ hab]
      simp

/-- **A log has no repetitions in a row.** -/
theorem foldl_push (lines : List α) : lines.foldl push [] = lines.destutter (· ≠ ·) := by
  cases lines with
  | nil => rfl
  | cons a lines => exact foldl_push_append_singleton lines [] a

theorem mem_of_mem_foldl_push {lines : List α} {a : α} (h : a ∈ lines.foldl push []) : a ∈ lines := by
  rw [foldl_push] at h
  exact (List.destutter_sublist _ _).subset h

end Push

/-! ## Records -/

/-- The record `l` is a last part of the log with the latest `m` entries at least. -/
structure Recent (m : Nat) (log l : List α) : Prop where
  kept : log.rtake m <:+ l
  only : l <:+ log

theorem rtake_suffix (l : List α) (n : Nat) : l.rtake n <:+ l := List.drop_suffix _ _

theorem length_rtake (l : List α) (n : Nat) : (l.rtake n).length = min n l.length := by
  simp only [List.rtake, List.length_drop]
  omega

theorem rtake_of_length_le {l : List α} {n : Nat} (hlen : l.length ≤ n) : l.rtake n = l := by
  rw [List.rtake, Nat.sub_eq_zero_of_le hlen, List.drop_zero]

/-- The latest entries are there exactly if the record is long enough. -/
theorem recent_iff {m : Nat} {log l : List α} : Recent m log l ↔ l <:+ log ∧ min m log.length ≤ l.length := by
  constructor
  · rintro ⟨hkept, honly⟩
    have hlen := hkept.length_le
    rw [length_rtake] at hlen
    exact ⟨honly, hlen⟩
  · rintro ⟨honly, hlen⟩
    rw [← length_rtake] at hlen
    exact ⟨List.suffix_of_suffix_length_le (rtake_suffix log m) honly hlen, honly⟩

namespace Recent

variable {m : Nat} {log l : List α}

theorem refl (m : Nat) (l : List α) : Recent m l l := ⟨rtake_suffix l m, List.suffix_refl l⟩

theorem mono {k : Nat} (h : Recent m log l) (hk : k ≤ m) : Recent k log l := by
  rw [recent_iff] at h ⊢
  exact ⟨h.1, by omega⟩

/-- An element added to the log and to the record. -/
theorem push [DecidableEq α] (h : Recent m log l) (a : α) : Recent m (Latest.push log a) (Latest.push l a) := by
  rw [recent_iff] at h ⊢
  obtain ⟨⟨old, rfl⟩, hlen⟩ := h
  rw [List.length_append] at hlen
  by_cases hl : l = []
  · -- the record is empty, so that no entry has to be kept
    subst hl
    rw [List.append_nil, push_of_ne (by simp)]
    by_cases hlast : old.getLast? = some a
    · rw [push_of_eq hlast]
      obtain ⟨older, rfl⟩ := List.getLast?_eq_some_iff.1 hlast
      simp at hlen ⊢
      omega
    · rw [push_of_ne hlast, List.nil_append]
      refine ⟨List.suffix_append old [a], ?_⟩
      simp only [List.length_nil, List.length_append, List.length_singleton] at hlen ⊢
      omega
  · have hsame : (old ++ l).getLast? = l.getLast? := List.getLast?_append_of_ne_nil _ hl
    by_cases hlast : l.getLast? = some a
    · rw [push_of_eq hlast, push_of_eq (hsame.trans hlast), List.length_append]
      exact ⟨⟨old, rfl⟩, hlen⟩
    · rw [push_of_ne hlast, push_of_ne (hsame ▸ hlast), List.append_assoc]
      refine ⟨⟨old, rfl⟩, ?_⟩
      simp only [List.length_append, List.length_singleton] at hlen ⊢
      omega

/-- A shorter record is recent enough while it has `m` entries. -/
theorem rtake (h : Recent m log l) {n : Nat} (hn : m ≤ n) : Recent m log (l.rtake n) := by
  rw [recent_iff] at h ⊢
  obtain ⟨honly, hlen⟩ := h
  refine ⟨(rtake_suffix l n).trans honly, ?_⟩
  rw [length_rtake]
  omega

/-- A record of at most `m` entries is the latest `m`. -/
theorem eq_rtake (h : Recent m log l) (hlen : l.length ≤ m) : l = log.rtake m := by
  refine (h.kept.eq_of_length_le ?_).symm
  have hle := h.only.length_le
  rw [length_rtake]
  omega

end Recent

end Lib.Latest
