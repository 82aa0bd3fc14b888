import Mathlib.Data.List.Basic

/-!
# Checked accesses to a block of memory

A block is a list; an access outside of it has no result.

* `store?`, `memmove?`, `memcpy?`: one element stored, a run of elements copied within the block, and one copied
  into it;
* `store?_append`, `memmove?_append`: the same on a block that is given in pieces.
-/

set_option autoImplicit false

namespace Lib.Memory

variable {α : Type*}

/-- `m[i] = a` -/
def store? (m : List α) (i : Nat) (a : α) : Option (List α) := if i < m.length then some (m.set i a) else none

/-- `memmove(m + dst, m + src, n)`; the two ranges may overlap. -/
def memmove? (m : List α) (dst src n : Nat) : Option (List α) :=
  if src + n ≤ m.length ∧ dst + n ≤ m.length then
    some (m.take dst ++ (m.drop src).take n ++ m.drop (dst + n))
  else none

/-- A store between two pieces. -/
theorem store?_append {i : Nat} {p : List α} (hi : i = p.length) (old new : α) (r : List α) :
    store? (p ++ old :: r) i new = some (p ++ new :: r) := by
  subst hi
  unfold store?
  rw [if_pos (by simp), List.set_append_right p.length new (Nat.le_refl _), Nat.sub_self, List.set_cons_zero]

theorem length_store? {m m' : List α} {i : Nat} {a : α} (h : store? m i a = some m') : m'.length = m.length := by
  unfold store? at h
  split at h
  · cases h
    simp
  · cases h

theorem length_memmove? {m m' : List α} {dst src n : Nat} (h : memmove? m dst src n = some m') :
    m'.length = m.length := by
  unfold memmove? at h
  split at h
  · cases h
    simp
    omega
  · cases h

/-- The run `w` moved to `j`. -/
theorem memmove?_append {p w r : List α} {j i n : Nat} (hi : i = p.length) (hn : n = w.length)
    (hj : j + n ≤ (p ++ w ++ r).length) :
    memmove? (p ++ w ++ r) j i n =
      some ((p ++ w ++ r).take j ++ w ++ (p ++ w ++ r).drop (j + n)) := by
  subst hi hn
  unfold memmove?
  rw [if_pos ⟨by simp, hj⟩]
  simp

/-- One element wider: the run moves behind the element that follows it. -/
theorem memmove?_right {p w r : List α} {x : α} {i j n : Nat} (hi : i = p.length) (hn : n = w.length)
    (hj : j = i + 1) :
    ∃ y, memmove? (p ++ w ++ x :: r) j i n = some (p ++ y :: (w ++ r)) := by
  subst hj hi
  rw [memmove?_append rfl hn (by simp [hn]; omega)]
  have hbehind : (p ++ w ++ x :: r).drop (p.length + 1 + n) = r := by
    rw [hn, show p.length + 1 + w.length = (p ++ w).length + 1 by simp; omega, ← List.drop_drop]
    simp
  have hbefore : ∃ y, (p ++ w ++ x :: r).take (p.length + 1) = p ++ [y] := by
    obtain ⟨y, l, hl⟩ : ∃ y l, w ++ x :: r = y :: l := by cases w <;> simp
    refine ⟨y, ?_⟩
    rw [List.append_assoc, hl, List.append_cons, List.take_left' (by simp)]
  obtain ⟨y, hy⟩ := hbefore
  exact ⟨y, by rw [hbehind, hy]; simp⟩

/-- The run moves over the piece `d` in front of it. -/
theorem memmove?_left {p d w r : List α} {i j n : Nat} (hi : i = p.length + d.length) (hn : n = w.length)
    (hj : j = p.length) :
    memmove? (p ++ d ++ w ++ r) j i n = some (p ++ w ++ (d ++ w ++ r).drop n) := by
  subst hj
  rw [memmove?_append (by simp [hi]) hn (by simp [hn]; omega)]
  simp [List.append_assoc, ← List.drop_drop]

/-- `memcpy(m + i, l, n)` for a run `l` of `n` elements elsewhere. -/
def memcpy? (m : List α) (i : Nat) (l : List α) : Option (List α) :=
  if i + l.length ≤ m.length then some (m.take i ++ l ++ m.drop (i + l.length)) else none

/-- The run behind what is kept in front of it. -/
theorem memcpy?_take {m l : List α} {i n : Nat} (h : i + l.length ≤ n) (hn : m.length = n) :
    ∃ m', memcpy? m i l = some m' ∧ m'.length = n ∧ m'.take (i + l.length) = m.take i ++ l := by
  have hi : (m.take i).length = i := List.length_take_of_le (by omega)
  refine ⟨m.take i ++ l ++ m.drop (i + l.length), if_pos (by omega), ?_, ?_⟩
  · simp only [List.length_append, hi, List.length_drop]
    omega
  · exact List.take_left' (by rw [List.length_append, hi])

end Lib.Memory
