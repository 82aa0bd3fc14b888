import Mathlib.Data.List.TakeWhile

/-!
# A cursor in memory

* `scan`: where a cursor stops that goes on while a predicate holds;
* `drop_scan`: what lies from there on;
* `scan_append_cons`: it does not pass an element without the predicate;
* `set_of_lt`: memory after one store.
-/

set_option autoImplicit false

namespace Lib.Scan

variable {α : Type*} {p : α → Bool}

/-- `while (p(m[i])) i++` -/
def scan (p : α → Bool) (m : List α) (i : Nat) : Nat := i + ((m.drop i).takeWhile p).length

theorem le_scan (m : List α) (i : Nat) : i ≤ scan p m i := Nat.le_add_right _ _

theorem drop_length_takeWhile (l : List α) : l.drop (l.takeWhile p).length = l.dropWhile p := by
  have h : (l.takeWhile p ++ l.dropWhile p).drop (l.takeWhile p).length = l.dropWhile p := List.drop_left
  rwa [List.takeWhile_append_dropWhile] at h

/-- **What lies behind the scanned run.** -/
theorem drop_scan (m : List α) (i : Nat) : m.drop (scan p m i) = (m.drop i).dropWhile p := by
  rw [scan, ← List.drop_drop, drop_length_takeWhile]

theorem scan_of_neg {m : List α} {i : Nat} {a : α} (h : m[i]? = some a) (ha : p a = false) : scan p m i = i := by
  obtain ⟨hi, rfl⟩ := List.getElem?_eq_some_iff.1 h
  rw [scan, List.drop_eq_getElem_cons hi, List.takeWhile_cons_of_neg (by rw [ha]; exact Bool.false_ne_true)]
  rfl

theorem scan_of_pos {m : List α} {i : Nat} {a : α} (h : m[i]? = some a) (ha : p a = true) :
    scan p m i = scan p m (i + 1) := by
  obtain ⟨hi, rfl⟩ := List.getElem?_eq_some_iff.1 h
  rw [scan, scan, List.drop_eq_getElem_cons hi, List.takeWhile_cons_of_pos ha, List.length_cons]
  omega

theorem scan_le {m : List α} {i : Nat} (hi : i ≤ m.length) : scan p m i ≤ m.length := by
  have h := (List.takeWhile_sublist p (l := m.drop i)).length_le
  rw [List.length_drop] at h
  unfold scan
  omega

theorem takeWhile_append_cons_of_neg {a : α} (ha : p a = false) (rest : List α) :
    ∀ l : List α, (l ++ a :: rest).takeWhile p = l.takeWhile p
  | [] => List.takeWhile_cons_of_neg (by rw [ha]; exact Bool.false_ne_true)
  | b :: l => by
    rw [List.cons_append, List.takeWhile_cons, List.takeWhile_cons, takeWhile_append_cons_of_neg ha rest l]

theorem dropWhile_append_cons_of_neg {a : α} (ha : p a = false) (rest : List α) :
    ∀ l : List α, (l ++ a :: rest).dropWhile p = l.dropWhile p ++ a :: rest
  | [] => List.dropWhile_cons_of_neg (by rw [ha]; exact Bool.false_ne_true)
  | b :: l => by
    rw [List.cons_append, List.dropWhile_cons, List.dropWhile_cons, dropWhile_append_cons_of_neg ha rest l]
    split <;> rfl

theorem mem_dropWhile {a : α} (ha : p a = false) {l : List α} (h : a ∈ l) : a ∈ l.dropWhile p := by
  rw [← List.takeWhile_append_dropWhile (p := p) (l := l), List.mem_append] at h
  refine h.resolve_left fun htake => ?_
  rw [List.mem_takeWhile_imp htake] at ha
  cases ha

/-- **The cursor stops** in front of an element without the predicate. -/
theorem scan_append_cons {a : α} (ha : p a = false) (rest : List α) {l : List α} {i : Nat}
    (hi : i ≤ l.length) : scan p (l ++ a :: rest) i = scan p l i := by
  rw [scan, List.drop_append_of_le_length hi, takeWhile_append_cons_of_neg ha]
  rfl

/-- **A cursor passes a run** of elements with the predicate. -/
theorem scan_of_drop {m w rest : List α} {i : Nat} (h : m.drop i = w ++ rest) (hw : ∀ a ∈ w, p a = true)
    (hrest : ∀ a ∈ rest.head?, p a = false) : scan p m i = i + w.length ∧ m.drop (i + w.length) = rest := by
  have hstop : rest.takeWhile p = [] := by
    cases rest with
    | nil => rfl
    | cons a rest => exact List.takeWhile_cons_of_neg (by rw [hrest a rfl]; exact Bool.false_ne_true)
  constructor
  · rw [scan, h, List.takeWhile_append_of_pos hw, hstop, List.append_nil]
  · rw [← List.drop_drop, h, List.drop_left]

/-- What lies at the cursor, and behind it. -/
theorem getElem?_of_drop {m l : List α} {i : Nat} {a : α} (h : m.drop i = a :: l) : m[i]? = some a := by
  rw [← List.head?_drop, h, List.head?_cons]

theorem drop_succ_of_drop {m l : List α} {i : Nat} {a : α} (h : m.drop i = a :: l) : m.drop (i + 1) = l := by
  rw [← List.drop_drop, h, List.drop_succ_cons, List.drop_zero]

/-- Memory after one store. -/
theorem set_of_lt {m : List α} {i : Nat} (hi : i < m.length) (a : α) :
    m.set i a = m.take i ++ a :: m.drop (i + 1) := by
  rw [List.set_eq_take_append_cons_drop, if_pos hi]

/-- The store is the last element of what lies before the next one. -/
theorem take_set_succ {m : List α} {i : Nat} (hi : i < m.length) (a : α) :
    (m.set i a).take (i + 1) = m.take i ++ [a] := by
  rw [set_of_lt hi, List.append_cons]
  exact List.take_left' (by rw [List.length_append, List.length_take, List.length_singleton]; omega)

/-- What lies behind a store is still the same. -/
theorem drop_set_of_drop_eq {m m' : List α} {i j k : Nat} (h : m.drop i = m'.drop i) (hj : j < k) (hik : i ≤ k)
    (a : α) : (m.set j a).drop k = m'.drop k := by
  have hk := congrArg (List.drop (k - i)) h
  rw [List.drop_drop, List.drop_drop, Nat.add_sub_cancel' hik] at hk
  rw [List.drop_set_of_lt hj, hk]

end Lib.Scan
