import Rkx.Lib.Scan

/-!
# A cursor of type `int`

An index is an `int`, which wraps around; an access outside of the memory has no result.

* `at?`, `scan?`: `m[i]` and `while (p(m[i])) i++`;
* `at?_ofNat`, `at?_wrapped`: an index up to `INT_MAX`, and the one behind it;
* `scan?_ofNat`: the cursor stops where one without bounds does, unless that is above `INT_MAX`.
-/

set_option autoImplicit false

namespace Lib.CInt

open Lib.Scan

/-- `INT_MAX` -/
def INT_MAX : Nat := 2147483647

theorem toInt_ofNat_le (n : Nat) : (Int32.ofNat n).toInt ≤ n := by
  rw [Int32.toInt_ofNat', Int.bmod_eq_emod]
  have hle : (n : Int) % Int32.size ≤ n := by
    rw [← Int.natCast_emod]
    exact Int.ofNat_le.2 (Nat.mod_le _ _)
  split <;> omega

theorem toInt_ofNat_of_le {n : Nat} (h : n ≤ INT_MAX) : (Int32.ofNat n).toInt = n :=
  Int32.toInt_ofNat_of_lt (Nat.lt_succ_of_le h)

variable {α : Type*} {p : α → Bool} {m : List α}

/-- `m[i]` -/
def at? (m : List α) (i : Int32) : Option α := if i < 0 then none else m[i.toNatClampNeg]?

theorem at?_ofNat {n : Nat} (h : n ≤ INT_MAX) : at? m (Int32.ofNat n) = m[n]? := by
  have hpos : ¬ Int32.ofNat n < 0 := by
    rw [Int32.lt_iff_toInt_lt, toInt_ofNat_of_le h]
    exact Int.not_lt.2 (Int.natCast_nonneg n)
  have hindex : (Int32.ofNat n).toNatClampNeg = n := by
    rw [← Int32.toNat_toInt, toInt_ofNat_of_le h, Int.toNat_natCast]
  rw [at?, if_neg hpos, hindex]

/-- **Behind `INT_MAX`** the index is negative. -/
theorem at?_wrapped : at? m (Int32.ofNat (INT_MAX + 1)) = none := if_pos (by decide)

/-- How much of the memory is not in front of the cursor. -/
def ahead (m : List α) (i : Int32) : Nat := m.length - i.toUInt32.toNat

/-- An index that is read is a number up to `INT_MAX`. -/
theorem exists_ofNat_of_at? {i : Int32} {a : α} (h : at? m i = some a) :
    ∃ n, i = Int32.ofNat n ∧ n ≤ INT_MAX ∧ n < m.length := by
  unfold at? at h
  split at h
  · cases h
  · rename_i hpos
    refine ⟨i.toNatClampNeg, ?_, Nat.le_of_lt_succ i.toNatClampNeg_lt, (List.getElem?_eq_some_iff.1 h).1⟩
    rw [Int32.ofNat_toNatClampNeg]
    exact Int32.not_lt.1 hpos

theorem ahead_lt {i : Int32} {a : α} (h : at? m i = some a) : ahead m (i + 1) < ahead m i := by
  obtain ⟨n, rfl, hmax, hlt⟩ := exists_ofNat_of_at? h
  unfold ahead
  rw [show Int32.ofNat n + 1 = Int32.ofNat (n + 1) from (Int32.ofNat_add n 1).symm]
  unfold INT_MAX at hmax
  have h1 : (Int32.ofNat n).toUInt32.toNat = n := by
    rw [Int32.toUInt32_ofNat', UInt32.toNat_ofNat']
    exact Nat.mod_eq_of_lt (by omega)
  have h2 : (Int32.ofNat (n + 1)).toUInt32.toNat = n + 1 := by
    rw [Int32.toUInt32_ofNat', UInt32.toNat_ofNat']
    exact Nat.mod_eq_of_lt (by omega)
  omega

/-- `while (p(m[i])) i++` -/
def scan? (p : α → Bool) (m : List α) (i : Int32) : Option Int32 :=
  match _h : at? m i with
  | none => none
  | some a => if p a then scan? p m (i + 1) else some i
termination_by ahead m i
decreasing_by exact ahead_lt _h

theorem scan?_of_some {i : Int32} {a : α} (h : at? m i = some a) :
    scan? p m i = if p a then scan? p m (i + 1) else some i := by
  rw [scan?]
  split
  · rename_i hnone
    cases hnone.symm.trans h
  · rename_i b hread
    cases hread.symm.trans h
    rfl

theorem scan?_of_none {i : Int32} (h : at? m i = none) : scan? p m i = none := by
  rw [scan?]
  split
  · rfl
  · rename_i b hread
    cases hread.symm.trans h

/-- A scan goes forward. -/
theorem ahead_scan? {i j : Int32} (h : scan? p m i = some j) : ahead m j ≤ ahead m i := by
  induction i using scan?.induct p m with
  | case1 i hnone =>
    rw [scan?_of_none hnone] at h
    cases h
  | case2 i a hread hp ih =>
    rw [scan?_of_some hread, if_pos hp] at h
    exact Nat.le_trans (ih h) (Nat.le_of_lt (ahead_lt hread))
  | case3 i a hread hp =>
    rw [scan?_of_some hread, if_neg hp] at h
    cases h
    exact Nat.le_refl _

/-- **The cursor stops** where one without bounds does, if an `int` holds that index. -/
theorem scan?_ofNat {n : Nat} (hn : n ≤ INT_MAX + 1) (hstop : scan p m n < m.length) :
    scan? p m (Int32.ofNat n) =
      if scan p m n ≤ INT_MAX then some (Int32.ofNat (scan p m n)) else none := by
  induction hk : m.length - n generalizing n with
  | zero =>
    have hle := le_scan (p := p) m n
    omega
  | succ k ih =>
    have hle := le_scan (p := p) m n
    rcases Nat.lt_or_ge INT_MAX n with hwrap | hmax
    · obtain rfl : n = INT_MAX + 1 := by omega
      rw [scan?_of_none at?_wrapped, if_neg (by omega)]
    · have hread : m[n]? = some m[n] := List.getElem?_eq_getElem (by omega)
      have hfirst : at? m (Int32.ofNat n) = some m[n] := (at?_ofNat hmax).trans hread
      rw [scan?_of_some hfirst]
      cases hp : p m[n] with
      | true =>
        have hnext := scan_of_pos hread hp
        rw [hnext] at hstop ⊢
        rw [if_pos rfl, ← ih (Nat.succ_le_succ hmax) hstop (by omega), Nat.succ_eq_add_one, Int32.ofNat_add]
        rfl
      | false => rw [scan_of_neg hread hp, if_pos hmax, if_neg Bool.false_ne_true]

end Lib.CInt
