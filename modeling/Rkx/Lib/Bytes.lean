import Mathlib.Algebra.Group.Nat.Defs
import Mathlib.Data.List.Basic

/-!
# Bytes

* `forall_byte`: a statement about every byte from its 256 values;
* `toLE` / `ofLE`: little-endian integers of a fixed width, `ofLE_toLE`, `toLE_ofLE`;
* `incLE`: the next one, byte by byte, `incLE_eq`.
-/

set_option autoImplicit false

namespace Lib.Bytes

/-- A statement about every byte, checked value by value. -/
theorem forall_byte {p : UInt8 → Prop} (h : ∀ i : Fin 256, p (UInt8.ofFin i)) (x : UInt8) :
    p x := by
  simpa using h x.toFin

/-- The `n` low bytes of `v`, least significant first. -/
def toLE : Nat → Nat → List UInt8
  | 0, _ => []
  | n + 1, v => UInt8.ofNat v :: toLE n (v / 256)

def ofLE : List UInt8 → Nat
  | [] => 0
  | b :: bs => b.toNat + 256 * ofLE bs

@[simp] theorem length_toLE : ∀ n v, (toLE n v).length = n
  | 0, _ => rfl
  | n + 1, v => by rw [toLE, List.length_cons, length_toLE n]

theorem ofLE_toLE : ∀ n v, ofLE (toLE n v) = v % 256 ^ n
  | 0, v => by rw [toLE, ofLE, Nat.pow_zero, Nat.mod_one]
  | n + 1, v => by
    rw [toLE, ofLE, ofLE_toLE n, Nat.pow_succ', Nat.mod_mul, UInt8.toNat_ofNat']

theorem ofLE_toLE_of_lt {n v : Nat} (h : v < 256 ^ n) : ofLE (toLE n v) = v := by
  rw [ofLE_toLE, Nat.mod_eq_of_lt h]

theorem toLE_ofLE : ∀ l : List UInt8, toLE l.length (ofLE l) = l
  | [] => rfl
  | b :: l => by
    have hlow : UInt8.ofNat (b.toNat + 256 * ofLE l) = b := by simp [UInt8.ofNat_add, UInt8.ofNat_mul]
    have hhigh : (b.toNat + 256 * ofLE l) / 256 = ofLE l := by
      have hlt := b.toNat_lt
      omega
    rw [List.length_cons, toLE, ofLE, hlow, hhigh, toLE_ofLE l]

theorem toLE_mod : ∀ n v, toLE n (v % 256 ^ n) = toLE n v
  | 0, _ => rfl
  | n + 1, v => by
    have hlow : UInt8.ofNat (v % 256 ^ (n + 1)) = UInt8.ofNat v := by
      rw [← UInt8.toNat_inj, UInt8.toNat_ofNat', UInt8.toNat_ofNat', Nat.pow_succ, Nat.mod_mul_left_mod]
    have hhigh : v % 256 ^ (n + 1) / 256 = v / 256 % 256 ^ n := by
      rw [Nat.pow_succ', Nat.mod_mul_right_div_self]
    rw [toLE, toLE, hlow, hhigh, toLE_mod n]

/-- The carry goes on behind a byte that overflows. -/
def incLE : List UInt8 → List UInt8
  | [] => []
  | b :: l => if b = 255 then 0 :: incLE l else (b + 1) :: l

/-- **The next integer** of the width. -/
theorem incLE_eq (l : List UInt8) : incLE l = toLE l.length (ofLE l + 1) := by
  induction l with
  | nil => rfl
  | cons b l ih =>
    have hlt := b.toNat_lt
    rw [incLE, List.length_cons, toLE, ofLE]
    split
    · rename_i hb
      have hmax : b.toNat = 255 := by rw [hb]; rfl
      have hlow : UInt8.ofNat (b.toNat + 256 * ofLE l + 1) = 0 := by
        rw [← UInt8.toNat_inj, UInt8.toNat_ofNat']
        show (b.toNat + 256 * ofLE l + 1) % 256 = 0
        omega
      have hhigh : (b.toNat + 256 * ofLE l + 1) / 256 = ofLE l + 1 := by omega
      rw [hlow, hhigh, ih]
    · rename_i hb
      have hmax : b.toNat ≠ 255 := fun heq => hb (UInt8.toNat_inj.1 heq)
      have hlow : UInt8.ofNat (b.toNat + 256 * ofLE l + 1) = b + 1 := by
        rw [← UInt8.toNat_inj, UInt8.toNat_ofNat', UInt8.toNat_add]
        show (b.toNat + 256 * ofLE l + 1) % 256 = (b.toNat + 1) % 256
        omega
      have hhigh : (b.toNat + 256 * ofLE l + 1) / 256 = ofLE l := by omega
      rw [hlow, hhigh, toLE_ofLE]

end Lib.Bytes
