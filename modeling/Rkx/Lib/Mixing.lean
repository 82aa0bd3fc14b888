import Mathlib.Logic.Function.Basic
import Mathlib.Tactic.ByContra

/-!
# Operations on words that can be undone

* `rotateLeft_injective`, `xorShift_injective`: on words of any width;
* `foldl_ne`: steps that can be undone keep a difference.
-/

set_option autoImplicit false

namespace Lib.Mixing

open Function

variable {w : Nat}

theorem rotateRight_rotateLeft {r : Nat} (hr : r < w) (x : BitVec w) : (x.rotateLeft r).rotateRight r = x := by
  apply BitVec.eq_of_getLsbD_eq
  intro i hi
  rw [BitVec.getLsbD_rotateRight_of_lt hr, BitVec.getLsbD_rotateLeft_of_le hr, BitVec.getLsbD_rotateLeft_of_le hr]
  by_cases h : i < w - r
  · simp [h, show ¬ r + i < r by omega, show r + i < w by omega]
  · simp [h, hi, show i - (w - r) < r by omega, show w - r + (i - (w - r)) = i by omega]

theorem rotateLeft_injective {r : Nat} (hr : r < w) : Injective fun x : BitVec w => x.rotateLeft r := by
  have hback : LeftInverse (fun y : BitVec w => y.rotateRight r) fun x => x.rotateLeft r := rotateRight_rotateLeft hr
  exact hback.injective

/-- The difference of two words with the same image is its own shift. -/
theorem xorShift_injective {k : Nat} (hk : 0 < k) : Injective fun x : BitVec w => x ^^^ (x >>> k) := by
  intro x y h
  simp only at h
  have hshift : x ^^^ y = (x ^^^ y) >>> k := by
    rw [BitVec.ushiftRight_xor_distrib]
    have hcancel : ∀ a b : BitVec w, a ^^^ b ^^^ b = a := fun a b => by
      rw [BitVec.xor_assoc, BitVec.xor_self, BitVec.xor_zero]
    calc x ^^^ y = x ^^^ (x >>> k) ^^^ (x >>> k) ^^^ y := by rw [hcancel]
      _ = y ^^^ (y >>> k) ^^^ (x >>> k) ^^^ y := by rw [h]
      _ = (x >>> k) ^^^ (y >>> k) ^^^ y ^^^ y := by ac_rfl
      _ = (x >>> k) ^^^ (y >>> k) := hcancel _ _
  have hzero : (x ^^^ y).toNat = 0 := by
    have hnat := congrArg BitVec.toNat hshift
    rw [BitVec.toNat_ushiftRight, Nat.shiftRight_eq_div_pow] at hnat
    by_contra hne
    have hlt := Nat.div_lt_self (Nat.pos_of_ne_zero hne) (Nat.one_lt_two_pow (by omega : k ≠ 0))
    omega
  exact BitVec.xor_eq_zero_iff.1 (BitVec.eq_of_toNat_eq (by simpa using hzero))

/-- **Steps that can be undone** keep the difference that one element makes. -/
theorem foldl_ne {σ α : Type*} {f : σ → α → σ} (hf : ∀ a, Injective fun s => f s a) {a a' : α}
    (ha : ∀ s, f s a ≠ f s a') (s : σ) (l l' : List α) :
    (l ++ a :: l').foldl f s ≠ (l ++ a' :: l').foldl f s := by
  rw [List.foldl_append, List.foldl_append, List.foldl_cons, List.foldl_cons]
  intro h
  have hback : ∀ (l : List α) s s', l.foldl f s = l.foldl f s' → s = s' := by
    intro l
    induction l with
    | nil => exact fun _ _ h => h
    | cons b l ih => exact fun s s' h => hf b (ih _ _ h)
  exact ha _ (hback l' _ _ h)

end Lib.Mixing
