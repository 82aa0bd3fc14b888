import Mathlib.Data.Fintype.Card
import Mathlib.Tactic.IntervalCases
import Rkx.Aes
import Rkx.Lib.Bytes

/-!
# `InvCipher` undoes `Cipher`, and conversely

For an arbitrary round-key array, hence for every key:

* the S-boxes, the row shifts and `addRoundKey` are undone step by step;
* `invMixColumn` and `mixColumn` are additive for the exclusive or (`invMixColumn_xor`,
  `mixColumn_xor`), so their composition is checked on columns with a single nonzero byte
  (`eq_self_of_additive`), and the other composition follows by finiteness;
* `invCipherRounds_undo` and `cipherRounds_undo` carry one round through the two loops.

Principal results: `aesEcbDecrypt_aesEcbEncrypt` and `aesEcbEncrypt_aesEcbDecrypt`.
-/

set_option autoImplicit false

namespace Rkx.Aes

open Function Lib.Bytes

theorem xor_cancel_right (x y : UInt8) : x ^^^ y ^^^ y = x := by
  rw [UInt8.xor_assoc, UInt8.xor_self, UInt8.xor_zero]

theorem xor_cancel_left (x y : UInt8) : x ^^^ (x ^^^ y) = y := by
  rw [← UInt8.xor_assoc, UInt8.xor_self, UInt8.zero_xor]

theorem xor_left_comm (x y z : UInt8) : x ^^^ (y ^^^ z) = y ^^^ (x ^^^ z) := by
  rw [← UInt8.xor_assoc, UInt8.xor_comm x, UInt8.xor_assoc]

/-! ## The byte and row steps -/

theorem getSBoxInvert_getSBoxValue (x : UInt8) : getSBoxInvert (getSBoxValue x) = x :=
  forall_byte (p := fun x => getSBoxInvert (getSBoxValue x) = x) (by decide +kernel) x

theorem getSBoxValue_getSBoxInvert (x : UInt8) : getSBoxValue (getSBoxInvert x) = x :=
  forall_byte (p := fun x => getSBoxValue (getSBoxInvert x) = x) (by decide +kernel) x

theorem State.map_map_eq_self {f g : Word → Word} (h : ∀ w, f (g w) = w) (s : State) :
    (s.map g).map f = s := by
  simp only [State.map, h]

theorem Word.map_map_eq_self {f g : UInt8 → UInt8} (h : ∀ x, f (g x) = x) (w : Word) :
    (w.map g).map f = w := by
  simp only [Word.map, h]

@[simp] theorem invSubBytes_subBytes (s : State) : invSubBytes (subBytes s) = s :=
  State.map_map_eq_self (Word.map_map_eq_self getSBoxInvert_getSBoxValue) s

@[simp] theorem subBytes_invSubBytes (s : State) : subBytes (invSubBytes s) = s :=
  State.map_map_eq_self (Word.map_map_eq_self getSBoxValue_getSBoxInvert) s

@[simp] theorem invShiftRows_shiftRows (s : State) : invShiftRows (shiftRows s) = s := rfl

@[simp] theorem shiftRows_invShiftRows (s : State) : shiftRows (invShiftRows s) = s := rfl

theorem Word.xor_xor_self (v w : Word) : (v.xor w).xor w = v := by
  simp only [Word.xor, xor_cancel_right]

@[simp] theorem addRoundKey_addRoundKey (round : Nat) (s : State) (roundKey : RoundKey) :
    addRoundKey round (addRoundKey round s roundKey) roundKey = s := by
  simp only [addRoundKey, Word.xor_xor_self]

/-! ## The column step -/

theorem shiftRight_seven (x : UInt8) : x >>> 7 = 0 ∨ x >>> 7 = 1 :=
  forall_byte (p := fun x => x >>> 7 = 0 ∨ x >>> 7 = 1) (by decide +kernel) x

theorem xtime_eq (x : UInt8) : xtime x = (x <<< 1) ^^^ (if x >>> 7 = 0 then 0 else 0x1b) :=
  forall_byte (p := fun x => xtime x = (x <<< 1) ^^^ (if x >>> 7 = 0 then 0 else 0x1b))
    (by decide +kernel) x

/-- `xtime` is additive: the reduction by `0x1b` depends on the top bit alone. -/
theorem xtime_xor (x y : UInt8) : xtime (x ^^^ y) = xtime x ^^^ xtime y := by
  have hbit : (if (x ^^^ y) >>> 7 = 0 then 0 else 0x1b : UInt8) =
      (if x >>> 7 = 0 then 0 else 0x1b) ^^^ (if y >>> 7 = 0 then 0 else 0x1b) := by
    rw [UInt8.shiftRight_xor]
    rcases shiftRight_seven x with hx | hx <;> rcases shiftRight_seven y with hy | hy <;>
      rw [hx, hy] <;> decide
  rw [xtime_eq, xtime_eq x, xtime_eq y, hbit, UInt8.shiftLeft_xor]
  ac_rfl

theorem multiply_0e (x : UInt8) :
    multiply x 0x0e = xtime x ^^^ xtime (xtime x) ^^^ xtime (xtime (xtime x)) := by
  have hbits : multiply x 0x0e = (0 * x) ^^^ (1 * xtime x) ^^^ (1 * xtime (xtime x)) ^^^
      (1 * xtime (xtime (xtime x))) ^^^ (0 * xtime (xtime (xtime (xtime x)))) := rfl
  simpa using hbits

theorem multiply_0b (x : UInt8) :
    multiply x 0x0b = x ^^^ xtime x ^^^ xtime (xtime (xtime x)) := by
  have hbits : multiply x 0x0b = (1 * x) ^^^ (1 * xtime x) ^^^ (0 * xtime (xtime x)) ^^^
      (1 * xtime (xtime (xtime x))) ^^^ (0 * xtime (xtime (xtime (xtime x)))) := rfl
  simpa using hbits

theorem multiply_0d (x : UInt8) :
    multiply x 0x0d = x ^^^ xtime (xtime x) ^^^ xtime (xtime (xtime x)) := by
  have hbits : multiply x 0x0d = (1 * x) ^^^ (0 * xtime x) ^^^ (1 * xtime (xtime x)) ^^^
      (1 * xtime (xtime (xtime x))) ^^^ (0 * xtime (xtime (xtime (xtime x)))) := rfl
  simpa using hbits

theorem multiply_09 (x : UInt8) : multiply x 0x09 = x ^^^ xtime (xtime (xtime x)) := by
  have hbits : multiply x 0x09 = (1 * x) ^^^ (0 * xtime x) ^^^ (0 * xtime (xtime x)) ^^^
      (1 * xtime (xtime (xtime x))) ^^^ (0 * xtime (xtime (xtime (xtime x)))) := rfl
  simpa using hbits

theorem mixColumn_xor (v w : Word) : mixColumn (v.xor w) = (mixColumn v).xor (mixColumn w) := by
  simp only [mixColumn, Word.xor, xtime_xor, Word.mk.injEq]
  refine ⟨?_, ?_, ?_, ?_⟩ <;> ac_rfl

theorem invMixColumn_xor (v w : Word) :
    invMixColumn (v.xor w) = (invMixColumn v).xor (invMixColumn w) := by
  simp only [invMixColumn, multiply_0e, multiply_0b, multiply_0d, multiply_09, Word.xor,
    xtime_xor, Word.mk.injEq]
  refine ⟨?_, ?_, ?_, ?_⟩ <;> ac_rfl

/-- An additive column map that fixes the columns with one nonzero byte is the identity. -/
theorem eq_self_of_additive {f : Word → Word} (hf : ∀ v w, f (v.xor w) = (f v).xor (f w))
    (h0 : ∀ x, f ⟨x, 0, 0, 0⟩ = ⟨x, 0, 0, 0⟩) (h1 : ∀ x, f ⟨0, x, 0, 0⟩ = ⟨0, x, 0, 0⟩)
    (h2 : ∀ x, f ⟨0, 0, x, 0⟩ = ⟨0, 0, x, 0⟩) (h3 : ∀ x, f ⟨0, 0, 0, x⟩ = ⟨0, 0, 0, x⟩)
    (w : Word) : f w = w := by
  obtain ⟨a, b, c, d⟩ := w
  have hsum : (⟨a, b, c, d⟩ : Word) =
      (((⟨a, 0, 0, 0⟩ : Word).xor ⟨0, b, 0, 0⟩).xor ⟨0, 0, c, 0⟩).xor ⟨0, 0, 0, d⟩ := by
    simp [Word.xor]
  rw [hsum, hf, hf, hf, h0, h1, h2, h3]

theorem xtime_zero : xtime 0 = 0 := rfl

/-- The two column maps cancel as polynomials in `xtime`, before any reduction is carried out. -/
theorem invMixColumn_mixColumn (w : Word) : invMixColumn (mixColumn w) = w := by
  refine eq_self_of_additive (f := fun w => invMixColumn (mixColumn w))
    (fun v w => by simp only [mixColumn_xor, invMixColumn_xor]) ?_ ?_ ?_ ?_ w <;> intro x <;>
  simp only [mixColumn, invMixColumn, multiply_0e, multiply_0b, multiply_0d, multiply_09,
    xtime_xor, xtime_zero, UInt8.zero_xor, UInt8.xor_zero, UInt8.xor_self, Word.mk.injEq] <;>
  simp only [UInt8.xor_assoc, UInt8.xor_comm, xor_left_comm, UInt8.xor_self, xor_cancel_left,
    UInt8.xor_zero, and_self]

theorem Word.toFin_injective :
    Injective fun w : Word => (w.b0.toFin, w.b1.toFin, w.b2.toFin, w.b3.toFin) := by
  intro v w h
  simp only [Prod.mk.injEq, UInt8.toFin_inj] at h
  obtain ⟨h0, h1, h2, h3⟩ := h
  exact Word.ext h0 h1 h2 h3

instance : Finite Word := Finite.of_injective _ Word.toFin_injective

/-- There are finitely many columns, so `mixColumn` undoes the map that undoes it. -/
theorem mixColumn_invMixColumn (w : Word) : mixColumn (invMixColumn w) = w := by
  have hleft : LeftInverse invMixColumn mixColumn := invMixColumn_mixColumn
  have hsurj : Surjective mixColumn := Finite.injective_iff_surjective.1 hleft.injective
  exact hleft.rightInverse_of_surjective hsurj w

@[simp] theorem invMixColumns_mixColumns (s : State) : invMixColumns (mixColumns s) = s :=
  State.map_map_eq_self invMixColumn_mixColumn s

@[simp] theorem mixColumns_invMixColumns (s : State) : mixColumns (invMixColumns s) = s :=
  State.map_map_eq_self mixColumn_invMixColumn s

/-! ## The rounds -/

variable (roundKey : RoundKey)

/-- `n` rounds of `Cipher` from `round + 1` on, then as many of `InvCipher`: what is left for
    `InvCipher` to undo is the row and byte step before them. -/
theorem invCipherRounds_undo : ∀ (n round : Nat) (s : State),
    invCipherRounds roundKey (round + n) (cipherRounds roundKey n (round + 1) s) =
      invCipherRounds roundKey round (shiftRows (subBytes s))
  | 0, _, _ => rfl
  | n + 1, round, s => by
    rw [cipherRounds, show round + (n + 1) = round + 1 + n by omega, invCipherRounds_undo n]
    simp only [invCipherRounds, invShiftRows_shiftRows, invSubBytes_subBytes,
      addRoundKey_addRoundKey, invMixColumns_mixColumns]

/-- The same for the rounds of `InvCipher` down from `round`, followed by those of `Cipher`. -/
theorem cipherRounds_undo : ∀ (round n : Nat) (s : State),
    cipherRounds roundKey (round + n) 1 (addRoundKey 0 (invCipherRounds roundKey round s) roundKey) =
      cipherRounds roundKey n (round + 1) (invSubBytes (invShiftRows s))
  | 0, n, s => by rw [invCipherRounds, addRoundKey_addRoundKey, Nat.zero_add]
  | round + 1, n, s => by
    rw [invCipherRounds, show round + 1 + n = round + (n + 1) by omega, cipherRounds_undo round]
    simp only [cipherRounds, subBytes_invSubBytes, shiftRows_invShiftRows,
      mixColumns_invMixColumns, addRoundKey_addRoundKey]

theorem invCipher_cipher (s : State) : invCipher (cipher s roundKey) roundKey = s := by
  unfold invCipher cipher
  have h := invCipherRounds_undo roundKey (Nr - 1) 0 (addRoundKey 0 s roundKey)
  rw [Nat.zero_add] at h
  rw [addRoundKey_addRoundKey, h]
  simp only [invCipherRounds, invShiftRows_shiftRows, invSubBytes_subBytes, addRoundKey_addRoundKey]

theorem cipher_invCipher (s : State) : cipher (invCipher s roundKey) roundKey = s := by
  unfold invCipher cipher
  have h := cipherRounds_undo roundKey (Nr - 1) 0 (addRoundKey Nr s roundKey)
  rw [Nat.add_zero] at h
  rw [h]
  simp only [cipherRounds, subBytes_invSubBytes, shiftRows_invShiftRows, addRoundKey_addRoundKey]

/-! ## The public functions -/

@[simp] theorem State.load_store (s : State) : State.load s.store = s := rfl

@[simp] theorem State.store_load (b : Block) : (State.load b).store = b := by
  apply Vector.ext
  intro i hi
  interval_cases i <;> rfl

/-- **Decryption undoes encryption**, on every block and for every key. -/
theorem aesEcbDecrypt_aesEcbEncrypt (ctx : Ctx) (buf : Block) :
    aesEcbDecrypt ctx (aesEcbEncrypt ctx buf) = buf := by
  simp only [aesEcbDecrypt, aesEcbEncrypt, State.load_store, invCipher_cipher, State.store_load]

/-- **Encryption undoes decryption**, on every block and for every key. -/
theorem aesEcbEncrypt_aesEcbDecrypt (ctx : Ctx) (buf : Block) :
    aesEcbEncrypt ctx (aesEcbDecrypt ctx buf) = buf := by
  simp only [aesEcbDecrypt, aesEcbEncrypt, State.load_store, cipher_invCipher, State.store_load]

theorem aesEcbEncrypt_injective (ctx : Ctx) : Function.Injective (aesEcbEncrypt ctx) :=
  Function.LeftInverse.injective (aesEcbDecrypt_aesEcbEncrypt ctx)

end Rkx.Aes
