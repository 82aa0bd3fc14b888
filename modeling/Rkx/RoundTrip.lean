import Rkx.AesInverse
import Rkx.FileLoop

/-!
# Encryption followed by decryption

With every library call succeeding, `encryptFile` and `decryptFile` are block maps
(`cryptFile_full`) of two inverse functions on blocks, so the pair has the effect of the fill of
the last block alone:

* `decrypted_encrypted`, `encrypted_decrypted`: a cycle leaves `padded x`;
* `encrypt_decrypt_cycle`: the exact effect of the pair, in both orders;
* `round_trip_iff`: the file comes back exactly when its length is a multiple of 16;
* `encrypted_ne_iff`: the pairs of contents that encryption tells apart.
-/

set_option autoImplicit false

namespace Rkx

open Aes Lib.Blocks

/-- What `encrypt_file` leaves of a content when all calls succeed. -/
def encrypted (key : Key) (x : List UInt8) : List UInt8 := (encryptFile true BlockCalls.full x key).2

/-- What `decrypt_file` leaves of a content when all calls succeed. -/
def decrypted (key : Key) (x : List UInt8) : List UInt8 := (decryptFile true BlockCalls.full x key).2

/-- A content followed by `p` bytes `p`, `p = (16 - n mod 16) mod 16`. -/
def padded (x : List UInt8) : List UInt8 :=
  let p := (16 - x.length % 16) % 16
  x ++ List.replicate p (UInt8.ofNat p)

theorem length_padded (x : List UInt8) : (padded x).length = 16 * ((x.length + 15) / 16) := by
  simp only [padded, List.length_append, List.length_replicate]
  omega

theorem padded_eq_self_iff (x : List UInt8) : padded x = x ↔ x.length % 16 = 0 := by
  constructor
  · intro h
    have hlen := congrArg List.length h
    rw [length_padded] at hlen
    omega
  · intro h
    simp [padded, h]

theorem padded_padded (x : List UInt8) : padded (padded x) = padded x := by
  rw [padded_eq_self_iff, length_padded]
  omega

/-- Filling every block as the loop does appends to the content the fill of its last block. -/
theorem mapBlocks_fillBlock (x : List UInt8) :
    mapBlocks 16 (fun b => (fillBlock b).toList) (numBlocks 16 x.length) x = padded x := by
  rw [mapBlocks_completed (t := fun r => List.replicate (16 - r) (UInt8.ofNat (16 - r)))
    (by omega) (fun b hb => fillBlock_of_length hb) (fun b hb _ => fillBlock_toList (by omega)) _ x rfl]
  unfold padded
  by_cases h : x.length % 16 = 0
  · rw [if_pos h, h]
    simp
  · rw [if_neg h, Nat.mod_eq_of_lt (by omega : 16 - x.length % 16 < 16)]

/-- Two passes of the loop with functions that cancel on blocks. -/
theorem mapBlocks_cipherBlock_cancel {f g : Block → Block} (h : ∀ b, g (f b) = b) (x : List UInt8) :
    mapBlocks 16 (cipherBlock g) (numBlocks 16 (mapBlocks 16 (cipherBlock f)
        (numBlocks 16 x.length) x).length)
      (mapBlocks 16 (cipherBlock f) (numBlocks 16 x.length) x) = padded x := by
  have hcancel : (fun b => cipherBlock g (cipherBlock f b)) = fun b => (fillBlock b).toList := by
    funext b
    unfold cipherBlock
    rw [fillBlock_vector, h]
  rw [length_mapBlocks (length_cipherBlock f) (le_numBlocks_mul (by omega) _),
    numBlocks_mul (by omega), mapBlocks_mapBlocks (length_cipherBlock f), hcancel,
    mapBlocks_fillBlock]

theorem encrypted_eq (key : Key) (x : List UInt8) :
    encrypted key x =
      mapBlocks 16 (cipherBlock (aesEcbEncrypt (aesInitCtx key))) (numBlocks 16 x.length) x := by
  simp only [encrypted, encryptFile, cryptFile_full]

theorem decrypted_eq (key : Key) (x : List UInt8) :
    decrypted key x =
      mapBlocks 16 (cipherBlock (aesEcbDecrypt (aesInitCtx key))) (numBlocks 16 x.length) x := by
  simp only [decrypted, decryptFile, cryptFile_full]

theorem decrypted_encrypted (key : Key) (x : List UInt8) :
    decrypted key (encrypted key x) = padded x := by
  rw [decrypted_eq, encrypted_eq]
  exact mapBlocks_cipherBlock_cancel (aesEcbDecrypt_aesEcbEncrypt _) x

theorem encrypted_decrypted (key : Key) (x : List UInt8) :
    encrypted key (decrypted key x) = padded x := by
  rw [encrypted_eq, decrypted_eq]
  exact mapBlocks_cipherBlock_cancel (aesEcbEncrypt_aesEcbDecrypt _) x

/-- Encryption sees a content only through its padded form. -/
theorem encrypted_padded (key : Key) (x : List UInt8) : encrypted key (padded x) = encrypted key x := by
  have hcancel : (fun b => cipherBlock (aesEcbEncrypt (aesInitCtx key)) (fillBlock b).toList) =
      cipherBlock (aesEcbEncrypt (aesInitCtx key)) := by
    funext b
    unfold cipherBlock
    rw [fillBlock_vector]
  have hblocks : numBlocks 16 (padded x).length = numBlocks 16 x.length := by
    rw [length_padded]
    unfold numBlocks
    omega
  rw [encrypted_eq, encrypted_eq, hblocks, ← mapBlocks_fillBlock, mapBlocks_mapBlocks (by simp),
    hcancel]

theorem encrypted_eq_iff (key : Key) (x y : List UInt8) :
    encrypted key x = encrypted key y ↔ padded x = padded y := by
  constructor
  · intro h
    rw [← decrypted_encrypted key x, h, decrypted_encrypted]
  · intro h
    rw [← encrypted_padded key x, h, encrypted_padded]

/-- Different contents with one padded form: one of them is that form. -/
theorem padded_eq_padded_iff (x y : List UInt8) :
    padded x = padded y ↔ x = y ∨ x = padded y ∨ y = padded x := by
  constructor
  · intro h
    by_cases hx : x.length % 16 = 0
    · exact Or.inr (Or.inl (((padded_eq_self_iff x).2 hx).symm.trans h))
    · by_cases hy : y.length % 16 = 0
      · exact Or.inr (Or.inr (((padded_eq_self_iff y).2 hy).symm.trans h.symm))
      · -- both are filled: the last byte tells how much to take off again
        have hlast : ∀ z : List UInt8, z.length % 16 ≠ 0 →
            (padded z).getLast? = some (UInt8.ofNat (16 - z.length % 16)) := by
          intro z hz
          have hp : (16 - z.length % 16) % 16 = 16 - z.length % 16 := Nat.mod_eq_of_lt (by omega)
          have hne : (List.replicate (16 - z.length % 16) (UInt8.ofNat (16 - z.length % 16))) ≠ [] := by
            rw [Ne, List.replicate_eq_nil_iff]
            omega
          simp only [padded, hp]
          rw [List.getLast?_append_of_ne_nil _ hne, List.getLast?_replicate, if_neg (by omega)]
        have heq := (hlast x hx).symm.trans ((congrArg _ h).trans (hlast y hy))
        have hpad : 16 - x.length % 16 = 16 - y.length % 16 := by
          have := congrArg UInt8.toNat (Option.some.inj heq)
          rw [UInt8.toNat_ofNat', UInt8.toNat_ofNat'] at this
          omega
        have hlen := congrArg List.length h
        rw [length_padded, length_padded] at hlen
        exact Or.inl (List.append_inj h (by omega)).1
  · rintro (rfl | h | h)
    · rfl
    · rw [h, padded_padded]
    · rw [h, padded_padded]

/-! ## Results -/

/-- **Exact effect of the cipher pair**, in both orders, and of a second cycle. -/
theorem encrypt_decrypt_cycle (key : Key) (x : List UInt8) :
    decrypted key (encrypted key x) = padded x ∧ encrypted key (decrypted key x) = padded x ∧
      (padded x).length = 16 * ((x.length + 15) / 16) ∧ x <+: padded x ∧
      decrypted key (encrypted key (padded x)) = padded x ∧
      encrypted key (decrypted key (padded x)) = padded x := by
  refine ⟨decrypted_encrypted key x, encrypted_decrypted key x, length_padded x,
    List.prefix_append _ _, ?_, ?_⟩
  · rw [decrypted_encrypted, padded_padded]
  · rw [encrypted_decrypted, padded_padded]

/-- **Round trip**: the file comes back exactly when no block had to be filled. -/
theorem round_trip_iff (key : Key) (x : List UInt8) :
    decrypted key (encrypted key x) = x ↔ x.length % 16 = 0 := by
  rw [decrypted_encrypted, padded_eq_self_iff]

/-- A file of one byte comes back with fifteen bytes more. -/
theorem round_trip_one_byte :
    [65].length ≤ MAXFILESIZE ∧
      decrypted (Vector.replicate 16 0) (encrypted (Vector.replicate 16 0) [65]) ≠ [65] := by
  refine ⟨by decide, ?_⟩
  rw [decrypted_encrypted]
  decide

/-- **Which contents encryption tells apart**: two different contents, unless one of them is the
    other one filled up to whole blocks. -/
theorem encrypted_ne_iff (key : Key) (x y : List UInt8) :
    (x ≠ y → encrypted key x ≠ encrypted key y) ↔ ¬ (x ≠ y ∧ (x = padded y ∨ y = padded x)) := by
  rw [Ne, Ne, encrypted_eq_iff, padded_eq_padded_iff]
  tauto

/-- Fifteen bytes, and the same fifteen followed by the byte `1`. -/
theorem encrypted_collision :
    List.replicate 15 65 ≠ List.replicate 15 65 ++ [1] ∧
      encrypted (Vector.replicate 16 0) (List.replicate 15 65) =
        encrypted (Vector.replicate 16 0) (List.replicate 15 65 ++ [1]) := by
  refine ⟨by decide, ?_⟩
  rw [encrypted_eq_iff]
  decide

end Rkx
