import Rkx.File

/-!
# The in-place block loop

`cryptLoop` reads and writes one file through one cursor.  The file is kept as
`p ++ rest` with the cursor behind `p`: `p` is written already, `rest` not read yet.

* `cryptLoop_full`: while every transfer is full, the loop maps `cipherBlock f` over the blocks of
  `rest`;
* `getElem?_cryptLoop_lt`: whatever the transfers do, bytes before the current block stay;
* `cryptLoop_untouched`: writes that store nothing leave the file as it is;
* `cryptFile_full`: `encryptFile` and `decryptFile` are block maps when all calls succeed.
-/

set_option autoImplicit false

namespace Rkx

open Aes Lib.Blocks Lib.Stdio

/-- What the loop writes for a block of which these bytes were read. -/
def cipherBlock (f : Block → Block) (bytesRead : List UInt8) : List UInt8 :=
  (f (fillBlock bytesRead)).toList

@[simp] theorem length_cipherBlock (f : Block → Block) (b : List UInt8) :
    (cipherBlock f b).length = 16 := by
  simp [cipherBlock]

theorem fillBlock_toList {b : List UInt8} (h : b.length ≤ 16) :
    (fillBlock b).toList = b ++ List.replicate (16 - b.length) (UInt8.ofNat (16 - b.length)) := by
  simp only [fillBlock, Vector.toList_mk, List.take_of_length_le h]

theorem fillBlock_of_length {b : List UInt8} (h : b.length = 16) : (fillBlock b).toList = b := by
  rw [fillBlock_toList (by omega), h, Nat.sub_self, List.replicate_zero, List.append_nil]

theorem fillBlock_vector (b : Block) : fillBlock b.toList = b :=
  Vector.toList_inj.1 (fillBlock_of_length (by simp))

variable {f : Block → Block} {e : BlockCalls}

/-- One turn of the loop: the bytes read, the file after the write. -/
theorem cryptLoop_succ (n block : Nat) (fp : File) :
    cryptLoop f e (n + 1) block fp =
      cryptLoop f e n (block + 1)
        ⟨overwrite fp.data (block * 16)
          ((cipherBlock f (fp.fread 16 (e.fread block)).1).take (e.fwrite block)),
         block * 16 + min (e.fwrite block) 16⟩ := by
  simp [cryptLoop, File.fwrite, cipherBlock, AES_BLOCK_SIZE]

/-- The transfers of block `i` of `n` bytes are full. -/
def BlockCalls.FullAt (e : BlockCalls) (n i : Nat) : Prop :=
  min 16 (n - i * 16) ≤ e.fread i ∧ 16 ≤ e.fwrite i

theorem BlockCalls.full_fullAt (n i : Nat) : BlockCalls.full.FullAt n i := by
  simp [BlockCalls.FullAt, BlockCalls.full, AES_BLOCK_SIZE]

section FullTurn

variable {block : Nat} {p rest : List UInt8}

theorem length_append_cipherBlock (hp : p.length = block * 16) :
    (p ++ cipherBlock f (rest.take 16)).length = (block + 1) * 16 := by
  rw [List.length_append, length_cipherBlock, hp, Nat.add_mul, Nat.one_mul]

/-- A full read takes the next block. -/
theorem take_fread_of_full (hp : p.length = block * 16) (h : e.FullAt (p.length + rest.length) block) :
    rest.take (min 16 (e.fread block)) = rest.take 16 := by
  obtain ⟨hr, -⟩ := h
  rw [List.take_eq_take_iff]
  omega

/-- **A full turn** leaves the block it has written at the end of the prefix, and the cursor behind it. -/
theorem turn_of_full (hp : p.length = block * 16) (h : e.FullAt (p.length + rest.length) block) :
    (⟨overwrite (p ++ rest) (block * 16) ((cipherBlock f (rest.take 16)).take (e.fwrite block)),
        block * 16 + min (e.fwrite block) 16⟩ : File) =
      ⟨(p ++ cipherBlock f (rest.take 16)) ++ rest.drop 16, (p ++ cipherBlock f (rest.take 16)).length⟩ := by
  obtain ⟨-, hw⟩ := h
  have hdata : overwrite (p ++ rest) (block * 16) ((cipherBlock f (rest.take 16)).take (e.fwrite block)) =
      (p ++ cipherBlock f (rest.take 16)) ++ rest.drop 16 := by
    rw [List.take_of_length_le (by rw [length_cipherBlock]; exact hw), ← hp, overwrite_append,
      length_cipherBlock]
  rw [hdata, length_append_cipherBlock hp, Nat.min_eq_right hw, Nat.add_mul, Nat.one_mul]

/-- The blocks behind are the same ones of the same file. -/
theorem fullAt_succ_iff (hp : p.length = block * 16) {i : Nat} (hi : block + 1 ≤ i) :
    e.FullAt ((p ++ cipherBlock f (rest.take 16)).length + (rest.drop 16).length) i ↔
      e.FullAt (p.length + rest.length) i := by
  unfold BlockCalls.FullAt
  rw [length_append_cipherBlock hp, List.length_drop, hp]
  omega

end FullTurn

/-- **Full transfers map the blocks in place.** -/
theorem cryptLoop_full : ∀ (n block : Nat) (p rest : List UInt8), p.length = block * 16 →
    (∀ i, block ≤ i → i < block + n → e.FullAt (p.length + rest.length) i) →
    cryptLoop f e n block ⟨p ++ rest, p.length⟩ =
      ⟨p ++ mapBlocks 16 (cipherBlock f) n rest, (block + n) * 16⟩
  | 0, block, p, rest, hp, _ => by simp [cryptLoop, mapBlocks, hp]
  | n + 1, block, p, rest, hp, hfulls => by
    have hfull := hfulls block (Nat.le_refl _) (by omega)
    have hread : ((⟨p ++ rest, p.length⟩ : File).fread 16 (e.fread block)).1 = rest.take 16 := by
      simp only [File.fread, List.drop_left]
      exact take_fread_of_full hp hfull
    rw [cryptLoop_succ, hread, turn_of_full hp hfull,
      cryptLoop_full n (block + 1) _ _ (length_append_cipherBlock hp)]
    · rw [mapBlocks, List.append_assoc, Nat.add_assoc, Nat.add_comm 1 n]
    · intro i h1 h2
      exact (fullAt_succ_iff hp h1).2 (hfulls i (by omega) (by omega))

/-- Bytes before the current block are final, whatever the transfers do. -/
theorem getElem?_cryptLoop_lt : ∀ (n block : Nat) (fp : File) {i : Nat},
    (block + n) * 16 ≤ fp.data.length + 16 → i < block * 16 →
    (cryptLoop f e n block fp).data[i]? = fp.data[i]?
  | 0, _, _, _, _, _ => rfl
  | n + 1, block, fp, i, hlen, hi => by
    have hoff : block * 16 ≤ fp.data.length := by omega
    have hge := length_overwrite_ge fp.data
      ((cipherBlock f (fp.fread 16 (e.fread block)).1).take (e.fwrite block)) hoff
    rw [cryptLoop_succ, getElem?_cryptLoop_lt n (block + 1) _ (by simp only; omega) (by omega),
      getElem?_overwrite_lt hoff hi]

theorem cryptLoop_add : ∀ (a b block : Nat) (fp : File),
    cryptLoop f e (a + b) block fp = cryptLoop f e b (block + a) (cryptLoop f e a block fp)
  | 0, b, block, fp => by rw [Nat.zero_add, Nat.add_zero, cryptLoop]
  | a + 1, b, block, fp => by
    rw [show a + 1 + b = a + b + 1 by omega, cryptLoop_succ, cryptLoop_succ, cryptLoop_add a b,
      show block + 1 + a = block + (a + 1) by omega]

/-- While no write stores a byte the file keeps its bytes. -/
theorem cryptLoop_untouched : ∀ (n block : Nat) (fp : File),
    (block + n) * 16 ≤ fp.data.length + 16 → (∀ i, block ≤ i → i < block + n → e.fwrite i = 0) →
    (cryptLoop f e n block fp).data = fp.data
  | 0, _, _, _, _ => rfl
  | n + 1, block, fp, hlen, hfulls => by
    have hdata : overwrite fp.data (block * 16)
        ((cipherBlock f (fp.fread 16 (e.fread block)).1).take (e.fwrite block)) = fp.data := by
      rw [hfulls block (Nat.le_refl _) (by omega), List.take_zero, overwrite_nil (by omega)]
    rw [cryptLoop_succ, hdata,
      cryptLoop_untouched n (block + 1) _ (by simp only; omega)
        (fun i h1 h2 => hfulls i (by omega) (by omega))]

/-- **The shared loop over a whole file.** -/
theorem cryptFile_full (g : Ctx → Block → Block) (content : List UInt8) (key : Key) :
    cryptFile g true BlockCalls.full content key =
      (0, mapBlocks 16 (cipherBlock (g (aesInitCtx key))) (numBlocks 16 content.length) content) := by
  have h := cryptLoop_full (f := g (aesInitCtx key)) (e := BlockCalls.full)
    (numBlocks 16 content.length) 0 [] content rfl (fun i _ _ => BlockCalls.full_fullAt _ i)
  simp only [List.nil_append, List.length_nil] at h
  simp only [cryptFile, if_true, AES_BLOCK_SIZE, File.opened]
  rw [show (content.length + 16 - 1) / 16 = numBlocks 16 content.length from rfl, h]

end Rkx
