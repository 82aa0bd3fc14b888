import Rkx.Atomic

/-!
# What the block loop reads and writes

`encrypt_file` and `decrypt_file` read and write one file through one cursor.  Each turn of their
loop is recorded: where it read what, and where it stored what.

* `cryptLoopTurns`, `cryptFileTurns`: the loop with its record, `cryptFileTurns_fst`;
* `chunk`, `filledChunk`, `idealTurns`: the block map that the loop is meant to be, on the content
  before the loop;
* `cryptLoopTurns_ideal_iff`: the record is that of the block map exactly while every transfer is
  full;
* `crypt_refines_blockMap`: with full transfers the two functions are block maps;
* `success_means_all_iff`: when the return code 0 tells that every block was transformed.
-/

set_option autoImplicit false

namespace Rkx

open Aes Lib.Blocks Lib.Stdio

/-! ## The loop with its record -/

/-- One turn: the bytes that were read and those that were stored behind it, each with its offset. -/
structure BlockTurn where
  readAt : Nat
  got : List UInt8
  writtenAt : Nat
  put : List UInt8
  deriving DecidableEq

/-- `cryptLoop` and the turns it makes. -/
def cryptLoopTurns (f : Block → Block) (io : BlockCalls) : Nat → Nat → File → File × List BlockTurn
  | 0, _, fp => (fp, [])
  | n + 1, block, fp =>
    let readAt := fp.pos
    let (bytesRead, fp) := fp.fread AES_BLOCK_SIZE (io.fread block)
    let buffer := f (fillBlock bytesRead)
    let fp := fp.fseek (block * AES_BLOCK_SIZE)
    let turn : BlockTurn := ⟨readAt, bytesRead, fp.pos, buffer.toList.take (io.fwrite block)⟩
    let fp := fp.fwrite buffer.toList (io.fwrite block)
    let (fp, turns) := cryptLoopTurns f io n (block + 1) fp
    (fp, turn :: turns)

/-- `cryptFile` and the turns of its loop. -/
def cryptFileTurns (f : Ctx → Block → Block) (fopen : Bool) (io : BlockCalls)
    (content : List UInt8) (key : Key) : (Int × List UInt8) × List BlockTurn :=
  if fopen then
    let fileSize := content.length
    let numBlocks := (fileSize + AES_BLOCK_SIZE - 1) / AES_BLOCK_SIZE
    let (fp, turns) := cryptLoopTurns (f (aesInitCtx key)) io numBlocks 0 (File.opened content)
    ((0, fp.data), turns)
  else ((-1, content), [])

variable {f : Block → Block} {e : BlockCalls}

theorem cryptLoopTurns_fst (n block : Nat) (fp : File) :
    (cryptLoopTurns f e n block fp).1 = cryptLoop f e n block fp := by
  induction n generalizing block fp with
  | zero => rfl
  | succ n ih => exact ih _ _

/-- **The record is of the loop**: without it `cryptFileTurns` is `cryptFile`. -/
theorem cryptFileTurns_fst (g : Ctx → Block → Block) (fopen : Bool) (io : BlockCalls)
    (content : List UInt8) (key : Key) :
    (cryptFileTurns g fopen io content key).1 = cryptFile g fopen io content key := by
  cases fopen with
  | false => rfl
  | true =>
    have hloop := cryptLoopTurns_fst (f := g (aesInitCtx key)) (e := io)
      ((content.length + AES_BLOCK_SIZE - 1) / AES_BLOCK_SIZE) 0 (File.opened content)
    simp only [cryptFileTurns, cryptFile, if_true, ← hloop]

/-! ## The block map -/

/-- The `i`-th chunk of sixteen bytes of a content, the last of which may be short. -/
def chunk (content : List UInt8) (i : Nat) : List UInt8 := (content.drop (i * 16)).take 16

theorem length_chunk (content : List UInt8) (i : Nat) :
    (chunk content i).length = min 16 (content.length - i * 16) := by
  rw [chunk, List.length_take, List.length_drop]

/-- The chunk as a block: one of `r` bytes is followed by `16 - r` bytes `16 - r`. -/
def filledChunk (content : List UInt8) (i : Nat) : Block :=
  let r := (chunk content i).length
  ⟨(chunk content i ++ List.replicate (16 - r) (UInt8.ofNat (16 - r))).toArray, by
    have hr : (chunk content i).length ≤ 16 := by rw [length_chunk]; exact Nat.min_le_left _ _
    simp only [List.size_toArray, List.length_append, List.length_replicate]
    omega⟩

theorem fillBlock_chunk (content : List UInt8) (i : Nat) :
    fillBlock (chunk content i) = filledChunk content i := by
  apply Vector.toList_inj.1
  rw [fillBlock_toList (by rw [length_chunk]; exact Nat.min_le_left _ _)]
  rfl

/-- The turn that transforms block `i` of the content. -/
def idealTurn (f : Block → Block) (content : List UInt8) (i : Nat) : BlockTurn :=
  ⟨i * 16, chunk content i, i * 16, (f (filledChunk content i)).toList⟩

/-- One turn for each block, in order. -/
def idealTurns (f : Block → Block) (content : List UInt8) : List BlockTurn :=
  (List.range ((content.length + 15) / 16)).map (idealTurn f content)

/-- The images of the filled chunks in a row. -/
def blockMap (f : Block → Block) (content : List UInt8) : List UInt8 :=
  (List.range ((content.length + 15) / 16)).flatMap fun i => (f (filledChunk content i)).toList

theorem mapBlocks_eq_blockMap (content : List UInt8) :
    mapBlocks 16 (cipherBlock f) (numBlocks 16 content.length) content = blockMap f content := by
  have hcover := le_numBlocks_mul (B := 16) (by omega) content.length
  have hblock : ∀ i, cipherBlock f ((content.drop (i * 16)).take 16) =
      (f (filledChunk content i)).toList := by
    intro i
    rw [← fillBlock_chunk]
    rfl
  rw [mapBlocks_eq_flatMap, List.drop_of_length_le hcover, List.append_nil]
  simp only [hblock]
  rfl

/-! ## When the record is that of the block map -/

/-- The first turn of the loop behind the bytes `p`. -/
theorem cryptLoopTurns_succ_snd (n block : Nat) (p rest : List UInt8) (hp : p.length = block * 16) :
    (cryptLoopTurns f e (n + 1) block ⟨p ++ rest, p.length⟩).2 =
      ⟨block * 16, rest.take (min 16 (e.fread block)), block * 16,
        (cipherBlock f (rest.take (min 16 (e.fread block)))).take (e.fwrite block)⟩ ::
      (cryptLoopTurns f e n (block + 1)
        ⟨overwrite (p ++ rest) (block * 16)
          ((cipherBlock f (rest.take (min 16 (e.fread block)))).take (e.fwrite block)),
        block * 16 + min (e.fwrite block) 16⟩).2 := by
  have hread : ((⟨p ++ rest, p.length⟩ : File).fread 16 (e.fread block)).1 =
      rest.take (min 16 (e.fread block)) := by
    simp only [File.fread, List.drop_left]
  rw [hp] at hread
  simp [cryptLoopTurns, File.fwrite, cipherBlock, AES_BLOCK_SIZE, hread, hp]

/-- A turn is the ideal one exactly if both its transfers are full. -/
theorem turn_eq_iff {n block : Nat} {rest : List UInt8} (hn : n = block * 16 + rest.length)
    (off : Nat) :
    (⟨off, rest.take (min 16 (e.fread block)), off,
        (cipherBlock f (rest.take (min 16 (e.fread block)))).take (e.fwrite block)⟩ : BlockTurn) =
      ⟨off, rest.take 16, off, cipherBlock f (rest.take 16)⟩ ↔ e.FullAt n block := by
  have hgot : rest.take (min 16 (e.fread block)) = rest.take 16 ↔
      min 16 (n - block * 16) ≤ e.fread block := by
    rw [List.take_eq_take_iff, hn]
    omega
  rw [BlockTurn.mk.injEq, hgot, BlockCalls.FullAt]
  constructor
  · rintro ⟨-, hr, -, hput⟩
    refine ⟨hr, ?_⟩
    have hlen := congrArg List.length hput
    rw [List.length_take, length_cipherBlock, length_cipherBlock] at hlen
    omega
  · rintro ⟨hr, hw⟩
    refine ⟨rfl, hr, rfl, ?_⟩
    rw [hgot.2 hr, List.take_of_length_le (by rwa [length_cipherBlock])]

/-- A statement about `n + 1` numbers in a row is one about the first and the others. -/
theorem forall_row_succ_iff {P : Nat → Prop} {k n : Nat} :
    (∀ i, k ≤ i → i < k + (n + 1) → P i) ↔ P k ∧ ∀ i, k + 1 ≤ i → i < k + 1 + n → P i := by
  constructor
  · intro h
    exact ⟨h k (Nat.le_refl _) (by omega), fun i h1 h2 => h i (by omega) (by omega)⟩
  · rintro ⟨h0, h⟩ i h1 h2
    rcases Nat.eq_or_lt_of_le h1 with rfl | hlt
    · exact h0
    · exact h i hlt (by omega)

/-- **The record of the loop** behind the bytes `p` is that of the block map on what follows them,
    exactly if every transfer is full. -/
theorem cryptLoopTurns_ideal_iff (n block : Nat) (p rest : List UInt8) (hp : p.length = block * 16) :
    (cryptLoopTurns f e n block ⟨p ++ rest, p.length⟩).2 =
        (List.range n).map (fun i => ⟨(block + i) * 16, (rest.drop (i * 16)).take 16,
          (block + i) * 16, cipherBlock f ((rest.drop (i * 16)).take 16)⟩) ↔
      ∀ i, block ≤ i → i < block + n → e.FullAt (p.length + rest.length) i := by
  induction n generalizing block p rest with
  | zero =>
    refine iff_of_true rfl ?_
    intro i h1 h2
    omega
  | succ n ih =>
    have hshift : ∀ i, (block + (i + 1)) * 16 = (block + 1 + i) * 16 ∧
        (i + 1) * 16 = 16 + i * 16 := by
      intro i
      omega
    rw [cryptLoopTurns_succ_snd n block p rest hp, List.range_succ_eq_map, List.map_cons,
      List.map_map, List.cons_eq_cons]
    simp only [Nat.add_zero, Nat.zero_mul, List.drop_zero, Function.comp_def, Nat.succ_eq_add_one,
      hshift, ← List.drop_drop]
    rw [turn_eq_iff (show p.length + rest.length = block * 16 + rest.length by rw [hp]), forall_row_succ_iff]
    refine and_congr_right fun hfull => ?_
    -- the block just written joins the prefix
    rw [take_fread_of_full hp hfull, turn_of_full hp hfull, ih (block + 1) _ (rest.drop 16)
      (length_append_cipherBlock hp)]
    exact forall_congr' fun i => forall_congr' fun h1 => forall_congr' fun _ => fullAt_succ_iff hp h1

/-- **The record of a whole call** is that of the block map exactly if every transfer is full. -/
theorem cryptFileTurns_ideal_iff (g : Ctx → Block → Block) (io : BlockCalls) (content : List UInt8)
    (key : Key) :
    (cryptFileTurns g true io content key).2 = idealTurns (g (aesInitCtx key)) content ↔
      io.Complete content.length := by
  have hloop := cryptLoopTurns_ideal_iff (f := g (aesInitCtx key)) (e := io)
    (numBlocks 16 content.length) 0 [] content rfl
  simp only [List.nil_append, List.length_nil, Nat.zero_add, Nat.zero_le, true_imp_iff] at hloop
  have hideal : idealTurns (g (aesInitCtx key)) content =
      (List.range (numBlocks 16 content.length)).map (fun i => ⟨i * 16, (content.drop (i * 16)).take 16,
        i * 16, cipherBlock (g (aesInitCtx key)) ((content.drop (i * 16)).take 16)⟩) := by
    apply List.map_congr_left
    intro i _
    rw [idealTurn, ← fillBlock_chunk]
    rfl
  rw [hideal]
  exact hloop

/-! ## The block map in place -/

/-- A call returned 0 and left the images of the chunks, and its turns read every byte of the
    content once, none of them where an earlier turn had written. -/
structure MapsBlocks (f : Block → Block) (content : List UInt8) (result : Int × List UInt8)
    (turns : List BlockTurn) : Prop where
  ret : result.1 = 0
  left : result.2 = blockMap f content
  ideal : turns = idealTurns f content
  ahead : turns.Pairwise fun a b => a.writtenAt + a.put.length ≤ b.readAt
  once : turns.flatMap BlockTurn.got = content

theorem idealTurns_ahead (content : List UInt8) :
    (idealTurns f content).Pairwise fun a b => a.writtenAt + a.put.length ≤ b.readAt := by
  rw [idealTurns, List.pairwise_map]
  refine List.pairwise_lt_range.imp ?_
  intro i j hij
  show i * 16 + (f (filledChunk content i)).toList.length ≤ j * 16
  rw [Vector.length_toList]
  omega

theorem idealTurns_once (content : List UInt8) :
    (idealTurns f content).flatMap BlockTurn.got = content := by
  have hcover := le_numBlocks_mul (B := 16) (by omega) content.length
  have hid := mapBlocks_eq_flatMap (B := 16) (g := id) (numBlocks 16 content.length) content
  have hmap : ∀ (k : Nat) (x : List UInt8), mapBlocks 16 id k x = x := by
    intro k
    induction k with
    | zero => intro x; rfl
    | succ k ih =>
      intro x
      rw [mapBlocks, ih, id, List.take_append_drop]
  rw [hmap, List.drop_of_length_le hcover, List.append_nil] at hid
  rw [idealTurns, List.flatMap_map]
  exact hid.symm

/-- **In place, the loop is the block map**, for any function on blocks. -/
theorem mapsBlocks_cryptFile (g : Ctx → Block → Block) (content : List UInt8) (key : Key) :
    MapsBlocks (g (aesInitCtx key)) content (cryptFile g true BlockCalls.full content key)
      (cryptFileTurns g true BlockCalls.full content key).2 := by
  have hturns := (cryptFileTurns_ideal_iff g BlockCalls.full content key).2
    (fun i _ => BlockCalls.full_fullAt _ i)
  constructor
  case ret => rw [cryptFile_full]
  case left => rw [cryptFile_full, mapBlocks_eq_blockMap]
  case ideal => exact hturns
  case ahead => rw [hturns]; exact idealTurns_ahead content
  case once => rw [hturns]; exact idealTurns_once content

/-- **`encrypt_file` and `decrypt_file` refine the block map** of their cipher functions, and so does
    the body that they share for any other function. -/
theorem crypt_refines_blockMap (content : List UInt8) (key : Key) :
    (∀ E : Ctx → Block → Block,
      MapsBlocks (E (aesInitCtx key)) content (cryptFile E true BlockCalls.full content key)
        (cryptFileTurns E true BlockCalls.full content key).2) ∧
      MapsBlocks (aesEcbEncrypt (aesInitCtx key)) content
        (encryptFile true BlockCalls.full content key)
        (cryptFileTurns aesEcbEncrypt true BlockCalls.full content key).2 ∧
      MapsBlocks (aesEcbDecrypt (aesInitCtx key)) content
        (decryptFile true BlockCalls.full content key)
        (cryptFileTurns aesEcbDecrypt true BlockCalls.full content key).2 :=
  ⟨fun E => mapsBlocks_cryptFile E content key, mapsBlocks_cryptFile aesEcbEncrypt content key,
    mapsBlocks_cryptFile aesEcbDecrypt content key⟩

/-! ## The return code -/

/-- The code 0 tells that every chunk was read in full and its image stored in full, and the only
    other code is -1. -/
def SuccessMeansAll (f : Block → Block) (content : List UInt8) (ret : Int) (turns : List BlockTurn) :
    Prop :=
  (ret = 0 → turns = idealTurns f content) ∧ (ret ≠ 0 → ret = -1)

theorem successMeansAll_cryptFile_iff (g : Ctx → Block → Block) (fopen : Bool) (io : BlockCalls)
    (content : List UInt8) (key : Key) :
    SuccessMeansAll (g (aesInitCtx key)) content (cryptFile g fopen io content key).1
        (cryptFileTurns g fopen io content key).2 ↔
      fopen = false ∨ io.Complete content.length := by
  cases fopen with
  | false =>
    -- the file could not be opened: -1 and no turn
    refine iff_of_true ⟨?_, ?_⟩ (Or.inl rfl)
    · intro h
      exact absurd h (show (-1 : Int) ≠ 0 by decide)
    · intro _
      rfl
  | true =>
    -- the loop tests no transfer, so the code is 0
    have hret : (cryptFile g true io content key).1 = 0 := rfl
    rw [SuccessMeansAll, hret, cryptFileTurns_ideal_iff]
    simp

/-- **Success means all** exactly if the file cannot be opened or every transfer of its blocks is
    full. -/
theorem success_means_all_iff (fopen : Bool) (io : BlockCalls) (content : List UInt8) (key : Key) :
    (SuccessMeansAll (aesEcbEncrypt (aesInitCtx key)) content (encryptFile fopen io content key).1
        (cryptFileTurns aesEcbEncrypt fopen io content key).2 ↔
      fopen = false ∨ io.Complete content.length) ∧
    (SuccessMeansAll (aesEcbDecrypt (aesInitCtx key)) content (decryptFile fopen io content key).1
        (cryptFileTurns aesEcbDecrypt fopen io content key).2 ↔
      fopen = false ∨ io.Complete content.length) :=
  ⟨successMeansAll_cryptFile_iff aesEcbEncrypt fopen io content key,
    successMeansAll_cryptFile_iff aesEcbDecrypt fopen io content key⟩

/-- The `fread` of the second of three blocks fails: its bytes are lost and the code is 0. -/
theorem success_hides_read_error :
    ¬ SuccessMeansAll (aesEcbEncrypt (aesInitCtx probeKey)) (probe 48)
        (encryptFile true ⟨fun i => if i = 1 then 0 else 16, fun _ => 16⟩ (probe 48) probeKey).1
        (cryptFileTurns aesEcbEncrypt true ⟨fun i => if i = 1 then 0 else 16, fun _ => 16⟩ (probe 48)
          probeKey).2 := by
  intro h
  rcases (successMeansAll_cryptFile_iff aesEcbEncrypt _ _ _ _).1 h with h | h
  · cases h
  · have hread := (h 1 (by rw [length_probe]; decide)).1
    rw [length_probe] at hread
    exact absurd hread (by decide)

end Rkx
