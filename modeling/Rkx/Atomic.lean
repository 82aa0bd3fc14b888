import Rkx.RoundTrip

/-!
# When `kx_crypt_file` is all or nothing

`encrypt_file` overwrites the file block by block, checks no `fread` and no `fwrite`, and the hash
is taken afterwards.  For given outcomes of the calls and a given length:

* `kxCryptFile_written`: past the early exits the call ends as the hash step does;
* `probe_full`, `probe_untouched`: on a file of bytes `A` a transfer that is not full, or a write that
  stores anything, shows in the block it belongs to;
* `allOrNothing_iff`: the outcomes under which every content of the length is either encrypted
  completely or left alone.
-/

set_option autoImplicit false

namespace Rkx

open Aes Lib.Blocks Lib.CString Lib.Stdio

/-! ## What the loop does to one block -/

section Block

variable {f : Block → Block} {e : BlockCalls}

theorem length_cryptLoop_ge : ∀ (n block : Nat) (fp : File),
    (block + n) * 16 ≤ fp.data.length + 16 →
    fp.data.length ≤ (cryptLoop f e n block fp).data.length
  | 0, _, _, _ => Nat.le_refl _
  | n + 1, block, fp, hlen => by
    have hge := length_overwrite_ge fp.data
      ((cipherBlock f (fp.fread 16 (e.fread block)).1).take (e.fwrite block))
      (by omega : block * 16 ≤ fp.data.length)
    rw [cryptLoop_succ]
    generalize overwrite fp.data _ _ = d at hge ⊢
    exact Nat.le_trans hge (length_cryptLoop_ge n (block + 1) ⟨d, _⟩ (by simp only; omega))

/-- Block `i` of the result is what the turn of block `i` left there. -/
theorem getElem?_cryptLoop_block {N i t : Nat} (fp : File) (hN : N * 16 ≤ fp.data.length + 16)
    (hi : i < N) (ht : t < 16) :
    (cryptLoop f e N 0 fp).data[i * 16 + t]? =
      (overwrite (cryptLoop f e i 0 fp).data (i * 16)
        ((cipherBlock f ((cryptLoop f e i 0 fp).fread 16 (e.fread i)).1).take
          (e.fwrite i)))[i * 16 + t]? := by
  have hge := length_cryptLoop_ge (f := f) (e := e) i 0 fp (by omega)
  have hoff : i * 16 ≤ (cryptLoop f e i 0 fp).data.length := by omega
  have hge' := length_overwrite_ge (cryptLoop f e i 0 fp).data
    ((cipherBlock f ((cryptLoop f e i 0 fp).fread 16 (e.fread i)).1).take (e.fwrite i)) hoff
  obtain ⟨k, rfl⟩ : ∃ k, N = i + (k + 1) := ⟨N - i - 1, by omega⟩
  rw [cryptLoop_add, Nat.zero_add, cryptLoop_succ,
    getElem?_cryptLoop_lt k (i + 1) _ (by simp only; omega) (by omega)]

end Block

/-! ## A content that shows every transfer that is not full -/

def probeKey : Key := Vector.replicate 16 0

def probe (n : Nat) : List UInt8 := List.replicate n 65

def probeCipher : Block → Block := aesEcbEncrypt (aesInitCtx probeKey)

/-- However many bytes `A` are read, the block written begins with another byte. -/
theorem probe_head (r : Fin 17) : (cipherBlock probeCipher (probe r))[0]? ≠ some 65 := by
  have h : ∀ r : Fin 17, (probeCipher (fillBlock (probe r)))[0] ≠ 65 := by decide +kernel
  intro hr
  apply h r
  simpa [cipherBlock] using hr

/-- The block of sixteen bytes `A` is written with another last byte. -/
theorem probe_last : (cipherBlock probeCipher (probe 16))[15]? ≠ some 65 := by
  have h : (probeCipher (fillBlock (probe 16)))[15] ≠ 65 := by decide +kernel
  intro hr
  apply h
  simpa [cipherBlock] using hr

/-- Fewer bytes `A` read are another block written. -/
theorem probe_short {r s : Nat} (hrs : r < s) (hs : s ≤ 16) :
    cipherBlock probeCipher (probe r) ≠ cipherBlock probeCipher (probe s) := by
  intro h
  have hblock := congrArg Vector.toList (aesEcbEncrypt_injective _ (Vector.toList_inj.1 h))
  unfold probe at hblock
  rw [fillBlock_toList (by simp; omega), fillBlock_toList (by simp; omega)] at hblock
  have hr := congrArg (fun l => l[r]?) hblock
  simp only [List.length_replicate] at hr
  rw [List.getElem?_append_right (by simp), List.getElem?_append_left (by simpa using hrs),
    List.getElem?_replicate_of_lt hrs, List.length_replicate, Nat.sub_self,
    List.getElem?_replicate_of_lt (by omega)] at hr
  have h65 := congrArg UInt8.toNat (Option.some.inj hr)
  rw [UInt8.toNat_ofNat'] at h65
  simp at h65
  omega

/-- What `encrypt_file` leaves of the probe under these outcomes. -/
def probeResult (io : BlockCalls) (n : Nat) : List UInt8 :=
  (cryptLoop probeCipher io (numBlocks 16 n) 0 (File.opened (probe n))).data

@[simp] theorem length_probe (n : Nat) : (probe n).length = n := by simp [probe]

theorem probe_drop_take (n k m : Nat) : ((probe n).drop k).take m = probe (min m (n - k)) := by
  simp [probe, List.drop_replicate, List.take_replicate]

/-- **A block before which all transfers were full had full transfers itself**, if the probe is
    encrypted completely. -/
theorem probe_full {io : BlockCalls} {n i : Nat} (hi : i < numBlocks 16 n)
    (hbefore : ∀ j, j < i → io.FullAt n j) (h : probeResult io n = encrypted probeKey (probe n)) :
    io.FullAt n i := by
  have hin : i * 16 < n := mul_lt_of_lt_numBlocks hi
  have hN : numBlocks 16 n * 16 ≤ n + 16 := Nat.le_of_lt (numBlocks_mul_lt (by omega) n)
  have hstate : cryptLoop probeCipher io i 0 (File.opened (probe n)) =
      ⟨mapBlocks 16 (cipherBlock probeCipher) i (probe n), i * 16⟩ := by
    have hfull := cryptLoop_full (f := probeCipher) (e := io) i 0 [] (probe n) rfl
      (fun j _ hj => by simpa using hbefore j (by omega))
    simpa [File.opened] using hfull
  have hrest : (mapBlocks 16 (cipherBlock probeCipher) i (probe n)).drop (i * 16) =
      (probe n).drop (i * 16) := drop_mapBlocks (length_cipherBlock _) (by simp; omega)
  have hlen : i * 16 ≤ (mapBlocks 16 (cipherBlock probeCipher) i (probe n)).length := by
    have := congrArg List.length hrest
    simp only [List.length_drop, length_probe] at this
    omega
  -- both sides of `h` inside block `i`
  have hblock : ∀ t, t < 16 →
      (overwrite (mapBlocks 16 (cipherBlock probeCipher) i (probe n)) (i * 16)
        ((cipherBlock probeCipher (probe (min (min 16 (io.fread i)) (n - i * 16)))).take
          (io.fwrite i)))[i * 16 + t]? =
        (cipherBlock probeCipher (probe (min 16 (n - i * 16))))[t]? := by
    intro t ht
    have hl := getElem?_cryptLoop_block (f := probeCipher) (e := io) (File.opened (probe n))
      (by simpa [File.opened] using hN) hi ht
    have hr := getElem?_mapBlocks_lt (length_cipherBlock probeCipher) (probe n) hi ht
    rw [probe_drop_take] at hr
    simp only [hstate, File.fread, hrest, probe_drop_take] at hl
    rw [← hl, ← hr]
    simp only [probeResult, encrypted_eq, length_probe] at h
    rw [h]
    rfl
  by_cases hw : 16 ≤ io.fwrite i
  · refine ⟨?_, hw⟩
    by_contra hr
    refine probe_short (r := min (min 16 (io.fread i)) (n - i * 16)) (s := min 16 (n - i * 16))
      (by omega) (by omega) (List.ext_getElem? fun t => ?_)
    by_cases ht : t < 16
    · rw [← hblock t ht, List.take_of_length_le (by simpa using hw),
        getElem?_overwrite_run hlen (by simpa using ht)]
    · rw [List.getElem?_eq_none (by simp; omega), List.getElem?_eq_none (by simp; omega)]
  · exfalso
    have h15 := hblock 15 (by omega)
    rw [getElem?_overwrite_ge hlen (by simp; omega), ← List.getElem?_drop, hrest] at h15
    by_cases hs : 16 ≤ n - i * 16
    · rw [Nat.min_eq_left hs] at h15
      apply probe_last
      rw [← h15, probe, List.drop_replicate, List.getElem?_replicate_of_lt (by omega)]
    · rw [List.getElem?_eq_none (by simp; omega)] at h15
      have hsome := List.getElem?_eq_none_iff.1 h15.symm
      simp at hsome

/-- **A block before which no write stored a byte was not written either**, if the probe is left
    alone. -/
theorem probe_untouched {io : BlockCalls} {n i : Nat} (hi : i < numBlocks 16 n)
    (hbefore : ∀ j, j < i → io.fwrite j = 0) (h : probeResult io n = probe n) :
    io.fwrite i = 0 := by
  have hin : i * 16 < n := mul_lt_of_lt_numBlocks hi
  have hN : numBlocks 16 n * 16 ≤ n + 16 := Nat.le_of_lt (numBlocks_mul_lt (by omega) n)
  have hstate : (cryptLoop probeCipher io i 0 (File.opened (probe n))).data = probe n :=
    cryptLoop_untouched i 0 _ (by simp [File.opened]; omega) (fun j _ hj => hbefore j (by omega))
  by_contra hw
  have h0 := getElem?_cryptLoop_block (f := probeCipher) (e := io) (File.opened (probe n))
    (by simpa [File.opened] using hN) hi (t := 0) (by omega)
  rw [show (cryptLoop probeCipher io (numBlocks 16 n) 0 (File.opened (probe n))).data = probe n from h,
    hstate, getElem?_overwrite_run (by simp; omega) (by simp; omega)] at h0
  simp only [File.fread, hstate, probe_drop_take] at h0
  rw [List.getElem?_take_of_lt (by omega), Nat.add_zero, probe,
    List.getElem?_replicate_of_lt hin] at h0
  exact probe_head ⟨_, by omega⟩ h0.symm

/-! ## The call as a whole -/

/-- The hash step by its outcomes. -/
theorem calculateXxhash_eq (XXH64 : List UInt8 → UInt64 → UInt64) (io : HashCalls) (c : List UInt8) :
    calculateXxhash XXH64 io c =
      if io.fopen then
        if io.zmalloc then .ok (if io.missing = 0 ∨ c.length = 0 then XXH64 c 0 else 0)
        else .error .oom
      else .ok 0 := by
  unfold calculateXxhash
  cases io.fopen with
  | false => rfl
  | true =>
    cases io.zmalloc with
    | false => rfl
    | true =>
      by_cases hm : io.missing = 0 ∨ c.length = 0
      · have htake : c.take (c.length - io.missing) = c := List.take_of_length_le (by omega)
        simp only [htake, if_pos hm, ne_eq, not_true_eq_false, if_true, if_false]
        rfl
      · have hlen : (c.take (c.length - io.missing)).length ≠ c.length := by
          rw [List.length_take]
          omega
        simp only [if_pos hlen, if_neg hm, if_true]
        rfl

/-- What the file holds after the loop, past the early exits. -/
def writtenContent (io : BlockCalls) (key : Key) (x : List UInt8) : List UInt8 :=
  (encryptFile true io x key).2

/-- Past the early exits the call ends as the hash step does. -/
theorem kxCryptFile_written (XXH64 : List UInt8 → UInt64 → UInt64) {io : CryptCalls} (fname : CStr)
    (key : Key) {x : List UInt8} (hstat : io.stat = true) (hsize : x.length ≤ MAXFILESIZE)
    (halloc : io.zmalloc = true) (hopen : io.fopen = true) :
    kxCryptFile XXH64 io fname (some key) x =
      ((calculateXxhash XXH64 io.hash (writtenContent io.blocks key x)).map fun uuid =>
          if uuid = 0 then none
          else some
            { fname := strncpyField 255 (basename fname)
              fullname := strncpyField 4096 fname
              uuid
              type := .KXCIPHER },
        writtenContent io.blocks key x) := by
  have hret : ¬ (encryptFile true io.blocks x key).1 = -1 := by
    simp [encryptFile, cryptFile]
  simp only [kxCryptFile, hstat, Nat.not_lt.2 hsize, zmalloc, halloc, deref, hopen, writtenContent]
  cases h : calculateXxhash XXH64 io.hash (encryptFile true io.blocks x key).2 with
  | error e => simp [Except.map, h, hret]
  | ok uuid => by_cases h0 : uuid = 0 <;> simp [Except.map, h, h0, hret]

theorem writtenContent_eq (io : BlockCalls) (key : Key) (x : List UInt8) :
    writtenContent io key x = (cryptLoop (aesEcbEncrypt (aesInitCtx key)) io
      (numBlocks 16 x.length) 0 (File.opened x)).data := rfl

theorem writtenContent_probe (io : BlockCalls) (n : Nat) :
    writtenContent io probeKey (probe n) = probeResult io n := by
  rw [writtenContent_eq, length_probe]
  rfl

theorem length_writtenContent (io : BlockCalls) (key : Key) (x : List UInt8) :
    (writtenContent io key x).length = 0 ↔ x.length = 0 := by
  constructor
  · intro h
    have hge := length_cryptLoop_ge (f := aesEcbEncrypt (aesInitCtx key)) (e := io)
      (numBlocks 16 x.length) 0 (File.opened x) (by
        have := numBlocks_mul_lt (B := 16) (by omega) x.length
        simp only [File.opened]
        omega)
    rw [← writtenContent_eq] at hge
    simp only [File.opened] at hge
    omega
  · intro h
    rw [List.length_eq_zero_iff.1 h]
    rfl

/-- The file holds the complete ciphertext of `x` and a record is returned, or NULL is returned and
    the file holds `x`. -/
def AllOrNothing (key : Key) (x : List UInt8) (r : Except Fault (Option KxFile) × List UInt8) :
    Prop :=
  (∃ kf, r.1 = .ok (some kf) ∧ r.2 = encrypted key x) ∨ (r.1 = .ok none ∧ r.2 = x)

/-- The hash step ends with a hash other than `0`; `h` is what `XXH64` returns. -/
def HashCalls.Delivers (io : HashCalls) (h : UInt64) (n : Nat) : Prop :=
  io.fopen = true ∧ io.zmalloc = true ∧ (io.missing = 0 ∨ n = 0) ∧ h ≠ 0

/-- The hash step returns `0`. -/
def HashCalls.Fails (io : HashCalls) (h : UInt64) (n : Nat) : Prop :=
  io.fopen = false ∨ (io.zmalloc = true ∧ (¬ (io.missing = 0 ∨ n = 0) ∨ h = 0))

/-- Every transfer of the blocks of `n` bytes is full. -/
def BlockCalls.Complete (io : BlockCalls) (n : Nat) : Prop := ∀ i, i < numBlocks 16 n → io.FullAt n i

/-- No write of the blocks of `n` bytes stores a byte. -/
def BlockCalls.Untouched (io : BlockCalls) (n : Nat) : Prop := ∀ i, i < numBlocks 16 n → io.fwrite i = 0

/-- The call ends before the first block is written; or every block is read and written in full and
    the hash step ends with a hash other than `0`; or nothing is stored and the hash step fails. -/
def CryptCalls.Settles (io : CryptCalls) (h : UInt64) (n : Nat) : Prop :=
  io.stat = false ∨ MAXFILESIZE < n ∨
    (io.zmalloc = true ∧
      (io.fopen = false ∨ (io.blocks.Complete n ∧ io.hash.Delivers h n) ∨
        (io.blocks.Untouched n ∧ io.hash.Fails h n)))

/-- Past the early exits the call is all or nothing according to the hash step and to what the loop
    has left in the file. -/
theorem allOrNothing_written_iff (XXH64 : List UInt8 → UInt64 → UInt64) {io : CryptCalls} (fname : CStr)
    (key : Key) {x : List UInt8} (hstat : io.stat = true) (hsize : x.length ≤ MAXFILESIZE)
    (halloc : io.zmalloc = true) (hopen : io.fopen = true) :
    AllOrNothing key x (kxCryptFile XXH64 io fname (some key) x) ↔
      (io.hash.Delivers (XXH64 (writtenContent io.blocks key x) 0) x.length ∧
        writtenContent io.blocks key x = encrypted key x) ∨
      (io.hash.Fails (XXH64 (writtenContent io.blocks key x) 0) x.length ∧
        writtenContent io.blocks key x = x) := by
  rw [kxCryptFile_written XXH64 fname key hstat hsize halloc hopen, calculateXxhash_eq]
  simp only [length_writtenContent]
  generalize writtenContent io.blocks key x = y
  unfold AllOrNothing HashCalls.Delivers HashCalls.Fails
  cases io.hash.fopen with
  | false => simp [Except.map]
  | true =>
    cases io.hash.zmalloc with
    | false => simp [Except.map]
    | true =>
      by_cases hm : io.hash.missing = 0 ∨ x.length = 0 <;> simp only [hm] <;>
        by_cases h0 : XXH64 y 0 = 0 <;> simp [Except.map, h0]

theorem writtenContent_complete {io : BlockCalls} (key : Key) {x : List UInt8}
    (h : io.Complete x.length) : writtenContent io key x = encrypted key x := by
  have hloop := cryptLoop_full (f := aesEcbEncrypt (aesInitCtx key)) (e := io)
    (numBlocks 16 x.length) 0 [] x rfl
    (fun i _ hi => by simpa using h i (by omega))
  simp only [List.nil_append, List.length_nil] at hloop
  rw [encrypted_eq]
  exact congrArg File.data hloop

theorem writtenContent_untouched {io : BlockCalls} (key : Key) {x : List UInt8}
    (h : io.Untouched x.length) : writtenContent io key x = x := by
  have hN := numBlocks_mul_lt (B := 16) (by omega) x.length
  exact cryptLoop_untouched (numBlocks 16 x.length) 0 (File.opened x)
    (by simp only [File.opened]; omega) (fun i _ hi => h i (by omega))

theorem complete_of_probe {io : BlockCalls} {n : Nat}
    (h : writtenContent io probeKey (probe n) = encrypted probeKey (probe n)) : io.Complete n := by
  rw [writtenContent_probe] at h
  intro i
  induction i using Nat.strongRecOn with
  | ind i ih => exact fun hi => probe_full hi (fun j hj => ih j hj (by omega)) h

theorem untouched_of_probe {io : BlockCalls} {n : Nat}
    (h : writtenContent io probeKey (probe n) = probe n) : io.Untouched n := by
  rw [writtenContent_probe] at h
  intro i
  induction i using Nat.strongRecOn with
  | ind i ih => exact fun hi => probe_untouched hi (fun j hj => ih j hj (by omega)) h

/-- **When the call is all or nothing**, for given outcomes of the calls (`h` is what `XXH64`
    returns) and every content of a given length. -/
theorem allOrNothing_iff (io : CryptCalls) (h : UInt64) (n : Nat) (fname : CStr) :
    (∀ (XXH64 : List UInt8 → UInt64 → UInt64) (key : Key) (x : List UInt8), x.length = n →
        XXH64 (writtenContent io.blocks key x) 0 = h →
        AllOrNothing key x (kxCryptFile XXH64 io fname (some key) x)) ↔
      io.Settles h n := by
  constructor
  · intro hall
    by_cases hstat : io.stat = true
    swap
    · exact Or.inl (by simpa using hstat)
    by_cases hsize : n ≤ MAXFILESIZE
    swap
    · exact Or.inr (Or.inl (by omega))
    have hprobe := hall (fun _ _ => h) probeKey (probe n) (length_probe n) rfl
    by_cases halloc : io.zmalloc = true
    swap
    · -- the process is aborted
      exfalso
      simp [AllOrNothing, kxCryptFile, hstat, Nat.not_lt.2 hsize, zmalloc, halloc] at hprobe
    by_cases hopen : io.fopen = true
    swap
    · exact Or.inr (Or.inr ⟨halloc, Or.inl (by simpa using hopen)⟩)
    rw [allOrNothing_written_iff _ fname probeKey hstat (by simpa using hsize) halloc hopen,
      length_probe] at hprobe
    refine Or.inr (Or.inr ⟨halloc, Or.inr ?_⟩)
    rcases hprobe with ⟨hd, hw⟩ | ⟨hf, hw⟩
    · exact Or.inl ⟨complete_of_probe hw, hd⟩
    · exact Or.inr ⟨untouched_of_probe hw, hf⟩
  · rintro hset XXH64 key x rfl rfl
    by_cases hstat : io.stat = true
    swap
    · exact Or.inr (by simp [kxCryptFile, hstat])
    by_cases hsize : x.length ≤ MAXFILESIZE
    swap
    · exact Or.inr (by simp [kxCryptFile, Nat.lt_of_not_le hsize])
    rcases hset with h | h | ⟨halloc, h⟩
    · rw [hstat] at h
      cases h
    · omega
    by_cases hopen : io.fopen = true
    swap
    · exact Or.inr (by simp [kxCryptFile, hstat, Nat.not_lt.2 hsize, zmalloc, halloc, deref, hopen,
        encryptFile, cryptFile])
    rw [allOrNothing_written_iff XXH64 fname key hstat hsize halloc hopen]
    rcases h with h | ⟨hc, hd⟩ | ⟨hu, hf⟩
    · rw [hopen] at h
      cases h
    · exact Or.inl ⟨hd, writtenContent_complete key hc⟩
    · exact Or.inr ⟨hf, writtenContent_untouched key hu⟩

/-- Every call succeeds but the `fopen` of the hash step: NULL is returned and the file of one byte
    holds a block of ciphertext. -/
theorem allOrNothing_unreadable_hash :
    ¬ AllOrNothing probeKey [65] (kxCryptFile (fun _ _ => 1)
      ⟨true, true, true, BlockCalls.full, ⟨false, true, 0⟩⟩ (.lit "a") (some probeKey) [65]) := by
  rw [allOrNothing_written_iff _ _ _ rfl (by decide) rfl rfl]
  rintro (⟨⟨h, -⟩, -⟩ | ⟨-, h⟩)
  · cases h
  · have hlen := congrArg List.length h
    rw [writtenContent_complete probeKey (fun i _ => BlockCalls.full_fullAt _ i), encrypted_eq,
      length_mapBlocks (length_cipherBlock _) (by decide)] at hlen
    exact absurd hlen (by decide)

end Rkx
