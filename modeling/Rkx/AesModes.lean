import Rkx.AesInverse
import Rkx.Lib.Blocks
import Rkx.Lib.Transducer

/-!
# The other modes of AES (`aes.c`)

CBC and CTR keep a block `Iv` in the context from one call to the next.

* `aesCbcEncryptBuffer`, `aesCbcDecryptBuffer`: `cbc_calls_undo` says that any calls of the one undo any calls of the
  other;
* `aesCtrXcryptBuffer`: `ctr_calls` says which byte of the key stream any call meets where, `ctr_calls_undo` that any
  calls undo themselves.
-/

set_option autoImplicit false

namespace Rkx.Aes

open Lib.Blocks Lib.Bytes Lib.Transducer

/-- `struct AES_ctx` with `Iv`. -/
structure IvCtx extends Ctx where
  iv : Block

/-- `AES_init_ctx_iv` -/
def aesInitCtxIv (key : Key) (iv : Block) : IvCtx := ⟨aesInitCtx key, iv⟩

/-- `XorWithIv` -/
def xorWithIv (buf iv : Block) : Block := buf.zipWith (· ^^^ ·) iv

theorem xorWithIv_xorWithIv (buf iv : Block) : xorWithIv (xorWithIv buf iv) iv = buf := by
  apply Vector.ext
  intro i hi
  simp only [xorWithIv, Vector.getElem_zipWith]
  exact xor_cancel_right _ _

/-! ## CBC -/

/-- The block at the pointer `buf`, and what is behind it; without sixteen bytes there is no result. -/
def block? (m : List UInt8) : Option (Block × List UInt8) :=
  if h : 16 ≤ m.length then some (⟨(m.take 16).toArray, by simpa using h⟩, m.drop 16) else none

/-- The loop body of `AES_CBC_encrypt_buffer` on a block, with the next `Iv`. -/
def cbcEncrypt (ctx : Ctx) (iv buf : Block) : Block × Block :=
  let buf := aesEcbEncrypt ctx (xorWithIv buf iv)
  (buf, buf)

/-- The loop body of `AES_CBC_decrypt_buffer`. -/
def cbcDecrypt (ctx : Ctx) (iv buf : Block) : Block × Block :=
  let storeNextIv := buf
  (storeNextIv, xorWithIv (aesEcbDecrypt ctx buf) iv)

/-- Turns of a loop over blocks, from the pointer `buf` on. -/
def blockTurns (body : Block → Block → Block × Block) : Nat → Block → List UInt8 → Option (Block × List UInt8)
  | 0, iv, buf => some (iv, buf)
  | turns + 1, iv, buf => do
    let (block, behind) ← block? buf
    let (iv, block) := body iv block
    let (iv, behind) ← blockTurns body turns iv behind
    return (iv, block.toList ++ behind)

/-- `for (i = 0; i < length; i += AES_BLOCKLEN)` over the `length` bytes of `buf`. -/
def IvCtx.overBlocks (body : Ctx → Block → Block → Block × Block) (ctx : IvCtx) (buf : List UInt8) :
    Option (IvCtx × List UInt8) :=
  (blockTurns (body ctx.toCtx) (numBlocks 16 buf.length) ctx.iv buf).map fun r => ({ ctx with iv := r.1 }, r.2)

/-- `AES_CBC_encrypt_buffer` -/
def aesCbcEncryptBuffer : IvCtx → List UInt8 → Option (IvCtx × List UInt8) := IvCtx.overBlocks cbcEncrypt

/-- `AES_CBC_decrypt_buffer` -/
def aesCbcDecryptBuffer : IvCtx → List UInt8 → Option (IvCtx × List UInt8) := IvCtx.overBlocks cbcDecrypt

/-- A block is undone with the same `Iv`, and leaves the same one. -/
theorem cbcDecrypt_cbcEncrypt (ctx : Ctx) (iv buf : Block) :
    cbcDecrypt ctx iv (cbcEncrypt ctx iv buf).2 = ((cbcEncrypt ctx iv buf).1, buf) := by
  simp only [cbcEncrypt, cbcDecrypt, aesEcbDecrypt_aesEcbEncrypt, xorWithIv_xorWithIv]

theorem block?_toList (b : Block) (m : List UInt8) : block? (b.toList ++ m) = some (b, m) := by
  have hlen : b.toList.length = 16 := Vector.length_toList
  unfold block?
  rw [dif_pos (by rw [List.length_append]; omega)]
  have hdrop : (b.toList ++ m).drop 16 = m := List.drop_left' hlen
  rw [hdrop]
  congr 2
  exact Vector.toList_inj.1 (by simp)

/-- The loop goes over blocks as a machine does. -/
theorem blockTurns_blocks (body : Block → Block → Block × Block) (iv : Block) (bs : List Block) (m : List UInt8) :
    blockTurns body bs.length iv (ofBlocks bs ++ m) =
      some ((transduce body iv bs).1, ofBlocks (transduce body iv bs).2 ++ m) := by
  induction bs generalizing iv with
  | nil => rfl
  | cons b bs ih =>
    rw [List.length_cons, blockTurns, ofBlocks_cons, List.append_assoc, block?_toList]
    simp only [Option.bind_eq_bind, Option.bind_some, ih, transduce_cons, ofBlocks_cons, List.append_assoc]
    rfl

/-- A machine over blocks that keeps its `Iv` in the context. -/
def IvCtx.onBlock (body : Ctx → Block → Block → Block × Block) (ctx : IvCtx) (b : Block) : IvCtx × Block :=
  ({ ctx with iv := (body ctx.toCtx ctx.iv b).1 }, (body ctx.toCtx ctx.iv b).2)

theorem overBlocks_blocks (body : Ctx → Block → Block → Block × Block) (ctx : IvCtx) (bs : List Block) :
    ctx.overBlocks body (ofBlocks bs) =
      some ((transduce (IvCtx.onBlock body) ctx bs).1, ofBlocks (transduce (IvCtx.onBlock body) ctx bs).2) := by
  have hturns : numBlocks 16 (ofBlocks bs).length = bs.length := by
    rw [length_ofBlocks, numBlocks_mul (by decide)]
  have hblocks := blockTurns_blocks (body ctx.toCtx) ctx.iv bs []
  rw [List.append_nil] at hblocks
  have hmachine : transduce (IvCtx.onBlock body) ctx (bs.map id) =
      ({ ctx with iv := (transduce (body ctx.toCtx) ctx.iv bs).1 }, (transduce (body ctx.toCtx) ctx.iv bs).2.map id) :=
    transduce_map (fun iv => { ctx with iv }) id id (fun _ _ => rfl) ctx.iv bs
  rw [List.map_id, List.map_id] at hmachine
  unfold IvCtx.overBlocks
  rw [hturns, hblocks, hmachine]
  simp

theorem onBlock_undo (ctx : IvCtx) (b : Block) :
    ctx.onBlock cbcDecrypt (ctx.onBlock cbcEncrypt b).2 = ((ctx.onBlock cbcEncrypt b).1, b) := by
  unfold IvCtx.onBlock
  rw [cbcDecrypt_cbcEncrypt]

/-- **Calls of the one function undo calls of the other**: what calls of `AES_CBC_encrypt_buffer` on buffers of whole
    blocks give, cut at the ends of any blocks, comes back through calls of `AES_CBC_decrypt_buffer` from the same
    context, each buffer if it is cut in the same way, and the two leave the same `Iv`. -/
theorem cbc_calls_undo (ctx : IvCtx) {bufs : List (List UInt8)} (hbufs : ∀ buf ∈ bufs, 16 ∣ buf.length) :
    ∃ ctx' outs, calls aesCbcEncryptBuffer ctx bufs = some (ctx', outs) ∧
      outs.map List.length = bufs.map List.length ∧
      ∀ cuts : List (List UInt8), cuts.flatten = outs.flatten → (∀ buf ∈ cuts, 16 ∣ buf.length) →
        ∃ outs', calls aesCbcDecryptBuffer ctx cuts = some (ctx', outs') ∧ outs'.flatten = bufs.flatten ∧
          (cuts = outs → outs' = bufs) := by
  obtain ⟨bss, rfl⟩ := exists_blocks_map hbufs
  have hencrypt := calls_map _ _ (overBlocks_blocks cbcEncrypt) ctx bss
  have hlen : ∀ ctx (bs : List Block),
      (ofBlocks (transduce (IvCtx.onBlock cbcEncrypt) ctx bs).2).length = (ofBlocks bs).length := by
    intro ctx bs
    rw [length_ofBlocks, length_ofBlocks, length_transduce]
  refine ⟨_, _, hencrypt, by simpa using map_transduce hlen ctx bss, ?_⟩
  intro cuts hcuts hwhole
  obtain ⟨css, rfl⟩ := exists_blocks_map hwhole
  rw [← ofBlocks_flatten, ← ofBlocks_flatten] at hcuts
  have hblocks := ofBlocks_injective (by decide) hcuts
  have hundo := transduce_undo onBlock_undo ctx bss.flatten
  rw [transduce_flatten] at hundo
  have hdecrypt : transduce (IvCtx.onBlock cbcDecrypt) ctx css.flatten = _ := transduce_flatten ctx css
  rw [hblocks, hundo] at hdecrypt
  obtain ⟨hctx, hout⟩ := Prod.mk.inj hdecrypt
  simp only at hctx
  refine ⟨(transduce (transduce (IvCtx.onBlock cbcDecrypt)) ctx css).2.map ofBlocks, ?_, ?_, ?_⟩
  · rw [hctx]
    exact calls_map _ _ (overBlocks_blocks cbcDecrypt) ctx css
  · rw [← ofBlocks_flatten, ← ofBlocks_flatten, ← hout]
  · intro hsame
    have hcss := List.map_injective_iff.2 (ofBlocks_injective (by decide)) hsame
    rw [hcss, transduce_undo (fun s bs => transduce_undo onBlock_undo s bs) ctx bss]

theorem cbc_calls_undo_sample :
    let ctx := aesInitCtxIv (.replicate 16 0) (.replicate 16 0)
    let bufs := [List.replicate 32 1, List.replicate 16 2]
    ∃ ctx' outs, calls aesCbcEncryptBuffer ctx bufs = some (ctx', outs) ∧
      outs.map List.length = bufs.map List.length ∧
      ∀ cuts : List (List UInt8), cuts.flatten = outs.flatten → (∀ buf ∈ cuts, 16 ∣ buf.length) →
        ∃ outs', calls aesCbcDecryptBuffer ctx cuts = some (ctx', outs') ∧ outs'.flatten = bufs.flatten ∧
          (cuts = outs → outs' = bufs) :=
  cbc_calls_undo _ (by decide)

/-! ## CTR -/

/-- `for (bi = (AES_BLOCKLEN - 1); bi >= 0; --bi)`: the turns on the first `bi` bytes of `Iv`. -/
def incrementTurns : (bi : Nat) → bi ≤ 16 → Block → Block
  | 0, _, iv => iv
  | bi + 1, h, iv => if iv[bi] = 255 then incrementTurns bi (by omega) (iv.set bi 0) else iv.set bi (iv[bi] + 1)

def increment (iv : Block) : Block := incrementTurns 16 (Nat.le_refl _) iv

/-- The context, and the variables of `AES_CTR_xcrypt_buffer`. -/
structure CtrState where
  ctx : IvCtx
  buffer : Block
  bi : Nat

/-- One turn of the loop, on the byte `buf[i]`. -/
def ctrTurn (x : CtrState) (b : UInt8) : CtrState × UInt8 :=
  let x :=
    if x.bi = 16 then
      { ctx := { x.ctx with iv := increment x.ctx.iv }, buffer := aesEcbEncrypt x.ctx.toCtx x.ctx.iv, bi := 0 }
    else x
  ({ x with bi := x.bi + 1 }, b ^^^ x.buffer.toList.getD x.bi 0)

/-- `AES_CTR_xcrypt_buffer`; `stack` is what `buffer` holds before. -/
def aesCtrXcryptBuffer (stack : Block) (ctx : IvCtx) (buf : List UInt8) : IvCtx × List UInt8 :=
  let r := transduce ctrTurn ⟨ctx, stack, 16⟩ buf
  (r.1.ctx, r.2)

/-! ### The counter -/

/-- The block that counts `v`, most significant byte first. -/
def counter (v : Nat) : Block := ⟨(toLE 16 v).reverse.toArray, by simp⟩

def counterValue (iv : Block) : Nat := ofLE iv.toList.reverse

theorem counter_counterValue (iv : Block) : counter (counterValue iv) = iv := by
  apply Vector.toList_inj.1
  have hle := toLE_ofLE iv.toList.reverse
  rw [List.length_reverse, Vector.length_toList] at hle
  simp [counter, counterValue, hle]

/-- The turns go over the bytes in front of `s` from the last one on. -/
theorem incrementTurns_toList {bi : Nat} (h : bi ≤ 16) (iv : Block) :
    (incrementTurns bi h iv).toList = (incLE (iv.toList.take bi).reverse).reverse ++ iv.toList.drop bi := by
  induction bi generalizing iv with
  | zero => simp [incrementTurns, incLE]
  | succ bi ih =>
    have hlt : bi < iv.toList.length := by rw [Vector.length_toList]; omega
    have htake : (iv.toList.take (bi + 1)).reverse = iv[bi] :: (iv.toList.take bi).reverse := by
      rw [List.take_add_one, List.getElem?_eq_getElem hlt, Option.toList_some, List.reverse_append]
      simp
    have hset : ∀ a, iv.toList.set bi a = iv.toList.take bi ++ a :: iv.toList.drop (bi + 1) := by
      intro a
      rw [List.set_eq_take_append_cons_drop, if_pos hlt]
    have hlen : (iv.toList.take bi).length = bi := List.length_take_of_le (Nat.le_of_lt hlt)
    rw [htake, incrementTurns, incLE]
    split
    · rw [ih (by omega), Vector.toList_set, hset, List.take_left' hlen, List.drop_left' hlen]
      simp
    · rw [Vector.toList_set, hset]
      simp

/-- **The loop counts on**, and over to 0 behind the last block. -/
theorem increment_counter (v : Nat) : increment (counter v) = counter (v + 1) := by
  apply Vector.toList_inj.1
  have hvalue : ofLE (toLE 16 v) + 1 = v % 256 ^ 16 + 1 := by rw [ofLE_toLE]
  have hnext : toLE 16 (v % 256 ^ 16 + 1) = toLE 16 (v + 1) := by
    rw [← toLE_mod 16 (v % 256 ^ 16 + 1), Nat.mod_add_mod, toLE_mod]
  have hinc := incLE_eq (toLE 16 v)
  rw [length_toLE, hvalue, hnext] at hinc
  have hlen : (toLE 16 v).reverse.length ≤ 16 := by rw [List.length_reverse, length_toLE]
  have hcounter : ∀ v, (counter v).toList = (toLE 16 v).reverse := fun v => by simp [counter]
  rw [increment, incrementTurns_toList, hcounter, hcounter, List.take_of_length_le hlen, List.drop_of_length_le hlen,
    List.reverse_reverse, hinc, List.append_nil]

/-! ### The key stream -/

/-- Byte `i` behind the counter `v`. -/
def keyStream (ctx : Ctx) (v i : Nat) : UInt8 := (aesEcbEncrypt ctx (counter (v + i / 16))).toList.getD (i % 16) 0

/-- The bytes of a buffer with those of the key stream from `n` on. -/
def xorFrom (stream : Nat → UInt8) (n : Nat) (buf : List UInt8) : List UInt8 :=
  (buf.zipIdx n).map fun b => b.1 ^^^ stream b.2

@[simp] theorem length_xorFrom (stream : Nat → UInt8) (n : Nat) (buf : List UInt8) :
    (xorFrom stream n buf).length = buf.length := by
  simp [xorFrom]

theorem xorFrom_append (stream : Nat → UInt8) (n : Nat) (buf buf' : List UInt8) :
    xorFrom stream n (buf ++ buf') = xorFrom stream n buf ++ xorFrom stream (n + buf.length) buf' := by
  simp [xorFrom, List.zipIdx_append]

theorem xorFrom_add (stream : Nat → UInt8) (m n : Nat) (buf : List UInt8) :
    xorFrom (fun i => stream (m + i)) n buf = xorFrom stream (m + n) buf := by
  induction buf generalizing n with
  | nil => rfl
  | cons b buf ih =>
    unfold xorFrom at ih ⊢
    rw [List.zipIdx_cons, List.zipIdx_cons, List.map_cons, List.map_cons, ih, Nat.add_assoc]

theorem xorFrom_xorFrom (stream : Nat → UInt8) (n : Nat) (buf : List UInt8) :
    xorFrom stream n (xorFrom stream n buf) = buf := by
  induction buf generalizing n with
  | nil => rfl
  | cons b buf ih =>
    unfold xorFrom at ih ⊢
    simp only [List.zipIdx_cons, List.map_cons, ih]
    rw [xor_cancel_right]

/-- The loop in front of byte `i`. -/
structure AtByte (ctx : Ctx) (v i : Nat) (x : CtrState) : Prop where
  context : x.ctx = ⟨ctx, counter (v + numBlocks 16 i)⟩
  fresh : i % 16 = 0 → x.bi = 16
  inside : i % 16 ≠ 0 → x.bi = i % 16 ∧ x.buffer = aesEcbEncrypt ctx (counter (v + i / 16))

theorem AtByte.turn {ctx : Ctx} {v i : Nat} {x : CtrState} (h : AtByte ctx v i x) (b : UInt8) :
    (ctrTurn x b).2 = b ^^^ keyStream ctx v i ∧ AtByte ctx v (i + 1) (ctrTurn x b).1 := by
  have hcontext := h.context
  unfold ctrTurn keyStream
  by_cases hi : i % 16 = 0
  · have hblocks : numBlocks 16 i = i / 16 := by unfold numBlocks; omega
    have hnext : numBlocks 16 (i + 1) = i / 16 + 1 := by unfold numBlocks; omega
    rw [hblocks] at hcontext
    rw [if_pos (h.fresh hi), hcontext, hi]
    refine ⟨rfl, ?_, fun hfresh => by omega, fun _ => ⟨by simp; omega, ?_⟩⟩
    · simp only [increment_counter, hnext, Nat.add_assoc]
    · rw [show (i + 1) / 16 = i / 16 by omega]
  · obtain ⟨hbi, hbuffer⟩ := h.inside hi
    have hnext : numBlocks 16 (i + 1) = numBlocks 16 i := by unfold numBlocks; omega
    rw [if_neg (by omega)]
    simp only
    rw [hbi, hbuffer]
    refine ⟨rfl, ?_, fun hfresh => by simp only; omega, fun _ => ⟨by simp only; omega, ?_⟩⟩
    · rw [hnext, ← hcontext]
    · rw [show (i + 1) / 16 = i / 16 by omega]

theorem AtByte.loop {ctx : Ctx} {v i : Nat} {x : CtrState} (h : AtByte ctx v i x) (buf : List UInt8) :
    (transduce ctrTurn x buf).2 = xorFrom (keyStream ctx v) i buf ∧
      AtByte ctx v (i + buf.length) (transduce ctrTurn x buf).1 := by
  induction buf generalizing i x with
  | nil => exact ⟨rfl, h⟩
  | cons b buf ih =>
    obtain ⟨hbyte, hnext⟩ := h.turn b
    obtain ⟨hrest, hend⟩ := ih hnext
    rw [transduce_cons, List.length_cons, Nat.add_comm buf.length, ← Nat.add_assoc]
    exact ⟨List.cons_eq_cons.2 ⟨hbyte, hrest⟩, hend⟩

/-- **A call** goes through the key stream from the counter on. -/
theorem aesCtrXcryptBuffer_eq (stack : Block) (ctx : Ctx) (v : Nat) (buf : List UInt8) :
    aesCtrXcryptBuffer stack ⟨ctx, counter v⟩ buf =
      (⟨ctx, counter (v + numBlocks 16 buf.length)⟩, xorFrom (keyStream ctx v) 0 buf) := by
  have hstart : AtByte ctx v 0 ⟨⟨ctx, counter v⟩, stack, 16⟩ := ⟨rfl, fun _ => rfl, fun hne => absurd rfl hne⟩
  obtain ⟨hbytes, hend⟩ := hstart.loop buf
  have hcontext := hend.context
  rw [Nat.zero_add] at hcontext
  exact Prod.ext hcontext hbytes

/-! ### Any calls -/

/-- A buffer, and what the variable `buffer` of the function holds before. -/
structure CtrCall where
  buf : List UInt8
  stack : Block

def ctrCall (ctx : IvCtx) (call : CtrCall) : IvCtx × List UInt8 := aesCtrXcryptBuffer call.stack ctx call.buf

/-- A call that starts at block `k` of the key stream: what is left of its last block is not used. -/
def xorCall (ctx : Ctx) (v k : Nat) (call : CtrCall) : Nat × List UInt8 :=
  (k + numBlocks 16 call.buf.length, xorFrom (keyStream ctx v) (16 * k) call.buf)

theorem keyStream_add (ctx : Ctx) (v k : Nat) : keyStream ctx (v + k) = fun i => keyStream ctx v (16 * k + i) := by
  funext i
  unfold keyStream
  rw [Nat.mul_add_mod, Nat.mul_add_div (by decide), Nat.add_assoc]

/-- The context in front of block `k`. -/
def ctxAt (ctx : Ctx) (v k : Nat) : IvCtx := ⟨ctx, counter (v + k)⟩

theorem ctrCall_ctxAt (ctx : Ctx) (v k : Nat) (call : CtrCall) :
    ctrCall (ctxAt ctx v k) call = (ctxAt ctx v (xorCall ctx v k call).1, (xorCall ctx v k call).2) := by
  unfold ctrCall ctxAt
  rw [aesCtrXcryptBuffer_eq, keyStream_add, xorFrom_add, Nat.add_assoc]
  rfl

theorem ctrCalls_eq (ctx : IvCtx) (bufs : List CtrCall) :
    transduce ctrCall ctx bufs =
      let r := transduce (xorCall ctx.toCtx (counterValue ctx.iv)) 0 bufs
      (ctxAt ctx.toCtx (counterValue ctx.iv) r.1, r.2) := by
  have hstart : ctx = ctxAt ctx.toCtx (counterValue ctx.iv) 0 := by
    unfold ctxAt
    rw [Nat.add_zero, counter_counterValue]
  have hcalls := transduce_map (ctxAt ctx.toCtx (counterValue ctx.iv)) id id
    (ctrCall_ctxAt ctx.toCtx (counterValue ctx.iv)) 0 bufs
  rwa [List.map_id, List.map_id, ← hstart] at hcalls

/-- How many blocks of the key stream the calls use. -/
def blocksUsed (bufs : List CtrCall) : Nat := (bufs.map fun call => numBlocks 16 call.buf.length).sum

theorem xorCalls_fst (ctx : Ctx) (v k : Nat) (bufs : List CtrCall) :
    (transduce (xorCall ctx v) k bufs).1 = k + blocksUsed bufs := by
  induction bufs generalizing k with
  | nil => rfl
  | cons call bufs ih =>
    rw [transduce_cons, ih]
    simp [xorCall, blocksUsed, Nat.add_assoc]

/-- **Any calls of `AES_CTR_xcrypt_buffer`**: each one begins at the block of the key stream behind the last one that
    the calls before it have used, where block `i` is the cipher of `Iv` plus `i`, modulo 2 to the 128. -/
theorem ctr_calls (ctx : IvCtx) (bufs : List CtrCall) :
    (transduce ctrCall ctx bufs).1 = ⟨ctx.toCtx, counter (counterValue ctx.iv + blocksUsed bufs)⟩ ∧
      ∀ before call behind, bufs = before ++ call :: behind →
        (transduce ctrCall ctx bufs).2[before.length]? =
          some (xorFrom (keyStream ctx.toCtx (counterValue ctx.iv)) (16 * blocksUsed before) call.buf) := by
  rw [ctrCalls_eq]
  simp only [xorCalls_fst, Nat.zero_add]
  refine ⟨rfl, ?_⟩
  rintro before call behind rfl
  have hstart := xorCalls_fst ctx.toCtx (counterValue ctx.iv) 0 before
  rw [Nat.zero_add] at hstart
  rw [transduce_append, transduce_cons, hstart, List.getElem?_append_right (by rw [length_transduce]),
    length_transduce, Nat.sub_self]
  rfl

/-- No buffer but the last one ends inside of a block. -/
def WholeButLast (bufs : List CtrCall) : Prop := ∀ buf ∈ bufs.dropLast, 16 ∣ buf.buf.length

def callText (bufs : List CtrCall) : List UInt8 := (bufs.map CtrCall.buf).flatten

/-- Whole blocks make no gap in the key stream. -/
theorem xorCalls_whole (ctx : Ctx) (v k : Nat) {bufs : List CtrCall} (h : WholeButLast bufs) :
    (transduce (xorCall ctx v) k bufs).1 = k + numBlocks 16 (callText bufs).length ∧
      (transduce (xorCall ctx v) k bufs).2.flatten = xorFrom (keyStream ctx v) (16 * k) (callText bufs) := by
  induction bufs generalizing k with
  | nil => exact ⟨rfl, rfl⟩
  | cons buf bufs ih =>
    cases bufs with
    | nil =>
      simp only [callText, List.map_cons, List.map_nil, List.flatten_cons, List.flatten_nil, List.append_nil]
      exact ⟨rfl, List.append_nil _⟩
    | cons buf' bufs =>
      obtain ⟨n, hn⟩ := h buf List.mem_cons_self
      obtain ⟨hblocks, hbytes⟩ := ih (k + n) (fun b hb => h b (List.mem_cons_of_mem _ hb))
      have hcount : numBlocks 16 buf.buf.length = n := by
        rw [hn, Nat.mul_comm, numBlocks_mul (by decide)]
      have htext : callText (buf :: buf' :: bufs) = buf.buf ++ callText (buf' :: bufs) := rfl
      rw [transduce_cons, htext, List.length_append, List.flatten_cons]
      simp only [xorCall, hcount]
      rw [hblocks, hbytes, xorFrom_append, hn, Nat.mul_add]
      refine ⟨?_, rfl⟩
      unfold numBlocks
      omega

/-- They are one call. -/
theorem ctrCalls_whole (ctx : IvCtx) {bufs : List CtrCall} (h : WholeButLast bufs) :
    (transduce ctrCall ctx bufs).2.flatten = xorFrom (keyStream ctx.toCtx (counterValue ctx.iv)) 0 (callText bufs) ∧
      (transduce ctrCall ctx bufs).1 = ⟨ctx.toCtx, counter (counterValue ctx.iv + numBlocks 16 (callText bufs).length)⟩ := by
  obtain ⟨hblocks, hbytes⟩ := xorCalls_whole ctx.toCtx (counterValue ctx.iv) 0 h
  rw [ctrCalls_eq]
  simp only
  rw [hblocks, hbytes, Nat.zero_add]
  exact ⟨rfl, rfl⟩

/-- The results of calls, cut at the ends of other blocks. -/
theorem ctrCalls_recut (ctx : IvCtx) {bufs cuts : List CtrCall} (hbufs : WholeButLast bufs) (hcuts : WholeButLast cuts)
    (h : callText cuts = (transduce ctrCall ctx bufs).2.flatten) :
    (transduce ctrCall ctx cuts).2.flatten = callText bufs ∧
      (transduce ctrCall ctx cuts).1 = (transduce ctrCall ctx bufs).1 := by
  have hone := ctrCalls_whole ctx hbufs
  have hcut := ctrCalls_whole ctx hcuts
  rw [h, hone.1, xorFrom_xorFrom] at hcut
  refine ⟨hcut.1, ?_⟩
  rw [hcut.2, hone.2, length_xorFrom]

/-- `xorCall` on the buffer alone. -/
def xorBuf (ctx : Ctx) (v k : Nat) (buf : List UInt8) : Nat × List UInt8 :=
  (k + numBlocks 16 buf.length, xorFrom (keyStream ctx v) (16 * k) buf)

theorem xorBuf_xorBuf (ctx : Ctx) (v k : Nat) (buf : List UInt8) :
    xorBuf ctx v k (xorBuf ctx v k buf).2 = ((xorBuf ctx v k buf).1, buf) := by
  simp only [xorBuf, length_xorFrom, xorFrom_xorFrom]

/-- What calls do depends on their buffers only. -/
theorem ctrCalls_bufs (ctx : IvCtx) (bufs : List CtrCall) :
    transduce ctrCall ctx bufs =
      let r := transduce (xorBuf ctx.toCtx (counterValue ctx.iv)) 0 (bufs.map CtrCall.buf)
      (ctxAt ctx.toCtx (counterValue ctx.iv) r.1, r.2) := by
  have hmap := @transduce_map _ _ _ _ _ _ (xorCall ctx.toCtx (counterValue ctx.iv))
    (xorBuf ctx.toCtx (counterValue ctx.iv)) id CtrCall.buf id (fun _ _ => rfl) 0 bufs
  rw [List.map_id] at hmap
  rw [ctrCalls_eq, show (0 : Nat) = id 0 from rfl, hmap]
  rfl

/-- The results of calls, cut as they are. -/
theorem ctrCalls_undo (ctx : IvCtx) {bufs cuts : List CtrCall}
    (h : cuts.map CtrCall.buf = (transduce ctrCall ctx bufs).2) :
    transduce ctrCall ctx cuts = ((transduce ctrCall ctx bufs).1, bufs.map CtrCall.buf) := by
  rw [ctrCalls_bufs ctx bufs] at h ⊢
  simp only at h
  rw [ctrCalls_bufs ctx cuts, h, transduce_undo (xorBuf_xorBuf ctx.toCtx (counterValue ctx.iv))]

/-- **Calls of `AES_CTR_xcrypt_buffer` undo calls of it**: on the results of the first calls, one for one, they give
    every buffer back and leave the same `Iv`; and where calls end at the ends of blocks, so do calls that are cut at
    the ends of other blocks. -/
theorem ctr_calls_undo (ctx : IvCtx) (bufs cuts : List CtrCall) :
    (cuts.map CtrCall.buf = (transduce ctrCall ctx bufs).2 →
      transduce ctrCall ctx cuts = ((transduce ctrCall ctx bufs).1, bufs.map CtrCall.buf)) ∧
    (WholeButLast bufs → WholeButLast cuts → callText cuts = (transduce ctrCall ctx bufs).2.flatten →
      (transduce ctrCall ctx cuts).2.flatten = callText bufs ∧
        (transduce ctrCall ctx cuts).1 = (transduce ctrCall ctx bufs).1) :=
  ⟨ctrCalls_undo ctx, ctrCalls_recut ctx⟩

/-- Pieces of blocks. -/
def sampleCalls : List CtrCall := [⟨[1, 2, 3], .replicate 16 0⟩, ⟨[4], .replicate 16 0⟩]

theorem ctr_calls_undo_sample :
    let ctx := aesInitCtxIv (.replicate 16 0) (.replicate 16 0)
    let cuts := (transduce ctrCall ctx sampleCalls).2.map fun buf => ⟨buf, .replicate 16 1⟩
    transduce ctrCall ctx cuts = ((transduce ctrCall ctx sampleCalls).1, [[1, 2, 3], [4]]) := by
  intro ctx cuts
  have hbufs : cuts.map CtrCall.buf = (transduce ctrCall ctx sampleCalls).2 := by
    rw [List.map_map]
    exact List.map_id _
  exact (ctr_calls_undo ctx sampleCalls cuts).1 hbufs

end Rkx.Aes
