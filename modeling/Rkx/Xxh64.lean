import Rkx.Lib.Absorb
import Rkx.Lib.Bytes
import Rkx.Lib.Memory

/-!
# `XXH64` (`xxhash.h`)

The hash of a list of bytes, in one go and piece by piece.

* `xxh64`: `XXH64`; a read behind the input has no result;
* `xxh64Reset`, `xxh64Update`, `xxh64Digest`: the same over a state with a buffer of 32 bytes;
* `digest_eq_xxh64`: both say the same, however the input is cut.
-/

set_option autoImplicit false

namespace Rkx

open Lib.Absorb Lib.Bytes Lib.Memory

def XXH_PRIME64_1 : UInt64 := 0x9E3779B185EBCA87
def XXH_PRIME64_2 : UInt64 := 0xC2B2AE3D27D4EB4F
def XXH_PRIME64_3 : UInt64 := 0x165667B19E3779F9
def XXH_PRIME64_4 : UInt64 := 0x85EBCA77C2B2AE63
def XXH_PRIME64_5 : UInt64 := 0x27D4EB2F165667C5

/-- `XXH_rotl64` -/
def rotl64 (x r : UInt64) : UInt64 := (x <<< r) ||| (x >>> (64 - r))

/-- `XXH_readLE64` of the eight bytes at `m`. -/
def readLE64 (m : List UInt8) : UInt64 := UInt64.ofNat (ofLE (m.take 8))

/-- `XXH_readLE32` of the four bytes at `m`, as a `xxh_u64`. -/
def readLE32 (m : List UInt8) : UInt64 := UInt64.ofNat (ofLE (m.take 4))

/-- `XXH64_round` -/
def xxh64Round (acc input : UInt64) : UInt64 := rotl64 (acc + input * XXH_PRIME64_2) 31 * XXH_PRIME64_1

/-- `XXH64_mergeRound` -/
def xxh64MergeRound (acc val : UInt64) : UInt64 := (acc ^^^ xxh64Round 0 val) * XXH_PRIME64_1 + XXH_PRIME64_4

/-- `XXH64_avalanche` -/
def xxh64Avalanche (hash : UInt64) : UInt64 :=
  let hash := hash ^^^ (hash >>> 33)
  let hash := hash * XXH_PRIME64_2
  let hash := hash ^^^ (hash >>> 29)
  let hash := hash * XXH_PRIME64_3
  hash ^^^ (hash >>> 32)

/-! ## The last bytes -/

/-- A turn of `while (len >= 8)`, on the eight bytes at `ptr`. -/
def mixWord (hash : UInt64) (ptr : List UInt8) : UInt64 :=
  rotl64 (hash ^^^ xxh64Round 0 (readLE64 ptr)) 27 * XXH_PRIME64_1 + XXH_PRIME64_4

/-- `if (len >= 4)`, on the four bytes at `ptr`. -/
def mixHalf (hash : UInt64) (ptr : List UInt8) : UInt64 :=
  rotl64 (hash ^^^ readLE32 ptr * XXH_PRIME64_1) 23 * XXH_PRIME64_2 + XXH_PRIME64_3

/-- A turn of `while (len > 0)`. -/
def mixByte (hash : UInt64) (b : UInt8) : UInt64 := rotl64 (hash ^^^ b.toUInt64 * XXH_PRIME64_5) 11 * XXH_PRIME64_1

/-- So many turns of `while (len >= 8)`. -/
def mixWords : Nat → UInt64 → List UInt8 → UInt64 × List UInt8
  | 0, hash, ptr => (hash, ptr)
  | turns + 1, hash, ptr => mixWords turns (mixWord hash ptr) (ptr.drop 8)

/-- `XXH64_finalize`; without `len & 31` bytes at `ptr` there is no result. -/
def xxh64Finalize (hash : UInt64) (ptr : List UInt8) (len : Nat) : Option UInt64 :=
  let len := len % 32
  if len ≤ ptr.length then
    let (hash, ptr) := mixWords (len / 8) hash ptr
    let len := len % 8
    let (hash, ptr, len) := if 4 ≤ len then (mixHalf hash ptr, ptr.drop 4, len - 4) else (hash, ptr, len)
    some (xxh64Avalanche ((ptr.take len).foldl mixByte hash))
  else none

/-! ## The lanes -/

/-- `v1` to `v4`, and `state->v`. -/
structure Lanes where
  v1 : UInt64
  v2 : UInt64
  v3 : UInt64
  v4 : UInt64
  deriving DecidableEq

def Lanes.init (seed : UInt64) : Lanes where
  v1 := seed + XXH_PRIME64_1 + XXH_PRIME64_2
  v2 := seed + XXH_PRIME64_2
  v3 := seed + 0
  v4 := seed - XXH_PRIME64_1

/-- Four rounds, on the 32 bytes at `input`. -/
def Lanes.stripe (v : Lanes) (input : List UInt8) : Lanes where
  v1 := xxh64Round v.v1 (readLE64 input)
  v2 := xxh64Round v.v2 (readLE64 (input.drop 8))
  v3 := xxh64Round v.v3 (readLE64 (input.drop 16))
  v4 := xxh64Round v.v4 (readLE64 (input.drop 24))

def Lanes.merge (v : Lanes) : UInt64 :=
  let h64 := rotl64 v.v1 1 + rotl64 v.v2 7 + rotl64 v.v3 12 + rotl64 v.v4 18
  let h64 := xxh64MergeRound h64 v.v1
  let h64 := xxh64MergeRound h64 v.v2
  let h64 := xxh64MergeRound h64 v.v3
  xxh64MergeRound h64 v.v4

/-- `do … while (input < limit)` with `limit` 31 bytes in front of the end. -/
def stripeLoop (v : Lanes) (input : List UInt8) : Option (Lanes × List UInt8) :=
  if 32 ≤ input.length then
    if 31 < (input.drop 32).length then stripeLoop (v.stripe input) (input.drop 32)
    else some (v.stripe input, input.drop 32)
  else none
termination_by input.length
decreasing_by
  rw [List.length_drop]
  omega

/-- `XXH64` -/
def xxh64 (input : List UInt8) (seed : UInt64) : Option UInt64 := do
  let len := input.length
  let (h64, ptr) ←
    if 32 ≤ len then (stripeLoop (.init seed) input).map fun x => (x.1.merge, x.2)
    else some (seed + XXH_PRIME64_5, input)
  xxh64Finalize (h64 + UInt64.ofNat len) ptr len

/-! ## Streaming -/

/-- `struct XXH64_state_s` -/
structure Xxh64State where
  totalLen : UInt64
  v : Lanes
  mem64 : List UInt8
  memsize : Nat

/-- `XXH64_reset` -/
def xxh64Reset (seed : UInt64) : Xxh64State where
  totalLen := 0
  v := .init seed
  mem64 := List.replicate 32 0
  memsize := 0

/-- `do … while (p <= limit)` with `limit` 32 bytes in front of the end. -/
def updateLoop (v : Lanes) (p : List UInt8) : Option (Lanes × List UInt8) :=
  if 32 ≤ p.length then
    if 32 ≤ (p.drop 32).length then updateLoop (v.stripe p) (p.drop 32) else some (v.stripe p, p.drop 32)
  else none
termination_by p.length
decreasing_by
  rw [List.length_drop]
  omega

/-- `if (p+32 <= bEnd)` -/
def updateStripes (v : Lanes) (p : List UInt8) : Option (Lanes × List UInt8) :=
  if 32 ≤ p.length then updateLoop v p else some (v, p)

/-- `XXH64_update` from `if (p+32 <= bEnd)` on. -/
def updateRest (state : Xxh64State) (p : List UInt8) : Option Xxh64State := do
  let (v, p) ← updateStripes state.v p
  let state := { state with v }
  if p ≠ [] then
    let mem64 ← memcpy? state.mem64 0 p
    return { state with mem64, memsize := p.length }
  else return state

/-- `XXH64_update`, `none` for NULL; an access outside of the input or of `mem64` has no result. -/
def xxh64Update (state : Xxh64State) (input : Option (List UInt8)) : Option Xxh64State := do
  match input with
  | none => return state
  | some p =>
    let len := p.length
    let state := { state with totalLen := state.totalLen + UInt64.ofNat len }
    if state.memsize + len < 32 then
      let mem64 ← memcpy? state.mem64 state.memsize p
      return { state with mem64, memsize := state.memsize + len }
    else if state.memsize ≠ 0 then
      -- the buffer that is full
      let mem64 ← memcpy? state.mem64 state.memsize (p.take (32 - state.memsize))
      updateRest { state with mem64, v := state.v.stripe mem64, memsize := 0 } (p.drop (32 - state.memsize))
    else updateRest state p

/-- `XXH64_digest` -/
def xxh64Digest (state : Xxh64State) : Option UInt64 :=
  let h64 := if 32 ≤ state.totalLen.toNat then state.v.merge else state.v.v3 + XXH_PRIME64_5
  xxh64Finalize (h64 + state.totalLen) state.mem64 state.totalLen.toNat

example : xxh64 [] 0 = some 0xEF46DB3751D8E999 := by decide

/-! ## The last bytes in pieces -/

/-- Words, half a word if there is one, and single bytes. -/
def tailPieces (t : List UInt8) : List (List UInt8) :=
  if 8 ≤ t.length then t.take 8 :: tailPieces (t.drop 8)
  else if 4 ≤ t.length then t.take 4 :: (t.drop 4).map ([·])
  else t.map ([·])
termination_by t.length
decreasing_by
  rw [List.length_drop]
  omega

theorem tailPieces_word {t : List UInt8} (h : 8 ≤ t.length) : tailPieces t = t.take 8 :: tailPieces (t.drop 8) := by
  rw [tailPieces, if_pos h]

theorem tailPieces_half {t : List UInt8} (h : 4 ≤ t.length) (hlt : t.length < 8) :
    tailPieces t = t.take 4 :: (t.drop 4).map ([·]) := by
  rw [tailPieces, if_neg (Nat.not_le.2 hlt), if_pos h]

theorem tailPieces_bytes {t : List UInt8} (h : t.length < 4) : tailPieces t = t.map ([·]) := by
  rw [tailPieces, if_neg (by omega), if_neg (Nat.not_le.2 h)]

def mixPiece (hash : UInt64) (piece : List UInt8) : UInt64 :=
  if piece.length = 8 then mixWord hash piece
  else if piece.length = 4 then mixHalf hash piece
  else piece.foldl mixByte hash

theorem mixPiece_word {p : List UInt8} (hp : p.length = 8) (hash : UInt64) : mixPiece hash p = mixWord hash p :=
  if_pos hp

theorem mixPiece_half {p : List UInt8} (hp : p.length = 4) (hash : UInt64) : mixPiece hash p = mixHalf hash p := by
  rw [mixPiece, if_neg (by omega), if_pos hp]

theorem readLE64_take (m : List UInt8) {n : Nat} (hn : 8 ≤ n) : readLE64 (m.take n) = readLE64 m := by
  rw [readLE64, readLE64, List.take_take, Nat.min_eq_left hn]

theorem readLE32_take (m : List UInt8) {n : Nat} (hn : 4 ≤ n) : readLE32 (m.take n) = readLE32 m := by
  rw [readLE32, readLE32, List.take_take, Nat.min_eq_left hn]

theorem mixWord_take (hash : UInt64) (m : List UInt8) {n : Nat} (hn : 8 ≤ n) :
    mixWord hash (m.take n) = mixWord hash m := by
  rw [mixWord, mixWord, readLE64_take m hn]

theorem mixHalf_take (hash : UInt64) (m : List UInt8) {n : Nat} (hn : 4 ≤ n) :
    mixHalf hash (m.take n) = mixHalf hash m := by
  rw [mixHalf, mixHalf, readLE32_take m hn]

theorem foldl_mixPiece_bytes (hash : UInt64) (t : List UInt8) :
    (t.map ([·])).foldl mixPiece hash = t.foldl mixByte hash := by
  induction t generalizing hash with
  | nil => rfl
  | cons b t ih => exact ih (mixByte hash b)

/-- What `XXH64_finalize` does behind its words. -/
def mixRest (hash : UInt64) (ptr : List UInt8) (len : Nat) : UInt64 :=
  let x := if 4 ≤ len then (mixHalf hash ptr, ptr.drop 4, len - 4) else (hash, ptr, len)
  (x.2.1.take x.2.2).foldl mixByte x.1

theorem xxh64Finalize_eq {hash : UInt64} {ptr : List UInt8} {len : Nat} (h : len % 32 ≤ ptr.length) :
    xxh64Finalize hash ptr len =
      some (xxh64Avalanche (mixRest (mixWords (len % 32 / 8) hash ptr).1 (mixWords (len % 32 / 8) hash ptr).2
        (len % 32 % 8))) :=
  if_pos h

theorem mixRest_pieces {hash : UInt64} {ptr : List UInt8} {len : Nat} (hlen : len < 8) (h : len ≤ ptr.length) :
    mixRest hash ptr len = (tailPieces (ptr.take len)).foldl mixPiece hash := by
  have htake : (ptr.take len).length = len := List.length_take_of_le h
  unfold mixRest
  by_cases hfour : 4 ≤ len
  · have hhalf : (ptr.take 4).length = 4 := List.length_take_of_le (by omega)
    have hpieces := tailPieces_half (t := ptr.take len) (by omega) (by omega)
    rw [List.take_take, Nat.min_eq_left hfour, List.drop_take] at hpieces
    rw [hpieces, List.foldl_cons, foldl_mixPiece_bytes, mixPiece_half hhalf, mixHalf_take hash ptr (Nat.le_refl 4),
      if_pos hfour]
  · rw [tailPieces_bytes (t := ptr.take len) (by omega), foldl_mixPiece_bytes, if_neg hfour]

theorem mixWords_pieces (turns : Nat) {hash : UInt64} {ptr : List UInt8} {len : Nat} (hlen : len < 8)
    (h : 8 * turns + len ≤ ptr.length) :
    mixRest (mixWords turns hash ptr).1 (mixWords turns hash ptr).2 len =
      (tailPieces (ptr.take (8 * turns + len))).foldl mixPiece hash := by
  induction turns generalizing hash ptr with
  | zero =>
    rw [Nat.mul_zero, Nat.zero_add] at h ⊢
    exact mixRest_pieces hlen h
  | succ turns ih =>
    have htake : (ptr.take (8 * (turns + 1) + len)).length = 8 * (turns + 1) + len := List.length_take_of_le h
    have hword : (ptr.take 8).length = 8 := List.length_take_of_le (by omega)
    have hpieces := tailPieces_word (t := ptr.take (8 * (turns + 1) + len)) (by omega)
    rw [List.take_take, Nat.min_eq_left (by omega), List.drop_take,
      show 8 * (turns + 1) + len - 8 = 8 * turns + len by omega] at hpieces
    rw [mixWords, ih (by rw [List.length_drop]; omega), hpieces, List.foldl_cons, mixPiece_word hword,
      mixWord_take hash ptr (Nat.le_refl 8)]

/-- **The last bytes** piece by piece. -/
theorem xxh64Finalize_pieces {hash : UInt64} {ptr : List UInt8} {len : Nat} (h : len % 32 ≤ ptr.length) :
    xxh64Finalize hash ptr len =
      some (xxh64Avalanche ((tailPieces (ptr.take (len % 32))).foldl mixPiece hash)) := by
  have hsum := Nat.div_add_mod (len % 32) 8
  rw [xxh64Finalize_eq h, mixWords_pieces (len % 32 / 8) (Nat.mod_lt _ (by decide)) (by omega), hsum]

/-! ## The stripes -/

/-- The lanes behind the whole stripes of an input, and what is left of it. -/
def absorbed (seed : UInt64) (l : List UInt8) : Lanes × List UInt8 := absorb 32 Lanes.stripe (.init seed, []) l

theorem length_absorbed (seed : UInt64) (l : List UInt8) : (absorbed seed l).2.length = l.length % 32 := by
  rw [absorbed, length_absorb _ (Nat.zero_lt_succ 31), List.length_nil, Nat.zero_add]

theorem absorbed_of_lt (seed : UInt64) {l : List UInt8} (h : l.length < 32) : absorbed seed l = (.init seed, l) :=
  absorb_fits (r := []) (by simpa using h)

theorem stripe_take (v : Lanes) (p : List UInt8) : v.stripe (p.take 32) = v.stripe p := by
  unfold Lanes.stripe
  rw [List.drop_take, List.drop_take, List.drop_take, readLE64_take p (by decide), readLE64_take _ (by decide),
    readLE64_take _ (by decide), readLE64_take _ (by decide)]

/-- The stripe at the start of the input. -/
theorem absorb_stripe (v : Lanes) {p : List UInt8} (h : 32 ≤ p.length) :
    absorb 32 Lanes.stripe (v, []) p = absorb 32 Lanes.stripe (v.stripe p, []) (p.drop 32) := by
  have htake : (p.take 32).length = 32 := List.length_take_of_le h
  have hne : p.take 32 ≠ [] := List.ne_nil_of_length_pos (by omega)
  have hblock : absorb 32 Lanes.stripe (v, []) (p.take 32) = _ := absorb_block hne (by simpa using htake)
  rw [List.nil_append, stripe_take] at hblock
  rw [← hblock, ← absorb_append, List.take_append_drop]

theorem updateLoop_eq (v : Lanes) {p : List UInt8} (h : 32 ≤ p.length) :
    updateLoop v p = some (absorb 32 Lanes.stripe (v, []) p) := by
  induction hn : p.length using Nat.strongRecOn generalizing v p with
  | ind n ih =>
    have hdrop := List.length_drop (i := 32) (l := p)
    rw [updateLoop, if_pos h, absorb_stripe v h]
    split
    · exact ih (p.drop 32).length (by omega) (v.stripe p) ‹_› rfl
    · rename_i hlast
      exact congrArg some (absorb_fits (r := []) (by simpa using hlast)).symm

theorem updateStripes_eq (v : Lanes) (p : List UInt8) :
    updateStripes v p = some (absorb 32 Lanes.stripe (v, []) p) := by
  unfold updateStripes
  split
  · exact updateLoop_eq v ‹_›
  · rename_i h
    exact congrArg some (absorb_fits (r := []) (by simpa using h)).symm

/-- Both loops stop in front of the same byte. -/
theorem stripeLoop_eq (v : Lanes) {p : List UInt8} (h : 32 ≤ p.length) : stripeLoop v p = updateLoop v p := by
  induction hn : p.length using Nat.strongRecOn generalizing v p with
  | ind n ih =>
    have hdrop := List.length_drop (i := 32) (l := p)
    rw [updateLoop, stripeLoop, if_pos h, if_pos h]
    by_cases hlast : 32 ≤ (p.drop 32).length
    · rw [if_pos hlast, if_pos (Nat.lt_of_succ_le hlast)]
      exact ih (p.drop 32).length (by omega) (v.stripe p) hlast rfl
    · rw [if_neg hlast, if_neg fun h => hlast (Nat.succ_le_of_lt h)]

/-- The hash of an input of `len` bytes from its lanes and the bytes left. -/
def hashOf (seed : UInt64) (len : Nat) (x : Lanes × List UInt8) : UInt64 :=
  xxh64Avalanche ((tailPieces x.2).foldl mixPiece
    ((if 32 ≤ len then x.1.merge else seed + XXH_PRIME64_5) + UInt64.ofNat len))

/-- **The hash** never reads behind the input. -/
theorem xxh64_eq (l : List UInt8) (seed : UInt64) : xxh64 l seed = some (hashOf seed l.length (absorbed seed l)) := by
  have hlen := length_absorbed seed l
  have htake : (absorbed seed l).2.take (l.length % 32) = (absorbed seed l).2 := List.take_of_length_le (Nat.le_of_eq hlen)
  unfold xxh64 hashOf
  by_cases hlong : 32 ≤ l.length
  · have hloop : stripeLoop (.init seed) l = some (absorbed seed l) := by
      rw [stripeLoop_eq _ hlong, updateLoop_eq _ hlong, absorbed]
    simp only [if_pos hlong, hloop, Option.map_some, Option.bind_eq_bind, Option.bind_some]
    rw [xxh64Finalize_pieces (Nat.le_of_eq hlen.symm), htake]
  · have hshort := absorbed_of_lt seed (Nat.not_le.1 hlong)
    rw [hshort] at htake
    simp only [if_neg hlong, Option.bind_eq_bind, Option.bind_some, hshort]
    rw [xxh64Finalize_pieces (Nat.mod_le _ _), htake]

/-! ## The stream -/

/-- The state holds the lanes, and in its buffer the bytes that are collected. -/
structure Buffers (x : Lanes × List UInt8) (state : Xxh64State) : Prop where
  lanes : state.v = x.1
  size : state.mem64.length = 32
  memsize : state.memsize = x.2.length
  mem : state.mem64.take state.memsize = x.2

theorem updateRest_buffers {state : Xxh64State} (hsize : state.mem64.length = 32) (hmemsize : state.memsize = 0)
    (p : List UInt8) :
    ∃ state', updateRest state p = some state' ∧ state'.totalLen = state.totalLen ∧
      Buffers (absorb 32 Lanes.stripe (state.v, []) p) state' := by
  have hlt : (absorb 32 Lanes.stripe (state.v, []) p).2.length < 32 := by
    rw [length_absorb _ (Nat.zero_lt_succ 31)]
    exact Nat.mod_lt _ (by decide)
  unfold updateRest
  rw [updateStripes_eq]
  generalize absorb 32 Lanes.stripe (state.v, []) p = x at hlt
  obtain ⟨v, r⟩ := x
  simp only [Option.bind_eq_bind, Option.bind_some]
  by_cases hr : r = []
  · rw [if_neg (not_not.2 hr), hr]
    exact ⟨_, rfl, rfl, rfl, hsize, hmemsize, by simp [hmemsize]⟩
  · obtain ⟨mem64, hmem, hlen, htake⟩ := memcpy?_take (m := state.mem64) (l := r) (i := 0) (n := 32) (by simp only at hlt; omega) hsize
    rw [if_pos hr, hmem]
    rw [Nat.zero_add] at htake
    exact ⟨_, rfl, rfl, rfl, hlen, rfl, htake⟩

/-- **An update** goes on from what is collected. -/
theorem Buffers.update {v : Lanes} {r : List UInt8} {state : Xxh64State} (h : Buffers (v, r) state) (hr : r.length < 32)
    (p : List UInt8) :
    ∃ state', xxh64Update state (some p) = some state' ∧
      state'.totalLen = state.totalLen + UInt64.ofNat p.length ∧
      Buffers (absorb 32 Lanes.stripe (v, r) p) state' := by
  have hmemsize : state.memsize = r.length := h.memsize
  have hv : state.v = v := h.lanes
  have htaken : state.mem64.take state.memsize = r := h.mem
  unfold xxh64Update
  simp only
  by_cases hfits : state.memsize + p.length < 32
  · obtain ⟨mem64, hmem, hlen, htake⟩ := memcpy?_take (m := state.mem64) (i := state.memsize) (Nat.le_of_lt hfits) h.size
    rw [if_pos hfits, hmem, absorb_fits (by omega)]
    refine ⟨_, rfl, rfl, hv, hlen, ?_, ?_⟩
    · simp [hmemsize]
    · rw [htake, htaken]
  · rw [if_neg hfits]
    by_cases hempty : state.memsize = 0
    · rw [if_neg (not_not.2 hempty), List.length_eq_zero_iff.1 (hmemsize.symm.trans hempty), ← hv]
      exact @updateRest_buffers { state with totalLen := state.totalLen + UInt64.ofNat p.length } h.size hempty p
    · have hlenq : (p.take (32 - state.memsize)).length = 32 - state.memsize := List.length_take_of_le (by omega)
      obtain ⟨mem64, hmem, hlen, htake⟩ := memcpy?_take (m := state.mem64) (l := p.take (32 - state.memsize))
        (i := state.memsize) (n := 32) (by omega) h.size
      rw [htaken, hlenq, show state.memsize + (32 - state.memsize) = 32 by omega,
        List.take_of_length_le (Nat.le_of_eq hlen)] at htake
      have hblock : absorb 32 Lanes.stripe (v, r) p =
          absorb 32 Lanes.stripe (v.stripe mem64, []) (p.drop (32 - state.memsize)) := by
        have hfull : absorb 32 Lanes.stripe (v, r) (p.take (32 - state.memsize)) = (v.stripe mem64, []) := by
          rw [htake]
          exact absorb_block (List.ne_nil_of_length_pos (by omega)) (by omega)
        rw [← hfull, ← absorb_append, List.take_append_drop]
      rw [if_pos hempty, hmem, hblock, ← hv]
      exact updateRest_buffers hlen rfl _

/-- What the state holds behind the bytes `l`. -/
structure Collects (seed : UInt64) (l : List UInt8) (state : Xxh64State) : Prop where
  totalLen : state.totalLen = UInt64.ofNat l.length
  buffers : Buffers (absorbed seed l) state

theorem collects_reset (seed : UInt64) : Collects seed [] (xxh64Reset seed) := ⟨rfl, rfl, rfl, rfl, rfl⟩

theorem Collects.update {seed : UInt64} {l : List UInt8} {state : Xxh64State} (h : Collects seed l state)
    (input : Option (List UInt8)) :
    ∃ state', xxh64Update state input = some state' ∧ Collects seed (l ++ input.getD []) state' := by
  cases input with
  | none => exact ⟨state, rfl, by rwa [Option.getD_none, List.append_nil]⟩
  | some p =>
    have hlt : (absorbed seed l).2.length < 32 := by
      rw [length_absorbed]
      exact Nat.mod_lt _ (by decide)
    obtain ⟨state', hupdate, htotal, hbuffers⟩ := h.buffers.update hlt p
    refine ⟨state', hupdate, ?_, ?_⟩
    · rw [htotal, h.totalLen, Option.getD_some, List.length_append, UInt64.ofNat_add]
    · rw [Option.getD_some, absorbed, absorb_append]
      exact hbuffers

theorem Collects.digest {seed : UInt64} {l : List UInt8} {state : Xxh64State} (h : Collects seed l state)
    (hlen : l.length < 2 ^ 64) : xxh64Digest state = xxh64 l seed := by
  have htotal : state.totalLen.toNat = l.length := by
    rw [h.totalLen, UInt64.toNat_ofNat']
    exact Nat.mod_eq_of_lt hlen
  have hrest := length_absorbed seed l
  have hmem : state.mem64.take (l.length % 32) = (absorbed seed l).2 := by
    rw [← hrest, ← h.buffers.memsize, h.buffers.mem]
  have hfits : l.length % 32 ≤ state.mem64.length := by
    rw [h.buffers.size]
    exact Nat.le_of_lt (Nat.mod_lt _ (by decide))
  rw [xxh64_eq, xxh64Digest, htotal, h.totalLen, xxh64Finalize_pieces hfits, hmem, h.buffers.lanes, hashOf]
  by_cases hlong : 32 ≤ l.length
  · rw [if_pos hlong, if_pos hlong]
  · have hseed : (absorbed seed l).1.v3 = seed := by
      rw [absorbed_of_lt seed (Nat.not_le.1 hlong)]
      exact UInt64.add_zero seed
    rw [if_neg hlong, if_neg hlong, hseed]

/-- **However the input is cut** into updates, the digest is the hash of the whole, and every access is inside of the
    pieces and of the buffer. -/
theorem digest_eq_xxh64 (seed : UInt64) {pieces : List (Option (List UInt8))}
    (hlen : (pieces.flatMap (·.getD [])).length < 2 ^ 64) :
    ∃ state hash, pieces.foldlM xxh64Update (xxh64Reset seed) = some state ∧ xxh64Digest state = some hash ∧
      xxh64 (pieces.flatMap (·.getD [])) seed = some hash := by
  have hrun : ∀ (pieces : List (Option (List UInt8))) (l : List UInt8) (state : Xxh64State), Collects seed l state →
      ∃ state', pieces.foldlM xxh64Update state = some state' ∧
        Collects seed (l ++ pieces.flatMap (·.getD [])) state' := by
    intro pieces
    induction pieces with
    | nil =>
      intro l state h
      exact ⟨state, rfl, by rwa [List.flatMap_nil, List.append_nil]⟩
    | cons input pieces ih =>
      intro l state h
      obtain ⟨state₁, hupdate, h₁⟩ := h.update input
      obtain ⟨state', hrest, h'⟩ := ih _ _ h₁
      refine ⟨state', ?_, by rwa [List.flatMap_cons, ← List.append_assoc]⟩
      rw [List.foldlM_cons, hupdate]
      exact hrest
  obtain ⟨state, hstate, hcollects⟩ := hrun pieces [] _ (collects_reset seed)
  rw [List.nil_append] at hcollects
  exact ⟨state, _, hstate, (hcollects.digest hlen).trans (xxh64_eq _ _), xxh64_eq _ _⟩

/-- Three updates, the last one over the end of the buffer. -/
theorem digest_eq_xxh64_pieces :
    ∃ state hash, [some [1, 2], none, some (List.replicate 40 3)].foldlM xxh64Update (xxh64Reset 7) = some state ∧
      xxh64Digest state = some hash ∧ xxh64 ([1, 2] ++ List.replicate 40 3) 7 = some hash :=
  @digest_eq_xxh64 7 [some [1, 2], none, some (List.replicate 40 3)] (by decide)

end Rkx
