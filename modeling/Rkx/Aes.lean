import Mathlib.Data.Fintype.Basic
import Mathlib.Data.Fintype.Prod
import Mathlib.Data.Fintype.Card

/-!
# The block cipher (`aes.c`, AES-128, ECB entry points)

Transcription of the functions of `aes.c` that the file commands reach:

* `keyExpansion`: the key schedule, `RoundKey[176]` filled word by word;
* `cipher` / `invCipher`: the ten rounds over `state_t`, with `subBytes`, `shiftRows`,
  `mixColumns`, `addRoundKey` and their inverses;
* `aesEcbEncrypt` / `aesEcbDecrypt`: the public functions on a 16-byte buffer.

`state_t` is `uint8_t[4][4]` laid over the buffer, so `state[i]` is the `i`-th group of four
bytes: `State` is four `Word`s.
-/

set_option autoImplicit false

namespace Rkx.Aes

/-- A buffer of `AES_BLOCKLEN` bytes. -/
abbrev Block := Vector UInt8 16

/-- The `AES_KEYLEN` bytes that `KeyExpansion` reads at its key pointer. -/
abbrev Key := Vector UInt8 16

def Nb : Nat := 4
def Nk : Nat := 4
def Nr : Nat := 10

def sbox : Vector (Vector UInt8 16) 16 := #v[
  #v[0x63, 0x7c, 0x77, 0x7b, 0xf2, 0x6b, 0x6f, 0xc5, 0x30, 0x01, 0x67, 0x2b, 0xfe, 0xd7, 0xab, 0x76],
  #v[0xca, 0x82, 0xc9, 0x7d, 0xfa, 0x59, 0x47, 0xf0, 0xad, 0xd4, 0xa2, 0xaf, 0x9c, 0xa4, 0x72, 0xc0],
  #v[0xb7, 0xfd, 0x93, 0x26, 0x36, 0x3f, 0xf7, 0xcc, 0x34, 0xa5, 0xe5, 0xf1, 0x71, 0xd8, 0x31, 0x15],
  #v[0x04, 0xc7, 0x23, 0xc3, 0x18, 0x96, 0x05, 0x9a, 0x07, 0x12, 0x80, 0xe2, 0xeb, 0x27, 0xb2, 0x75],
  #v[0x09, 0x83, 0x2c, 0x1a, 0x1b, 0x6e, 0x5a, 0xa0, 0x52, 0x3b, 0xd6, 0xb3, 0x29, 0xe3, 0x2f, 0x84],
  #v[0x53, 0xd1, 0x00, 0xed, 0x20, 0xfc, 0xb1, 0x5b, 0x6a, 0xcb, 0xbe, 0x39, 0x4a, 0x4c, 0x58, 0xcf],
  #v[0xd0, 0xef, 0xaa, 0xfb, 0x43, 0x4d, 0x33, 0x85, 0x45, 0xf9, 0x02, 0x7f, 0x50, 0x3c, 0x9f, 0xa8],
  #v[0x51, 0xa3, 0x40, 0x8f, 0x92, 0x9d, 0x38, 0xf5, 0xbc, 0xb6, 0xda, 0x21, 0x10, 0xff, 0xf3, 0xd2],
  #v[0xcd, 0x0c, 0x13, 0xec, 0x5f, 0x97, 0x44, 0x17, 0xc4, 0xa7, 0x7e, 0x3d, 0x64, 0x5d, 0x19, 0x73],
  #v[0x60, 0x81, 0x4f, 0xdc, 0x22, 0x2a, 0x90, 0x88, 0x46, 0xee, 0xb8, 0x14, 0xde, 0x5e, 0x0b, 0xdb],
  #v[0xe0, 0x32, 0x3a, 0x0a, 0x49, 0x06, 0x24, 0x5c, 0xc2, 0xd3, 0xac, 0x62, 0x91, 0x95, 0xe4, 0x79],
  #v[0xe7, 0xc8, 0x37, 0x6d, 0x8d, 0xd5, 0x4e, 0xa9, 0x6c, 0x56, 0xf4, 0xea, 0x65, 0x7a, 0xae, 0x08],
  #v[0xba, 0x78, 0x25, 0x2e, 0x1c, 0xa6, 0xb4, 0xc6, 0xe8, 0xdd, 0x74, 0x1f, 0x4b, 0xbd, 0x8b, 0x8a],
  #v[0x70, 0x3e, 0xb5, 0x66, 0x48, 0x03, 0xf6, 0x0e, 0x61, 0x35, 0x57, 0xb9, 0x86, 0xc1, 0x1d, 0x9e],
  #v[0xe1, 0xf8, 0x98, 0x11, 0x69, 0xd9, 0x8e, 0x94, 0x9b, 0x1e, 0x87, 0xe9, 0xce, 0x55, 0x28, 0xdf],
  #v[0x8c, 0xa1, 0x89, 0x0d, 0xbf, 0xe6, 0x42, 0x68, 0x41, 0x99, 0x2d, 0x0f, 0xb0, 0x54, 0xbb, 0x16]]

def rsbox : Vector (Vector UInt8 16) 16 := #v[
  #v[0x52, 0x09, 0x6a, 0xd5, 0x30, 0x36, 0xa5, 0x38, 0xbf, 0x40, 0xa3, 0x9e, 0x81, 0xf3, 0xd7, 0xfb],
  #v[0x7c, 0xe3, 0x39, 0x82, 0x9b, 0x2f, 0xff, 0x87, 0x34, 0x8e, 0x43, 0x44, 0xc4, 0xde, 0xe9, 0xcb],
  #v[0x54, 0x7b, 0x94, 0x32, 0xa6, 0xc2, 0x23, 0x3d, 0xee, 0x4c, 0x95, 0x0b, 0x42, 0xfa, 0xc3, 0x4e],
  #v[0x08, 0x2e, 0xa1, 0x66, 0x28, 0xd9, 0x24, 0xb2, 0x76, 0x5b, 0xa2, 0x49, 0x6d, 0x8b, 0xd1, 0x25],
  #v[0x72, 0xf8, 0xf6, 0x64, 0x86, 0x68, 0x98, 0x16, 0xd4, 0xa4, 0x5c, 0xcc, 0x5d, 0x65, 0xb6, 0x92],
  #v[0x6c, 0x70, 0x48, 0x50, 0xfd, 0xed, 0xb9, 0xda, 0x5e, 0x15, 0x46, 0x57, 0xa7, 0x8d, 0x9d, 0x84],
  #v[0x90, 0xd8, 0xab, 0x00, 0x8c, 0xbc, 0xd3, 0x0a, 0xf7, 0xe4, 0x58, 0x05, 0xb8, 0xb3, 0x45, 0x06],
  #v[0xd0, 0x2c, 0x1e, 0x8f, 0xca, 0x3f, 0x0f, 0x02, 0xc1, 0xaf, 0xbd, 0x03, 0x01, 0x13, 0x8a, 0x6b],
  #v[0x3a, 0x91, 0x11, 0x41, 0x4f, 0x67, 0xdc, 0xea, 0x97, 0xf2, 0xcf, 0xce, 0xf0, 0xb4, 0xe6, 0x73],
  #v[0x96, 0xac, 0x74, 0x22, 0xe7, 0xad, 0x35, 0x85, 0xe2, 0xf9, 0x37, 0xe8, 0x1c, 0x75, 0xdf, 0x6e],
  #v[0x47, 0xf1, 0x1a, 0x71, 0x1d, 0x29, 0xc5, 0x89, 0x6f, 0xb7, 0x62, 0x0e, 0xaa, 0x18, 0xbe, 0x1b],
  #v[0xfc, 0x56, 0x3e, 0x4b, 0xc6, 0xd2, 0x79, 0x20, 0x9a, 0xdb, 0xc0, 0xfe, 0x78, 0xcd, 0x5a, 0xf4],
  #v[0x1f, 0xdd, 0xa8, 0x33, 0x88, 0x07, 0xc7, 0x31, 0xb1, 0x12, 0x10, 0x59, 0x27, 0x80, 0xec, 0x5f],
  #v[0x60, 0x51, 0x7f, 0xa9, 0x19, 0xb5, 0x4a, 0x0d, 0x2d, 0xe5, 0x7a, 0x9f, 0x93, 0xc9, 0x9c, 0xef],
  #v[0xa0, 0xe0, 0x3b, 0x4d, 0xae, 0x2a, 0xf5, 0xb0, 0xc8, 0xeb, 0xbb, 0x3c, 0x83, 0x53, 0x99, 0x61],
  #v[0x17, 0x2b, 0x04, 0x7e, 0xba, 0x77, 0xd6, 0x26, 0xe1, 0x69, 0x14, 0x63, 0x55, 0x21, 0x0c, 0x7d]]

def Rcon : Vector UInt8 11 := #v[
  0x8d, 0x01, 0x02, 0x04, 0x08, 0x10, 0x20, 0x40, 0x80, 0x1b, 0x36]

/-- `table[num]` of a 256-byte table kept in the sixteen rows of its initialiser. -/
def tableGet (table : Vector (Vector UInt8 16) 16) (num : UInt8) : UInt8 :=
  (table.get (Fin.ofNat 16 (num.toNat / 16))).get (Fin.ofNat 16 num.toNat)

def getSBoxValue (num : UInt8) : UInt8 := tableGet sbox num

def getSBoxInvert (num : UInt8) : UInt8 := tableGet rsbox num

/-- Four bytes: `tempa` of the key schedule, one `state[i]` of the cipher. -/
@[ext] structure Word where
  b0 : UInt8
  b1 : UInt8
  b2 : UInt8
  b3 : UInt8
  deriving DecidableEq, Repr

/-- `state_t`. -/
@[ext] structure State where
  c0 : Word
  c1 : Word
  c2 : Word
  c3 : Word
  deriving DecidableEq, Repr

def Word.map (f : UInt8 → UInt8) (w : Word) : Word := ⟨f w.b0, f w.b1, f w.b2, f w.b3⟩

def State.map (f : Word → Word) (s : State) : State := ⟨f s.c0, f s.c1, f s.c2, f s.c3⟩

/-! ## Key schedule -/

/-- `RotWord()`: `[a0, a1, a2, a3]` becomes `[a1, a2, a3, a0]`. -/
def rotWord (w : Word) : Word := ⟨w.b1, w.b2, w.b3, w.b0⟩

/-- `SubWord()`. -/
def subWord (w : Word) : Word := w.map getSBoxValue

def Word.xor (v w : Word) : Word :=
  ⟨v.b0 ^^^ w.b0, v.b1 ^^^ w.b1, v.b2 ^^^ w.b2, v.b3 ^^^ w.b3⟩

/-- `RoundKey[AES_keyExpSize]`, every access to which is to one of its four-byte words:
    `RoundKey[4 * i + j]` is byte `j` of word `i`. -/
abbrev RoundKey := List Word

def RoundKey.word (roundKey : RoundKey) (i : Nat) : Word := roundKey.getD i ⟨0, 0, 0, 0⟩

/-- One iteration of the second loop of `KeyExpansion`; words `0 .. i - 1` are filled. -/
def keyExpansionStep (roundKey : RoundKey) (i : Nat) : RoundKey :=
  let tempa := roundKey.word (i - 1)
  let tempa :=
    if i % Nk = 0 then
      let t := subWord (rotWord tempa)
      { t with b0 := t.b0 ^^^ Rcon.getD (i / Nk) 0 }
    else tempa
  roundKey ++ [(roundKey.word (i - Nk)).xor tempa]

/-- The first loop of `KeyExpansion`: the first round key is the key itself. -/
def keyWords (key : Key) : RoundKey :=
  [⟨key[0], key[1], key[2], key[3]⟩, ⟨key[4], key[5], key[6], key[7]⟩,
   ⟨key[8], key[9], key[10], key[11]⟩, ⟨key[12], key[13], key[14], key[15]⟩]

/-- `KeyExpansion`: all other round keys are found from the previous round keys. -/
def keyExpansion (key : Key) : RoundKey :=
  (List.range' Nk (Nb * (Nr + 1) - Nk)).foldl keyExpansionStep (keyWords key)

/-! ## Cipher and inverse cipher -/

/-- `state[i][j] ^= RoundKey[(round * Nb * 4) + (i * Nb) + j]`. -/
def addRoundKey (round : Nat) (s : State) (roundKey : RoundKey) : State :=
  ⟨s.c0.xor (roundKey.word (round * Nb + 0)), s.c1.xor (roundKey.word (round * Nb + 1)),
   s.c2.xor (roundKey.word (round * Nb + 2)), s.c3.xor (roundKey.word (round * Nb + 3))⟩

def subBytes (s : State) : State := s.map (Word.map getSBoxValue)

def invSubBytes (s : State) : State := s.map (Word.map getSBoxInvert)

/-- Row `r` (byte `r` of every word) moves `r` words to the left. -/
def shiftRows (s : State) : State :=
  ⟨⟨s.c0.b0, s.c1.b1, s.c2.b2, s.c3.b3⟩,
   ⟨s.c1.b0, s.c2.b1, s.c3.b2, s.c0.b3⟩,
   ⟨s.c2.b0, s.c3.b1, s.c0.b2, s.c1.b3⟩,
   ⟨s.c3.b0, s.c0.b1, s.c1.b2, s.c2.b3⟩⟩

/-- Row `r` moves `r` words to the right. -/
def invShiftRows (s : State) : State :=
  ⟨⟨s.c0.b0, s.c3.b1, s.c2.b2, s.c1.b3⟩,
   ⟨s.c1.b0, s.c0.b1, s.c3.b2, s.c2.b3⟩,
   ⟨s.c2.b0, s.c1.b1, s.c0.b2, s.c3.b3⟩,
   ⟨s.c3.b0, s.c2.b1, s.c1.b2, s.c0.b3⟩⟩

def xtime (x : UInt8) : UInt8 := (x <<< 1) ^^^ ((x >>> 7 &&& (1 : UInt8)) * 0x1b)

/-- The loop body of `MixColumns` on `state[i]`. -/
def mixColumn (w : Word) : Word :=
  let t := w.b0
  let tmp := w.b0 ^^^ w.b1 ^^^ w.b2 ^^^ w.b3
  ⟨w.b0 ^^^ (xtime (w.b0 ^^^ w.b1) ^^^ tmp),
   w.b1 ^^^ (xtime (w.b1 ^^^ w.b2) ^^^ tmp),
   w.b2 ^^^ (xtime (w.b2 ^^^ w.b3) ^^^ tmp),
   w.b3 ^^^ (xtime (w.b3 ^^^ t) ^^^ tmp)⟩

def mixColumns (s : State) : State := s.map mixColumn

/-- The macro `Multiply(x, y)`. -/
def multiply (x y : UInt8) : UInt8 :=
  ((y &&& (1 : UInt8)) * x) ^^^
  ((y >>> 1 &&& (1 : UInt8)) * xtime x) ^^^
  ((y >>> 2 &&& (1 : UInt8)) * xtime (xtime x)) ^^^
  ((y >>> 3 &&& (1 : UInt8)) * xtime (xtime (xtime x))) ^^^
  ((y >>> 4 &&& (1 : UInt8)) * xtime (xtime (xtime (xtime x))))

/-- The loop body of `InvMixColumns` on `state[i]`. -/
def invMixColumn (w : Word) : Word :=
  let a := w.b0
  let b := w.b1
  let c := w.b2
  let d := w.b3
  ⟨multiply a 0x0e ^^^ multiply b 0x0b ^^^ multiply c 0x0d ^^^ multiply d 0x09,
   multiply a 0x09 ^^^ multiply b 0x0e ^^^ multiply c 0x0b ^^^ multiply d 0x0d,
   multiply a 0x0d ^^^ multiply b 0x09 ^^^ multiply c 0x0e ^^^ multiply d 0x0b,
   multiply a 0x0b ^^^ multiply b 0x0d ^^^ multiply c 0x09 ^^^ multiply d 0x0e⟩

def invMixColumns (s : State) : State := s.map invMixColumn

/-- The loop of `Cipher` from `round` on, `n` full rounds before the one without
    `MixColumns` (`round + n = Nr`). -/
def cipherRounds (roundKey : RoundKey) : Nat → Nat → State → State
  | 0, _, s => shiftRows (subBytes s)
  | n + 1, round, s =>
    cipherRounds roundKey n (round + 1)
      (addRoundKey round (mixColumns (shiftRows (subBytes s))) roundKey)

def cipher (s : State) (roundKey : RoundKey) : State :=
  addRoundKey Nr (cipherRounds roundKey (Nr - 1) 1 (addRoundKey 0 s roundKey)) roundKey

/-- The loop of `InvCipher` from `round` down to `0`. -/
def invCipherRounds (roundKey : RoundKey) : Nat → State → State
  | 0, s => addRoundKey 0 (invSubBytes (invShiftRows s)) roundKey
  | round + 1, s =>
    invCipherRounds roundKey round
      (invMixColumns (addRoundKey (round + 1) (invSubBytes (invShiftRows s)) roundKey))

def invCipher (s : State) (roundKey : RoundKey) : State :=
  invCipherRounds roundKey (Nr - 1) (addRoundKey Nr s roundKey)

/-! ## Entry points -/

/-- The cast `(state_t*)buf`, read. -/
def State.load (b : Block) : State :=
  ⟨⟨b[0], b[1], b[2], b[3]⟩, ⟨b[4], b[5], b[6], b[7]⟩,
   ⟨b[8], b[9], b[10], b[11]⟩, ⟨b[12], b[13], b[14], b[15]⟩⟩

/-- The bytes that the writes through `(state_t*)buf` leave in `buf`. -/
def State.store (s : State) : Block :=
  #v[s.c0.b0, s.c0.b1, s.c0.b2, s.c0.b3, s.c1.b0, s.c1.b1, s.c1.b2, s.c1.b3,
     s.c2.b0, s.c2.b1, s.c2.b2, s.c2.b3, s.c3.b0, s.c3.b1, s.c3.b2, s.c3.b3]

/-- `struct AES_ctx`; the ECB functions do not read `Iv`. -/
structure Ctx where
  roundKey : RoundKey

def aesInitCtx (key : Key) : Ctx := ⟨keyExpansion key⟩

def aesEcbEncrypt (ctx : Ctx) (buf : Block) : Block := (cipher (State.load buf) ctx.roundKey).store

def aesEcbDecrypt (ctx : Ctx) (buf : Block) : Block := (invCipher (State.load buf) ctx.roundKey).store

-- the first block of the ECB test vector at the head of `aes.c`
example : aesEcbEncrypt
    (aesInitCtx #v[0x2b, 0x7e, 0x15, 0x16, 0x28, 0xae, 0xd2, 0xa6, 0xab, 0xf7, 0x15, 0x88, 0x09,
      0xcf, 0x4f, 0x3c])
    #v[0x6b, 0xc1, 0xbe, 0xe2, 0x2e, 0x40, 0x9f, 0x96, 0xe9, 0x3d, 0x7e, 0x11, 0x73, 0x93, 0x17,
      0x2a] =
    #v[0x3a, 0xd7, 0x7b, 0xb4, 0x0d, 0x7a, 0x36, 0x60, 0xa8, 0x9e, 0xca, 0xf3, 0x24, 0x66, 0xef,
      0x97] := by
  decide +kernel

end Rkx.Aes
