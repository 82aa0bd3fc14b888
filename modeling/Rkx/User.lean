import Rkx.Aes
import Rkx.Lib.Bytes
import Rkx.Node

/-!
# Users and their keys (`user.c`, `chex.h`)

`kx_creat_user` fills an allocated `kxuser`, whose memory `zmalloc` does not clear, and
`kx_user_creat_key` derives the key from the node's uuid and the name: hexadecimal text of the two,
read back two digits at a time.

* `chexEncode`, `sscanf02hhx`: the two halves of the detour over hexadecimal text;
* `kxUserCreatKey_len`, `kxUserCreatKey_mem`: the detour is the identity on its seed, which is the
  first 63 bytes of the uuid and the name, and `key_is_seed`: its text fits into the buffer;
* `getElem?_username`: the stored name agrees with the given one on its first 31 bytes;
* `bytes_kxCreatUser`: each of the sixteen bytes that the cipher reads, from the seed or, behind the
  seed, from the memory around the key.
-/

set_option autoImplicit false

namespace Rkx

open Lib.Bytes Lib.CString Lib.Stdio

/-! ## Hexadecimal text -/

def lut : List UInt8 := (CStr.lit "0123456789abcdef").bytes

/-- `chex_toxdigit`: the digit of the low four bits. -/
def chexToxdigit (nibble : Nat) : UInt8 := lut.getD (nibble % 16) 0

/-- The characters that `chex_encode` writes from index `j` on. -/
def chexEncode (hlen : Nat) : Nat → List UInt8 → List UInt8
  | _, [] => []
  | j, b :: bin =>
    if j + 1 < hlen then
      chexToxdigit (b.toNat >>> 4) :: chexToxdigit (b.toNat >>> 0) :: chexEncode hlen (j + 2) bin
    else []

def hexDigitVal (c : UInt8) : Option Nat :=
  if 48 ≤ c ∧ c ≤ 57 then some (c.toNat - 48)
  else if 97 ≤ c ∧ c ≤ 102 then some (c.toNat - 87)
  else if 65 ≤ c ∧ c ≤ 70 then some (c.toNat - 55)
  else none

/-- `sscanf(s, "%02hhx", p)`: one or two digits, `none` when nothing is stored. -/
def sscanf02hhx : List UInt8 → Option UInt8
  | [] => none
  | a :: rest =>
    match hexDigitVal a, rest.head?.bind hexDigitVal with
    | none, _ => none
    | some x, none => some (UInt8.ofNat x)
    | some x, some y => some (UInt8.ofNat (16 * x + y))

/-! ## The record -/

/-- The memory from `user->key` on: `len` bytes of it are the key. -/
structure UserKey where
  len : Nat
  mem : Nat → UInt8

/-- What `AES_init_ctx` takes from `user->key`. -/
def UserKey.bytes (k : UserKey) : Aes.Key := Vector.ofFn fun i => k.mem i

/-- `username[32]`, `pwd[32]` and `trustid[37]` in a row, then the other fields. -/
structure KxUser where
  mem : List UInt8
  size : mem.length = 101
  isonline : Nat
  node : KxNode
  key : UserKey

namespace KxUser

def pwdOff : Nat := 32
def trustidOff : Nat := 64

def username (u : KxUser) : CStr := CStr.ofMem u.mem
def pwd (u : KxUser) : CStr := CStr.ofMem (u.mem.drop pwdOff)

end KxUser

/-- What the two allocations of `kx_creat_user` hold before they are written. -/
structure UserHeap where
  user : Vector UInt8 101
  key : Nat → UInt8

/-- The loop over the digits: turn `i` reads them at `2 * i` and stores into `key[i]`. -/
def decodeLoop (hex : List UInt8) : Nat → (Nat → UInt8) → Nat → UInt8
  | 0, key => key
  | i + 1, key =>
    match sscanf02hhx (hex.drop (2 * i)) with
    | none => decodeLoop hex i key
    | some b => Function.update (decodeLoop hex i key) i b

/-- `char hex[128] = {0}` after `chex_encode` of the string. -/
def hexBuffer (str : List UInt8) : List UInt8 :=
  overwrite (List.replicate 128 0) 0 (chexEncode 128 0 str)

/-- `kx_user_creat_key` -/
def kxUserCreatKey (heap : Nat → UInt8) (uuid username : CStr) : UserKey :=
  let str := CStr.snprintf 64 (uuid.append username)
  let hex := hexBuffer str.bytes
  let len := (CStr.ofMem hex).strlen / 2
  { len, mem := decodeLoop hex len heap }

/-- What `kx_creat_user` writes into the three arrays. -/
def fillUser (mem : List UInt8) (name pwd : CStr) : List UInt8 :=
  let mem := copyField mem 0 32 name
  let mem := copyField mem KxUser.pwdOff 32 pwd
  overwrite mem KxUser.trustidOff (List.replicate 37 0)

theorem length_fillUser {mem : List UInt8} (hmem : mem.length = 101) (name pwd : CStr) :
    (fillUser mem name pwd).length = 101 := by
  have hname : (copyField mem 0 32 name).length = 101 := by
    rw [length_copyField (by omega), hmem]
  have hpwd : (copyField (copyField mem 0 32 name) KxUser.pwdOff 32 pwd).length = 101 := by
    rw [length_copyField (by rw [hname]; decide), hname]
  unfold fillUser
  rw [length_overwrite _ _ _ (by rw [hpwd]; decide), hpwd]
  rfl

/-- `kx_creat_user` when its allocations succeed; `node` is `kx_get_node()`. -/
def kxCreatUser (heap : UserHeap) (node : KxNode) (name pwd : CStr) : KxUser where
  mem := fillUser heap.user.toList name pwd
  size := length_fillUser heap.user.length_toList name pwd
  isonline := 0
  node
  key := kxUserCreatKey heap.key node.uuid (CStr.ofMem (fillUser heap.user.toList name pwd))

/-! ## The detour over hexadecimal text -/

theorem chexToxdigit_ne_zero (d : Nat) : chexToxdigit d ≠ 0 := by
  have h : ∀ i < 16, lut.getD i 0 ≠ 0 := by decide
  exact h _ (Nat.mod_lt _ (by decide))

theorem sscanf02hhx_chexToxdigit (b : UInt8) (rest : List UInt8) :
    sscanf02hhx (chexToxdigit (b.toNat >>> 4) :: chexToxdigit (b.toNat >>> 0) :: rest) = some b := by
  revert b
  refine forall_byte ?_
  simp only [sscanf02hhx, List.head?_cons, Option.bind_some]
  decide +kernel

/-- A text that fits is encoded whole. -/
theorem length_chexEncode (hlen : Nat) : ∀ (j : Nat) (bin : List UInt8),
    j + 2 * bin.length ≤ hlen → (chexEncode hlen j bin).length = 2 * bin.length
  | _, [], _ => rfl
  | j, b :: bin, h => by
    rw [List.length_cons] at h
    rw [chexEncode, if_pos (by omega), List.length_cons, List.length_cons, List.length_cons,
      length_chexEncode hlen (j + 2) bin (by omega)]
    omega

theorem zero_notMem_chexEncode (hlen : Nat) : ∀ (j : Nat) (bin : List UInt8),
    (0 : UInt8) ∉ chexEncode hlen j bin
  | _, [] => List.not_mem_nil
  | j, b :: bin => by
    rw [chexEncode]
    split
    · simp only [List.mem_cons, not_or]
      exact ⟨(chexToxdigit_ne_zero _).symm, (chexToxdigit_ne_zero _).symm,
        zero_notMem_chexEncode hlen (j + 2) bin⟩
    · exact List.not_mem_nil

/-- The digits at `2 * i` are those of byte `i`. -/
theorem sscanf02hhx_chexEncode (hlen : Nat) (rest : List UInt8) :
    ∀ (j : Nat) (bin : List UInt8), j + 2 * bin.length ≤ hlen → ∀ i, i < bin.length →
      sscanf02hhx ((chexEncode hlen j bin ++ rest).drop (2 * i)) = bin[i]?
  | _, [], _, _, hi => absurd hi (Nat.not_lt_zero _)
  | j, b :: bin, h, i, hi => by
    rw [List.length_cons] at h hi
    rw [chexEncode, if_pos (by omega), List.cons_append, List.cons_append]
    cases i with
    | zero => exact sscanf02hhx_chexToxdigit b _
    | succ i =>
      rw [show 2 * (i + 1) = 2 * i + 1 + 1 by omega, List.drop_succ_cons, List.drop_succ_cons,
        sscanf02hhx_chexEncode hlen rest (j + 2) bin (by omega) i (by omega), List.getElem?_cons_succ]

/-- The loop stores what the text at each index denotes and leaves the memory behind alone. -/
theorem decodeLoop_eq {hex bin : List UInt8} : ∀ n, n ≤ bin.length →
    (∀ i, i < n → sscanf02hhx (hex.drop (2 * i)) = bin[i]?) → ∀ (key : Nat → UInt8) (i : Nat),
      decodeLoop hex n key i = if i < n then bin[i]?.getD 0 else key i
  | 0, _, _, key, i => by rw [if_neg (Nat.not_lt_zero i)]; rfl
  | n + 1, hn, hread, key, i => by
    have ih := decodeLoop_eq n (by omega) (fun i hi => hread i (by omega)) key i
    have hget : bin[n]? = some bin[n] := List.getElem?_eq_getElem hn
    simp only [decodeLoop, hread n (Nat.lt_succ_self n), hget]
    rcases Nat.lt_trichotomy i n with hi | rfl | hi
    · rw [Function.update_of_ne (by omega), ih, if_pos hi, if_pos (by omega)]
    · rw [Function.update_self, if_pos (by omega), hget]; rfl
    · rw [Function.update_of_ne (by omega), ih, if_neg (by omega), if_neg (by omega)]

/-! ## The key -/

section Key

variable (heap : Nat → UInt8) (uuid username : CStr)

/-- The bytes that the key is made of. -/
def keySeed : List UInt8 := (CStr.snprintf 64 (uuid.append username)).bytes

theorem length_keySeed : (keySeed uuid username).length = min 63 (uuid.strlen + username.strlen) := by
  simp only [keySeed, CStr.snprintf_bytes, List.length_take, CStr.append_bytes, List.length_append,
    CStr.strlen]

/-- The buffer of 128 bytes holds all digits of 63 bytes and a NUL. -/
theorem hexBuffer_eq {str : List UInt8} (h : str.length ≤ 63) :
    hexBuffer str = chexEncode 128 0 str ++ 0 :: List.replicate (127 - 2 * str.length) 0 := by
  have hover := overwrite_append [] (List.replicate 128 0) (chexEncode 128 0 str)
  simp only [List.nil_append, List.length_nil, List.drop_replicate,
    length_chexEncode 128 0 str (by omega)] at hover
  rw [hexBuffer, hover, show 128 - 2 * str.length = 127 - 2 * str.length + 1 by omega,
    List.replicate_succ]

theorem strlen_hexBuffer {str : List UInt8} (h : str.length ≤ 63) :
    (CStr.ofMem (hexBuffer str)).strlen = 2 * str.length := by
  have hread : CStr.ofMem (hexBuffer str) =
      ⟨chexEncode 128 0 str, zero_notMem_chexEncode 128 0 str⟩ := by
    apply CStr.ofMem_of_prefix
    exact ⟨List.replicate (127 - 2 * str.length) 0, by rw [hexBuffer_eq h]; simp⟩
  rw [hread]
  exact length_chexEncode 128 0 str (by omega)

/-- **The key has the length of its seed.** -/
theorem kxUserCreatKey_len :
    (kxUserCreatKey heap uuid username).len = (keySeed uuid username).length := by
  have hlen := length_keySeed uuid username
  change (CStr.ofMem (hexBuffer (keySeed uuid username))).strlen / 2 = _
  rw [strlen_hexBuffer (by omega)]
  omega

/-- Each byte comes back from its two digits. -/
theorem sscanf02hhx_hexBuffer {str : List UInt8} (h : str.length ≤ 63) {i : Nat} (hi : i < str.length) :
    sscanf02hhx ((hexBuffer str).drop (2 * i)) = str[i]? := by
  rw [hexBuffer_eq h]
  exact sscanf02hhx_chexEncode 128 _ 0 _ (by omega) i hi

/-- **The key is its seed**, and memory behind it is unchanged. -/
theorem kxUserCreatKey_mem (i : Nat) :
    (kxUserCreatKey heap uuid username).mem i = (keySeed uuid username)[i]?.getD (heap i) := by
  have hlen : (keySeed uuid username).length ≤ 63 := by
    rw [length_keySeed]
    exact Nat.min_le_left _ _
  have hloop := decodeLoop_eq _ (Nat.le_refl _) (fun i hi => sscanf02hhx_hexBuffer hlen hi) heap i
  rw [← kxUserCreatKey_len heap] at hloop
  refine hloop.trans ?_
  rw [kxUserCreatKey_len]
  split
  · rename_i hi
    rw [List.getElem?_eq_getElem hi, Option.getD_some, Option.getD_some]
  · rename_i hi
    rw [List.getElem?_eq_none (Nat.le_of_not_lt hi), Option.getD_none]

/-- The bytes of the allocation. -/
def UserKey.stored (k : UserKey) : List UInt8 := (List.range k.len).map k.mem

theorem kxUserCreatKey_stored : (kxUserCreatKey heap uuid username).stored = keySeed uuid username := by
  apply List.ext_getElem?
  intro i
  rw [UserKey.stored, List.getElem?_map]
  rcases Nat.lt_or_ge i (keySeed uuid username).length with hi | hi
  · rw [List.getElem?_range (by rwa [kxUserCreatKey_len]), Option.map_some, kxUserCreatKey_mem,
      List.getElem?_eq_getElem hi, Option.getD_some]
  · rw [List.getElem?_eq_none (by rwa [List.length_range, kxUserCreatKey_len]), List.getElem?_eq_none hi,
      Option.map_none]

/-- The text in `char hex[128]`: all digits of the seed, and a terminator inside the buffer. -/
structure HexText (seed : List UInt8) : Prop where
  whole : (chexEncode 128 0 seed).length = 2 * seed.length
  buffer : (hexBuffer seed).length = 128
  digits : chexEncode 128 0 seed ++ [0] <+: hexBuffer seed

theorem hexText {seed : List UInt8} (h : seed.length ≤ 63) : HexText seed := by
  have hwhole := length_chexEncode 128 0 seed (by omega)
  constructor
  case whole => exact hwhole
  case buffer =>
    rw [hexBuffer_eq h, List.length_append, List.length_cons, List.length_replicate, hwhole]
    omega
  case digits => exact ⟨List.replicate (127 - 2 * seed.length) 0, by rw [hexBuffer_eq h]; simp⟩

/-- The key is made of the first bytes of the uuid and the name behind it; each comes back from its two
    digits. -/
structure KeyIsSeed : Prop where
  len : (kxUserCreatKey heap uuid username).len = min 63 (uuid.strlen + username.strlen)
  stored : (kxUserCreatKey heap uuid username).stored =
    (uuid.bytes ++ username.bytes).take (kxUserCreatKey heap uuid username).len
  text : HexText (keySeed uuid username)
  decoded : ∀ i, i < (kxUserCreatKey heap uuid username).len →
    sscanf02hhx ((hexBuffer (keySeed uuid username)).drop (2 * i)) =
      some ((kxUserCreatKey heap uuid username).mem i)

/-- **The detour over hexadecimal text is the identity**, whatever the strings hold. -/
theorem key_is_seed : KeyIsSeed heap uuid username := by
  have hlen := length_keySeed uuid username
  constructor
  case len => rw [kxUserCreatKey_len, hlen]
  case stored =>
    have htake := List.take_eq_take_min (i := 63) (l := uuid.bytes ++ username.bytes)
    rw [List.length_append] at htake
    rw [kxUserCreatKey_stored, kxUserCreatKey_len, hlen]
    exact htake
  case text => exact hexText (by omega)
  case decoded =>
    intro i hi
    rw [kxUserCreatKey_len] at hi
    rw [sscanf02hhx_hexBuffer (by omega) hi, kxUserCreatKey_mem, List.getElem?_eq_getElem hi, Option.getD_some]

end Key

/-! ## The user record -/

/-- **The three arrays of a new user.** -/
theorem fillUser_eq (heap : Vector UInt8 101) (name pwd : CStr) :
    fillUser heap.toList name pwd =
      strncpyBytes name 31 ++ heap.get 31 :: (strncpyBytes pwd 31 ++ heap.get 63 :: List.replicate 37 0) := by
  have hsize : heap.toList.length = 101 := heap.length_toList
  have hget : ∀ i : Fin 101, heap.toList[i.val]? = some (heap.get i) := by
    intro i
    rw [List.getElem?_eq_getElem (by omega), Vector.getElem_toList]
    rfl
  have hname : copyField heap.toList 0 32 name =
      strncpyBytes name 31 ++ heap.get 31 :: 0 :: heap.toList.drop 33 :=
    copyField_eq (by omega) (by decide) (hget 31)
  have hfirst : (strncpyBytes name 31 ++ heap.get 31 :: 0 :: heap.toList.drop 33).length = 101 := by simp
  have hpwd : copyField (copyField heap.toList 0 32 name) KxUser.pwdOff 32 pwd =
      (strncpyBytes name 31 ++ heap.get 31 :: strncpyBytes pwd 31) ++ heap.get 63 :: 0 :: heap.toList.drop 65 := by
    have hlast : (strncpyBytes name 31 ++ heap.get 31 :: 0 :: heap.toList.drop 33)[32 + (32 - 1)]? =
        some (heap.get 63) := by
      simpa using hget 63
    rw [hname, KxUser.pwdOff, copyField_eq (by rw [hfirst]; decide) (by decide) hlast]
    simp [List.take_append, List.drop_append, List.take_of_length_le]
  have hlen : (strncpyBytes name 31 ++ heap.get 31 :: strncpyBytes pwd 31 ++ [heap.get 63]).length = 64 := by simp
  rw [fillUser, hpwd]
  have hover := overwrite_append (strncpyBytes name 31 ++ heap.get 31 :: strncpyBytes pwd 31 ++ [heap.get 63])
    (0 :: heap.toList.drop 65) (List.replicate 37 0)
  have hrest : (0 :: heap.toList.drop 65).drop (List.replicate 37 (0 : UInt8)).length = [] := by simp
  rw [hlen, hrest] at hover
  simp only [List.append_assoc, List.cons_append, List.nil_append, List.append_nil] at hover ⊢
  exact hover

theorem drop_fillUser (heap : Vector UInt8 101) (name pwd : CStr) :
    (fillUser heap.toList name pwd).drop KxUser.pwdOff =
      strncpyBytes pwd 31 ++ heap.get 63 :: List.replicate 37 0 := by
  rw [fillUser_eq, List.append_cons, List.drop_left' (by simp [KxUser.pwdOff])]

variable (heap : UserHeap) (node : KxNode) (name pwd : CStr)

theorem take_mem_kxCreatUser :
    (kxCreatUser heap node name pwd).mem.take 31 = strncpyBytes name 31 := by
  show (fillUser heap.user.toList name pwd).take 31 = strncpyBytes name 31
  rw [fillUser_eq]
  exact List.take_left' (length_strncpyBytes _ _)

/-- **The stored name agrees with the given one on its first 31 bytes**, also where the given one
    ends. -/
theorem getElem?_username {i : Nat} (hi : i < 31) :
    (kxCreatUser heap node name pwd).username.bytes[i]? = name.bytes[i]? := by
  have htake := take_mem_kxCreatUser heap node name pwd
  by_cases hn : name.strlen < 31
  · have hp := strncpyBytes_prefix hn
    rw [← htake] at hp
    rw [KxUser.username, CStr.ofMem_of_prefix (hp.trans (List.take_prefix _ _))]
  · rw [strncpyBytes_of_le (by omega)] at htake
    have hlen : i < (name.bytes.take 31).length := by
      rw [List.length_take]
      exact Nat.lt_min.2 ⟨hi, Nat.lt_of_lt_of_le hi (Nat.le_of_not_lt hn)⟩
    rw [KxUser.username, CStr.ofMem_take htake, List.getElem?_append_left hlen,
      List.getElem?_take_of_lt hi]

/-- The first 31 bytes of the seed are those of the uuid and the given name. -/
theorem getElem?_keySeed {i : Nat} (hi : i < 31) :
    (keySeed node.uuid (kxCreatUser heap node name pwd).username)[i]? =
      (node.uuid.bytes ++ name.bytes)[i]? := by
  simp only [keySeed, CStr.snprintf_bytes, CStr.append_bytes]
  rw [List.getElem?_take_of_lt (by omega)]
  rcases Nat.lt_or_ge i node.uuid.bytes.length with h | h
  · rw [List.getElem?_append_left h, List.getElem?_append_left h]
  · rw [List.getElem?_append_right h, List.getElem?_append_right h, getElem?_username _ _ _ _ (by omega)]

/-- **The bytes that the cipher reads**: the uuid and the name, then whatever lies behind the key. -/
theorem bytes_kxCreatUser {i : Nat} (hi : i < 16) :
    (kxCreatUser heap node name pwd).key.bytes[i] =
      (node.uuid.bytes ++ name.bytes)[i]?.getD (heap.key i) := by
  unfold UserKey.bytes
  rw [Vector.getElem_ofFn]
  change (kxUserCreatKey heap.key node.uuid (kxCreatUser heap node name pwd).username).mem i = _
  rw [kxUserCreatKey_mem, getElem?_keySeed _ _ _ _ (by omega)]

/-- All sixteen bytes are written exactly if the uuid and the name have that many. -/
theorem sixteen_le_len_kxCreatUser :
    16 ≤ (kxCreatUser heap node name pwd).key.len ↔ 16 ≤ node.uuid.strlen + name.strlen := by
  have hlen : (kxCreatUser heap node name pwd).key.len =
      (keySeed node.uuid (kxCreatUser heap node name pwd).username).length :=
    kxUserCreatKey_len _ _ _
  have h := congrArg Option.isSome (getElem?_keySeed heap node name pwd (by decide : 15 < 31))
  rw [Bool.eq_iff_iff, isSome_getElem?, isSome_getElem?, List.length_append] at h
  rw [hlen]
  exact h

end Rkx
