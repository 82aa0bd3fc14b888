import Rkx.Aes
import Rkx.Runtime
import Rkx.Lib.Blocks
import Rkx.Lib.Bytes
import Rkx.Lib.CString
import Rkx.Lib.Stdio

/-!
# Encrypted files (`file.c`)

* `cryptLoop`: the loop that `encrypt_file` and `decrypt_file` share, one block a turn: `fread`,
  the fill of a short block, the cipher, `fseek` back and `fwrite`;
* `encryptFile`, `decryptFile`: the loop over the whole file with the two cipher functions;
* `calculateXxhash`, `kxCryptFile`: the record of an encrypted file;
* `KxFile`: the record, and the bytes of its object in memory (`KxFile.bytes`).

Every library call that can fail takes its outcome from an environment argument. `XXH64` is a
parameter.
-/

set_option autoImplicit false

namespace Rkx

open Aes Lib.Blocks Lib.Bytes Lib.CString Lib.Stdio

def AES_BLOCK_SIZE : Nat := 16

def MAXFILESIZE : Nat := 100 * 1024 * 1024

/-! ## The record -/

inductive KxFileType where
  | KXCIPHER
  | KXPLAIN
  deriving DecidableEq, Repr

def KxFileType.toNat : KxFileType → Nat
  | .KXCIPHER => 1
  | .KXPLAIN => 2

def KxFileType.ofNat? : Nat → Option KxFileType
  | 1 => some .KXCIPHER
  | 2 => some .KXPLAIN
  | _ => none

/-- `struct kxfile`: `char fname[NAME_MAX]`, `char fullname[PATH_MAX]`, `uuid`, `type`. -/
@[ext] structure KxFile where
  fname : Vector UInt8 255
  fullname : Vector UInt8 4096
  uuid : UInt64
  type : KxFileType
  deriving DecidableEq

/-- The bytes of the object that no field covers: one before `uuid`, four after `type`. -/
structure Padding where
  beforeUuid : UInt8
  afterType : Vector UInt8 4

namespace KxFile

/-- The bytes of the object from `&file->uuid` to its end. -/
def bytesFromUuid (f : KxFile) (pad : Padding) : List UInt8 :=
  toLE 8 f.uuid.toNat ++ (toLE 4 f.type.toNat ++ pad.afterType.toList)

/-- The `sizeof(kxfile)` bytes of the object. -/
def bytes (f : KxFile) (pad : Padding) : List UInt8 :=
  f.fname.toList ++ (f.fullname.toList ++ pad.beforeUuid :: f.bytesFromUuid pad)

/-- The array field of `n` bytes at offset `off` of an object. -/
def field (n : Nat) (object : List UInt8) (off : Nat) : Vector UInt8 n :=
  Vector.ofFn fun i => object.getD (off + i) 0

/-- The record that `sizeof(kxfile)` bytes denote. -/
def read? (object : List UInt8) : Option KxFile :=
  if object.length = 4368 then
    (KxFileType.ofNat? (ofLE ((object.drop 4360).take 4))).map fun type =>
      { fname := field 255 object 0
        fullname := field 4096 object 255
        uuid := UInt64.ofNat (ofLE ((object.drop 4352).take 8))
        type }
  else none

end KxFile

/-- An array field of `n` bytes after `strncpy(dst, s, n)`. -/
def strncpyField (n : Nat) (s : CStr) : Vector UInt8 n := ⟨(strncpyBytes s n).toArray, by simp⟩

/-! ## The block loop -/

/-- The bytes that the `fread` and the `fwrite` of each block transfer at most. -/
structure BlockCalls where
  fread : Nat → Nat
  fwrite : Nat → Nat

/-- Every call transfers all it is asked for. -/
def BlockCalls.full : BlockCalls := ⟨fun _ => AES_BLOCK_SIZE, fun _ => AES_BLOCK_SIZE⟩

/-- `memset(buffer + bytesRead, AES_BLOCK_SIZE - bytesRead, AES_BLOCK_SIZE - bytesRead)` behind the
    bytes read; nothing when the block is full. -/
def fillBlock (bytesRead : List UInt8) : Block :=
  ⟨(bytesRead.take 16 ++
      List.replicate (16 - bytesRead.length) (UInt8.ofNat (16 - bytesRead.length))).toArray,
    by simp; omega⟩

/-- The loop over the blocks `block`, `block + 1`, …, of which `n` are left. -/
def cryptLoop (f : Block → Block) (io : BlockCalls) : Nat → Nat → File → File
  | 0, _, fp => fp
  | n + 1, block, fp =>
    let (bytesRead, fp) := fp.fread AES_BLOCK_SIZE (io.fread block)
    let buffer := f (fillBlock bytesRead)
    let fp := fp.fseek (block * AES_BLOCK_SIZE)
    let fp := fp.fwrite buffer.toList (io.fwrite block)
    cryptLoop f io n (block + 1) fp

/-- The body that `encrypt_file` and `decrypt_file` share: the return code and what the file
    holds then. -/
def cryptFile (f : Ctx → Block → Block) (fopen : Bool) (io : BlockCalls) (content : List UInt8)
    (key : Key) : Int × List UInt8 :=
  if fopen then
    let fileSize := content.length
    let numBlocks := (fileSize + AES_BLOCK_SIZE - 1) / AES_BLOCK_SIZE
    (0, (cryptLoop (f (aesInitCtx key)) io numBlocks 0 (File.opened content)).data)
  else (-1, content)

def encryptFile (fopen : Bool) (io : BlockCalls) (content : List UInt8) (key : Key) :
    Int × List UInt8 :=
  cryptFile aesEcbEncrypt fopen io content key

def decryptFile (fopen : Bool) (io : BlockCalls) (content : List UInt8) (key : Key) :
    Int × List UInt8 :=
  cryptFile aesEcbDecrypt fopen io content key

/-- `kx_decrypt_file`. -/
def kxDecryptFile (fopen : Bool) (io : BlockCalls) (content : List UInt8) (key : Key) :
    Int × List UInt8 :=
  decryptFile fopen io content key

/-! ## Hash and record -/

/-- Outcomes of the calls of `calculate_xxhash`; `missing` bytes are not delivered by `fread`. -/
structure HashCalls where
  fopen : Bool
  zmalloc : Bool
  missing : Nat

/-- `calculate_xxhash` of a file with this content; `XXH64 buffer seed`. -/
def calculateXxhash (XXH64 : List UInt8 → UInt64 → UInt64) (io : HashCalls) (content : List UInt8) :
    Except Fault UInt64 := do
  if io.fopen then
    zmalloc io.zmalloc
    let buffer := content.take (content.length - io.missing)
    if buffer.length ≠ content.length then return 0
    return XXH64 buffer 0
  else return 0

/-- Outcomes of the calls of `kx_crypt_file`. -/
structure CryptCalls where
  stat : Bool
  zmalloc : Bool
  fopen : Bool
  blocks : BlockCalls
  hash : HashCalls

def slash : UInt8 := 47

/-- The last component of a path without trailing slashes. -/
def lastComponent (path : List UInt8) : List UInt8 :=
  (path.reverse.takeWhile (· ≠ slash)).reverse

/-- `basename` of `libgen.h`. -/
def basename (path : CStr) : CStr :=
  if path.bytes = [] then CStr.lit "."
  else
    let trimmed := (path.bytes.reverse.dropWhile (· = slash)).reverse
    if trimmed = [] then CStr.lit "/" else CStr.ofMem (lastComponent trimmed)

/-- `kx_crypt_file` of a file with this content: how the call ends and what the file holds then.
    `userKey` is `client.user->key`, `none` while `client.user` is NULL. -/
def kxCryptFile (XXH64 : List UInt8 → UInt64 → UInt64) (io : CryptCalls) (fname : CStr)
    (userKey : Option Key) (content : List UInt8) : Except Fault (Option KxFile) × List UInt8 :=
  if !io.stat || MAXFILESIZE < content.length then (.ok none, content)
  else
    match zmalloc io.zmalloc, deref .clientUser userKey with
    | .error e, _ => (.error e, content)
    | .ok _, .error e => (.error e, content)
    | .ok _, .ok key =>
      let (ret, content) := encryptFile io.fopen io.blocks content key
      if ret = -1 then (.ok none, content)
      else
        match calculateXxhash XXH64 io.hash content with
        | .error e => (.error e, content)
        | .ok uuid =>
          if uuid = 0 then (.ok none, content)
          else
            (.ok (some
              { fname := strncpyField 255 (basename fname)
                fullname := strncpyField 4096 fname
                uuid
                type := .KXCIPHER }), content)

end Rkx
