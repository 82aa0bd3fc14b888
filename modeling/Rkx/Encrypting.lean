import Rkx.Basename
import Rkx.Key
import Rkx.ReadBack
import Rkx.RedisFormat
import Rkx.Safety

/-!
# Successful calls of `file_encrypt`

* `recordOf`: the record that `kx_crypt_file` makes, `kxCryptFile_record`;
* `Encrypts`: a call of `file_encrypt` that returns 0, `Encrypts.effect` all that it does;
* `str_fullname`, `mem_str_fname`: the name and the path as they are read from the record;
* `exists_encrypts`, `exists_encrypts_full`: when a call succeeds.
-/

set_option autoImplicit false

namespace Rkx

open Lib.Blocks Lib.CString Lib.Stdio

/-! ## The record -/

/-- The record of a file with content `x`. -/
def recordOf (XXH64 : List UInt8 → UInt64 → UInt64) (io : BlockCalls) (key : Aes.Key) (path : CStr)
    (x : List UInt8) : KxFile where
  fname := strncpyField 255 (basename path)
  fullname := strncpyField 4096 path
  uuid := XXH64 (writtenContent io key x) 0
  type := .KXCIPHER

section Record

variable {XXH64 : List UInt8 → UInt64 → UInt64}

/-- What `kx_crypt_file` has done when it returns a record. -/
theorem kxCryptFile_record {io : CryptCalls} {path : CStr} {userKey : Option Aes.Key}
    {x y : List UInt8} {kf : KxFile} (h : kxCryptFile XXH64 io path userKey x = (.ok (some kf), y)) :
    ∃ key, userKey = some key ∧ kf = recordOf XXH64 io.blocks key path x ∧
      y = writtenContent io.blocks key x := by
  have hearly : ¬ io.Early x := by
    intro hearly
    rcases kxCryptFile_early hearly path userKey with h' | h' <;> rw [h'] at h <;> cases h
  cases userKey with
  | none =>
    rw [kxCryptFile_no_user hearly] at h
    cases h
  | some key =>
    refine ⟨key, rfl, ?_⟩
    obtain ⟨hstat, hsize, halloc⟩ : io.stat = true ∧ x.length ≤ MAXFILESIZE ∧ io.zmalloc = true := by
      simpa [CryptCalls.Early] using hearly
    cases hopen : io.fopen with
    | false =>
      simp [kxCryptFile, hstat, Nat.not_lt.2 hsize, zmalloc, halloc, deref, hopen, encryptFile,
        cryptFile] at h
    | true =>
      rw [kxCryptFile_written XXH64 path key hstat hsize halloc hopen, Prod.mk.injEq] at h
      obtain ⟨hres, rfl⟩ := h
      refine ⟨?_, rfl⟩
      rcases calculateXxhash_cases XXH64 io.hash (writtenContent io.blocks key x) with
        ⟨hd, hhash⟩ | ⟨-, hhash | hhash⟩
      · rw [hhash, Except.map, if_neg hd.2.2.2] at hres
        cases hres
        rfl
      · rw [hhash] at hres
        simp [Except.map] at hres
      · rw [hhash] at hres
        cases hres

end Record

/-- The text that reaches the end of the path field or a NUL before it. -/
theorem str_fullname (o : FileObject) {path : CStr} (hfull : o.file.fullname = strncpyField 4096 path)
    (hlen : path.strlen < 4096) : o.str 255 = path := by
  apply CStr.ofMem_of_prefix
  have hp := strncpyBytes_prefix hlen
  have hdrop : (o.file.bytes o.pad).drop 255 =
      strncpyBytes path 4096 ++ o.pad.beforeUuid :: o.file.bytesFromUuid o.pad := by
    rw [KxFile.bytes, List.drop_left' (by simp), hfull]
    rfl
  rw [hdrop]
  exact hp.trans (List.prefix_append _ _)

/-- A name that fills its field goes on in the field behind it. -/
theorem str_fname_of_le (o : FileObject) {path : CStr}
    (hname : o.file.fname = strncpyField 255 (basename path)) (hlong : 255 ≤ (basename path).strlen) :
    (o.str 0).bytes = (basename path).bytes.take 255 ++ (o.str 255).bytes := by
  have htake : ((o.file.bytes o.pad).drop 0).take 255 = (basename path).bytes.take 255 := by
    rw [List.drop_zero, KxFile.bytes, List.take_left' (by simp), hname]
    exact strncpyBytes_of_le hlong
  have hread := CStr.ofMem_take htake
  rwa [List.drop_drop] at hread

/-- A shorter one reads back. -/
theorem str_fname_of_lt (o : FileObject) {path : CStr}
    (hname : o.file.fname = strncpyField 255 (basename path)) (hshort : (basename path).strlen < 255) :
    o.str 0 = basename path := by
  apply CStr.ofMem_of_prefix
  have hp := strncpyBytes_prefix hshort
  rw [List.drop_zero, KxFile.bytes, hname]
  exact hp.trans (List.prefix_append _ _)

/-- The name as it is read from the record is made of bytes of the path. -/
theorem mem_str_fname (o : FileObject) {path : CStr} (hpath : path.bytes ≠ [])
    (hname : o.file.fname = strncpyField 255 (basename path))
    (hfull : o.file.fullname = strncpyField 4096 path) (hlen : path.strlen < 4096) :
    (o.str 0).bytes ≠ [] ∧ (o.str 0).bytes ⊆ path.bytes := by
  have hsub := (basename_sublist hpath).subset
  rcases Nat.lt_or_ge (basename path).strlen 255 with hshort | hlong
  · rw [str_fname_of_lt o hname hshort]
    exact ⟨basename_ne_nil hpath, hsub⟩
  · rw [str_fname_of_le o hname hlong, str_fullname o hfull hlen]
    refine ⟨List.append_ne_nil_of_right_ne_nil _ hpath, ?_⟩
    exact List.append_subset.2 ⟨fun b hb => hsub (List.mem_of_mem_take hb), List.Subset.refl _⟩

/-! ## The call -/

section Call

variable {XXH64 : List UInt8 → UInt64 → UInt64} {names : CStr → Nat}

/-- `kx_crypt_file` of the path returns a record. -/
def MakesRecord (XXH64 : List UInt8 → UInt64 → UInt64) (names : CStr → Nat) (calls : FileCalls)
    (path : CStr) (w : World) : Prop :=
  ∃ kf y, kxCryptFile XXH64 calls.crypt path (w.client.user.map (·.key.bytes)) (w.files (names path)) =
    (.ok (some kf), y)

/-- A call of `file_encrypt` that returns 0 and leads from `w` to `w'`; `stat` has found the file, so
    the path is not empty and shorter than `PATH_MAX`. -/
structure Encrypts (XXH64 : List UInt8 → UInt64 → UInt64) (names : CStr → Nat) (calls : FileCalls)
    (path : CStr) (w w' : World) : Prop where
  returned : fileEncrypt XXH64 names calls (some path) w = .ok w'
  record : MakesRecord XXH64 names calls path w
  nonempty : path.bytes ≠ []
  short : path.strlen < 4096

/-- The action of `file_encrypt`. -/
def fileCrypt : Action :=
  ⟨.FILE_CRYPT, .lit "HMSET fileuuid:%lu filename %s path %s uuid %lu user %s muuid %s"⟩

theorem fileCrypt_mem : fileCrypt ∈ acs := by simp [acs, fileCrypt]

/-- Its arguments for a record. -/
def fileCryptArgs (o : FileObject) (user : KxUser) (node : KxNode) : List FmtArg :=
  [.num o.file.uuid.toNat, .s (o.str 0), .s (o.str 255), .num o.file.uuid.toNat, .s user.username,
    .s node.uuid]

/-- The object of the record that the call makes. -/
def recordObject (XXH64 : List UInt8 → UInt64 → UInt64) (calls : FileCalls) (user : KxUser)
    (path : CStr) (x : List UInt8) : FileObject :=
  ⟨recordOf XXH64 calls.crypt.blocks user.key.bytes path x, calls.pad, calls.behind⟩

/-- All that a successful call does: it writes the file, sends the record `o` to Redis and stores it
    in the database. -/
structure Encrypts.Effect (names : CStr → Nat) (calls : FileCalls) (path : CStr) (w w' : World)
    (user : KxUser) (db db' : KxDb) (text : CStr) (o : FileObject) : Prop where
  user_eq : w.client.user = some user
  db_eq : w.client.db = some db
  files_eq : w'.files = Function.update w.files (names path)
    (writtenContent calls.crypt.blocks user.key.bytes (w.files (names path)))
  text_eq : text.bytes = vsnprintf fileCrypt.cmdline.bytes (fileCryptArgs o user w.client.node)
  redis_eq : w'.redis = text :: w.redis
  store_eq : ∃ ret, kxStoreDb calls.insert db KX_DB_INSERT_FILE (fileKy user.username o.file.uuid) o =
    .ok (ret, db')
  user_kept : w'.client.user = some user
  db_next : w'.client.db = some db'

theorem Encrypts.effect {calls : FileCalls} {path : CStr} {w w' : World}
    (h : Encrypts XXH64 names calls path w w') :
    ∃ user db db' text, Encrypts.Effect names calls path w w' user db db' text
      (recordObject XXH64 calls user path (w.files (names path))) := by
  obtain ⟨hret, ⟨kf, y, hkf⟩, -, -⟩ := h
  obtain ⟨key, hkey, rfl, rfl⟩ := kxCryptFile_record hkf
  simp only [fileEncrypt, hkf] at hret
  obtain ⟨user, huser, rfl⟩ := Option.map_eq_some_iff.1 hkey
  obtain ⟨_, -, huse⟩ := bind_eq_ok.1 hret
  obtain ⟨user', huser', hsend⟩ := bind_eq_ok.1 huse
  obtain ⟨sent, hsent, hopen⟩ := bind_eq_ok.1 hsend
  obtain ⟨db, hdb, hput⟩ := bind_eq_ok.1 hopen
  obtain ⟨⟨ret, db'⟩, hstore, hend⟩ := bind_eq_ok.1 hput
  rw [World.setFile_client] at huser' hsent hdb
  obtain rfl : user = user' := Option.some.inj (huser.symm.trans (deref_eq_ok.1 huser'))
  obtain ⟨-, text, rfl, htext⟩ := kxSyncSendCmd_ok fileCrypt_mem hsent
  cases hend
  refine ⟨user, db, db', text, ?_⟩
  constructor
  case user_eq => exact huser
  case db_eq => exact deref_eq_ok.1 hdb
  case files_eq => rfl
  case text_eq => exact htext
  case redis_eq => rfl
  case store_eq => exact ⟨ret, hstore⟩
  case user_kept => exact huser
  case db_next => rfl

/-- Past the checks of `kx_crypt_file`, with a database, a call succeeds when its library calls do. -/
theorem exists_encrypts {calls : FileCalls} {path : CStr} {w : World} {user : KxUser} {db : KxDb}
    (huser : w.client.user = some user) (hdb : w.client.db = some db)
    (hearly : ¬ calls.crypt.Early (w.files (names path)))
    (hrec : calls.crypt.MakesRecord XXH64 user.key.bytes (w.files (names path)))
    (hlist : calls.listAdd = true) (hsend : calls.send = true) (hidle : db.env.writeTxn = false)
    (hinsert : calls.insert = InsertCalls.success) (hne : path.bytes ≠ []) (hshort : path.strlen < 4096) :
    ∃ w', Encrypts XXH64 names calls path w w' := by
  rcases @kxCryptFile_user XXH64 _ _ hearly path user.key.bytes with ⟨-, kf, y, h⟩ | ⟨hnot, -⟩
  swap
  · exact absurd hrec hnot
  have hkf : kxCryptFile XXH64 calls.crypt path (w.client.user.map (·.key.bytes)) (w.files (names path)) =
      (.ok (some kf), y) := by
    rw [huser]
    exact h
  obtain ⟨text, htext, -⟩ := kxSyncSendCmd_eq fileCrypt_mem
    (fileCryptArgs ⟨kf, calls.pad, calls.behind⟩ user w.client.node)
  have hret : ∃ w', fileEncrypted calls kf (w.setFile (names path) y) = .ok w' := by
    simp only [fileCrypt, fileCryptArgs] at htext
    simp only [fileEncrypted, World.setFile_client, hlist, hsend, hinsert, huser, hdb, zmalloc, deref,
      bind, Except.bind, htext, kxStoreDb, insertFile, hidle, InsertCalls.success, ne_eq,
      not_true_eq_false, Bool.false_eq_true, if_true, if_false]
    exact ⟨_, rfl⟩
  obtain ⟨w', hret⟩ := hret
  exact ⟨w', by simp only [fileEncrypt, hkf, hret], ⟨kf, y, hkf⟩, hne, hshort⟩

end Call

/-! ## Samples -/

/-- A hash function that tells lengths apart. -/
def lengthHash : List UInt8 → UInt64 → UInt64 := fun bytes _ => UInt64.ofNat (bytes.length + 1)

/-- The file that a path of one byte names. -/
def firstByte : CStr → Nat := fun path => (path.bytes.headD 0).toNat

theorem lengthHash_ne_zero {bytes : List UInt8} (h : bytes.length + 1 < 2 ^ 64) : lengthHash bytes 0 ≠ 0 := by
  intro h0
  have hnat := congrArg UInt64.toNat h0
  rw [lengthHash, UInt64.toNat_ofNat', Nat.mod_eq_of_lt h] at hnat
  exact Nat.succ_ne_zero _ hnat

/-- With full transfers every `file -e` of a registered user succeeds. -/
theorem exists_encrypts_full {path : CStr} {names : CStr → Nat} {w : World} {user : KxUser} {db : KxDb}
    (huser : w.client.user = some user) (hdb : w.client.db = some db) (hidle : db.env.writeTxn = false)
    (hsize : (w.files (names path)).length ≤ MAXFILESIZE) (hne : path.bytes ≠ [])
    (hshort : path.strlen < 4096) : ∃ w', Encrypts lengthHash names fileCallsSample path w w' := by
  refine exists_encrypts huser hdb ?_ ⟨rfl, rfl, rfl, Or.inl rfl, ?_⟩ rfl rfl hidle rfl hne hshort
  · simpa [CryptCalls.Early, fileCallsSample] using hsize
  · apply lengthHash_ne_zero
    have hfull : BlockCalls.full.Complete (w.files (names path)).length :=
      fun i _ => BlockCalls.full_fullAt _ i
    have hlen : (writtenContent BlockCalls.full user.key.bytes (w.files (names path))).length =
        numBlocks 16 (w.files (names path)).length * 16 := by
      rw [writtenContent_complete user.key.bytes hfull, encrypted_eq,
        length_mapBlocks (length_cipherBlock _) (le_numBlocks_mul (by omega) _)]
    have hlt := numBlocks_mul_lt (B := 16) (by omega) (w.files (names path)).length
    have hmax : MAXFILESIZE < 2 ^ 32 := by decide
    show (writtenContent BlockCalls.full user.key.bytes (w.files (names path))).length + 1 < 2 ^ 64
    omega

/-- The user bob on the machine of the sample. -/
def userSample : KxUser := kxCreatUser (heapWith []) nodeSample bob bob

/-- A session of bob in which all files are empty. -/
def worldSample : World := ⟨⟨nodeSample, some userSample, some dbSample, []⟩, fun _ => [], []⟩

/-- Every `file -e` of it succeeds. -/
theorem exists_encrypts_sample (path : CStr) (names : CStr → Nat) (hne : path.bytes ≠ [])
    (hshort : path.strlen < 4096) : ∃ w', Encrypts lengthHash names fileCallsSample path worldSample w' :=
  exists_encrypts_full rfl rfl rfl (Nat.zero_le _) hne hshort

end Rkx
