import Rkx.Db
import Rkx.FileCommand
import Rkx.Lib.Runs
import Rkx.Net
import Rkx.User
import Rkx.UserCommand

/-!
# Sessions of the shell

The state of the program between two commands is `struct kxclient` with the files and the Redis
commands sent so far.  A command comes with the outcomes of all the calls that its handler makes.

* `userRegister`, `userGet`, `fileEncrypt`, `fileDecrypt`, `fileGetfilelist`: the handlers;
* `step`: one command, `Rkx.session` a run of commands from `rkxInit`.
-/

set_option autoImplicit false

namespace Rkx

open Lib.CString Lib.Runs

/-- The fields of `struct kxclient` that the commands use. -/
structure Client where
  node : KxNode
  user : Option KxUser
  db : Option KxDb
  localCryptfiles : List KxFile

structure World where
  client : Client
  /-- the content of each file -/
  files : Nat → List UInt8
  /-- the texts handed to `redisCommand`, latest first -/
  redis : List CStr

/-- `rkx_init`, on a machine with these files. -/
def rkxInit (node : KxNode) (files : Nat → List UInt8) : World :=
  ⟨⟨node, none, none, []⟩, files, []⟩

namespace World

/-- The redis text of a command, if there is one, is added to those sent. -/
def sent (w : World) (text : Option CStr) : World := { w with redis := text.toList ++ w.redis }

def setFile (w : World) (i : Nat) (content : List UInt8) : World :=
  { w with files := Function.update w.files i content }

@[simp] theorem setFile_client (w : World) (i : Nat) (content : List UInt8) :
    (w.setFile i content).client = w.client := rfl

end World

/-! ## The handlers of the user command -/

/-- Outcomes of the calls of `do_user`. -/
structure UserCalls where
  initState : Bool
  sendNode : Bool
  creatUser : Bool
  heap : UserHeap
  db : CreatDbCalls
  dbHeap : Vector UInt8 164
  send : Bool

def MAXMAPSIZE : Nat := 10 * 1024 * 1024

/-- `kx_node_set` -/
def nodeSet (calls : UserCalls) (w : World) : Except Fault World := do
  let node := w.client.node
  let text ← kxSyncSendCmd calls.sendNode .NODE_SET [.s node.uuid, .s node.uuid, .s node.ip, .s node.mac]
  return w.sent text

/-- `kx_user_register` -/
def userRegister (calls : UserCalls) (puser ppwd : Option CStr) (w : World) : Except Fault World := do
  let puser ← deref .statePuser puser
  let ppwd ← deref .statePpwd ppwd
  zmalloc calls.creatUser
  let user := { kxCreatUser calls.heap w.client.node puser ppwd with isonline := 1 }
  let db ← kxCreatDb calls.db calls.dbHeap MAXMAPSIZE (.lit "./data") puser
  let w := { w with client := { w.client with user := some user, db } }
  let text ← kxSyncSendCmd calls.send .USER_REG
    [.s w.client.node.uuid, .s user.username, .s user.username, .s user.pwd, .num 1]
  return w.sent text

/-- `kx_user_get` -/
def userGet (calls : UserCalls) (w : World) : Except Fault World := do
  let user ← deref .clientUser w.client.user
  let text ← kxSyncSendCmd calls.send .USER_GET [.s w.client.node.uuid, .s user.username]
  return w.sent text

/-- `do_user` -/
def stepUser (cl : CommandLine UserOpt) (calls : UserCalls) (w : World) : Except Fault World := do
  zmalloc calls.initState
  match (doUser cl).2 with
  | none => return w
  | some (.kxUserRegister puser ppwd) =>
    let w ← nodeSet calls w
    userRegister calls puser ppwd w
  | some .kxUserGet => userGet calls w

/-! ## The handlers of the file command -/

/-- Outcomes of the calls of `do_file`; `pad` and `behind` are what the memory of the record holds
    outside its fields. -/
structure FileCalls where
  initState : Bool
  crypt : CryptCalls
  pad : Padding
  behind : Nat → UInt8
  listAdd : Bool
  send : Bool
  insert : InsertCalls
  decryptFopen : Bool
  decryptBlocks : BlockCalls
  get : GetCalls

/-- The string at an offset of the object of a record. -/
def FileObject.str (o : FileObject) (off : Nat) : CStr := CStr.ofMem ((o.file.bytes o.pad).drop off)

section Files

-- `XXH64`, and the file that a path names from the directory of the shell
variable (XXH64 : List UInt8 → UInt64 → UInt64) (names : CStr → Nat)

/-- `file_encrypt` once `kx_crypt_file` has returned a record. -/
def fileEncrypted (calls : FileCalls) (kf : KxFile) (w : World) : Except Fault World := do
  let o : FileObject := ⟨kf, calls.pad, calls.behind⟩
  zmalloc calls.listAdd
  let user ← deref .clientUser w.client.user
  let text ← kxSyncSendCmd calls.send .FILE_CRYPT
    [.num kf.uuid.toNat, .s (o.str 0), .s (o.str 255), .num kf.uuid.toNat, .s user.username,
      .s w.client.node.uuid]
  let db ← deref .clientDb w.client.db
  let (_, db) ← kxStoreDb calls.insert db KX_DB_INSERT_FILE (fileKy user.username kf.uuid) o
  return { w.sent text with
    client := { w.client with
      db := some db
      localCryptfiles := kf :: w.client.localCryptfiles } }

/-- `file_encrypt` -/
def fileEncrypt (calls : FileCalls) (file : Option CStr) (w : World) : Except Fault World :=
  match file with
  | none => .ok w
  | some path =>
    let userKey := w.client.user.map (·.key.bytes)
    match kxCryptFile XXH64 calls.crypt path userKey (w.files (names path)) with
    | (.error e, _) => .error e
    | (.ok none, content) => .ok (w.setFile (names path) content)
    | (.ok (some kf), content) => fileEncrypted calls kf (w.setFile (names path) content)

/-- `file_decrypt` -/
def fileDecrypt (calls : FileCalls) (file : Option CStr) (w : World) : Except Fault World :=
  match file with
  | none => .ok w
  | some path => do
    let user ← deref .clientUser w.client.user
    let (_, content) := kxDecryptFile calls.decryptFopen calls.decryptBlocks (w.files (names path))
      user.key.bytes
    return w.setFile (names path) content

/-- `file_getfilelist`: the lines printed. -/
def fileGetfilelist (calls : FileCalls) (w : World) : Except Fault (World × List ListedFile) := do
  let db ← deref .clientDb w.client.db
  let r := kxGetDb calls.get db KX_DB_GET_FILELIST 0 none
  return ({ w with client := { w.client with db := some r.db } }, r.printed)

/-- `do_file` -/
def stepFile (cl : CommandLine FileOpt) (calls : FileCalls) (w : World) : Except Fault World := do
  zmalloc calls.initState
  match (doFile cl).2 with
  | none => return w
  | some (.fileEncrypt file) => fileEncrypt XXH64 names calls file w
  | some (.fileDecrypt file) => fileDecrypt names calls file w
  | some .fileGetfilelist =>
    let (w, _) ← fileGetfilelist calls w
    return w

/-! ## Runs -/

/-- A command typed at the shell, with the outcomes of its calls. -/
inductive Command where
  | user (cl : CommandLine UserOpt) (calls : UserCalls)
  | file (cl : CommandLine FileOpt) (calls : FileCalls)

def step (w : World) : Command → Except Fault World
  | .user cl calls => stepUser cl calls w
  | .file cl calls => stepFile XXH64 names cl calls w

/-- A run of commands from `rkx_init`. -/
def session (node : KxNode) (files : Nat → List UInt8) (cmds : List Command) : Except Fault World :=
  run (step XXH64 names) (rkxInit node files) cmds

end Files

end Rkx
