import Mathlib.Tactic.Linarith
import Rkx.File
import Rkx.Field

/-!
# The local store (`db.c`)

An LMDB environment is its named databases, ordered maps from byte strings to byte strings, and
what is open in it.  A call of LMDB takes its return code from an argument; the two rules that the
model adds are that `mdb_txn_begin` waits while a write transaction of the thread is open, and
fails for reading while a read transaction of the thread is open.

* `kxCreatDb`, `kxStoreDb`, `kxGetDb` with `insertFile`, `getFile`, `getFileList`;
* `fileKy`: the key text that `file_encrypt` formats.
-/

set_option autoImplicit false

namespace Rkx

open Lib.Bytes Lib.CString

abbrev Table := Std.ExtTreeMap (List UInt8) (List UInt8)

def MDB_SUCCESS : Int := 0

/-- `MDB_env`: the named databases and the open transactions and cursors of the thread. -/
structure MdbEnv where
  dbs : CStr → Option Table
  writeTxn : Bool
  readTxn : Bool
  cursors : Nat

/-- An environment in which nothing is open. -/
def MdbEnv.atRest (dbs : CStr → Option Table) : MdbEnv := ⟨dbs, false, false, 0⟩

/-! ## `kx_creat_db` -/

/-- `struct kxdb`; `mem` begins with `dbname[32]`, `dbpath[128]` and the bytes up to the end. -/
structure KxDb where
  maxMapsize : Nat
  env : MdbEnv
  mem : List UInt8
  size : mem.length = 164

def KxDb.dbpathOff : Nat := 32
def KxDb.dbname (db : KxDb) : CStr := CStr.ofMem db.mem
def KxDb.dbpath (db : KxDb) : CStr := CStr.ofMem (db.mem.drop KxDb.dbpathOff)

/-- Outcomes of the calls of `kx_creat_db`, and what the environment holds when it is opened. -/
structure CreatDbCalls where
  zmalloc : Bool
  envCreate : Int
  setMapsize : Int
  envOpen : Int
  disk : CStr → Option Table

/-- What `kx_creat_db` writes into the two arrays. -/
def fillDb (mem : List UInt8) (dbpath dbname : CStr) : List UInt8 :=
  copyField (copyField mem KxDb.dbpathOff 128 dbpath) 0 32 dbname

theorem length_fillDb {mem : List UInt8} (hmem : mem.length = 164) (dbpath dbname : CStr) :
    (fillDb mem dbpath dbname).length = 164 := by
  have hpath : (copyField mem KxDb.dbpathOff 128 dbpath).length = 164 := by
    rw [length_copyField (by rw [hmem]; decide), hmem]
  unfold fillDb
  rw [length_copyField (by omega), hpath]

/-- **The name of a new database** and what lies behind it. -/
theorem fillDb_eq (heap : Vector UInt8 164) (dbpath dbname : CStr) :
    ∃ rest, fillDb heap.toList dbpath dbname = strncpyBytes dbname 31 ++ heap.get 31 :: 0 :: rest := by
  have hpath : (copyField heap.toList KxDb.dbpathOff 128 dbpath).length = 164 := by
    rw [length_copyField (by rw [heap.length_toList]; decide), heap.length_toList]
  have htake := @take_copyField heap.toList KxDb.dbpathOff 128 dbpath 32
    (by rw [heap.length_toList]; decide) (Nat.le_refl 32)
  have hlast : (copyField heap.toList KxDb.dbpathOff 128 dbpath)[0 + (32 - 1)]? = some (heap.get 31) := by
    rw [← List.getElem?_take_of_lt (by decide : 0 + (32 - 1) < 32), htake,
      List.getElem?_take_of_lt (by decide)]
    rw [List.getElem?_eq_getElem (by simp), Vector.getElem_toList]
    rfl
  exact ⟨_, copyField_eq (by omega) (by decide) hlast⟩

/-- `kx_creat_db` in memory with this content; the results of `stat` and `kx_mkdirp` do not
    matter to it. -/
def kxCreatDb (calls : CreatDbCalls) (heap : Vector UInt8 164) (size : Nat) (dbpath dbname : CStr) :
    Except Fault (Option KxDb) := do
  zmalloc calls.zmalloc
  let db : KxDb :=
    { maxMapsize := size
      env := MdbEnv.atRest calls.disk
      mem := fillDb heap.toList dbpath dbname
      size := length_fillDb heap.length_toList dbpath dbname }
  if calls.envCreate ≠ MDB_SUCCESS then return none
  if calls.setMapsize ≠ MDB_SUCCESS then return none
  if calls.envOpen ≠ MDB_SUCCESS then return none
  return some db

/-- How `kx_creat_db` returns: with a database, or with NULL. -/
theorem kxCreatDb_ok {calls : CreatDbCalls} {heap : Vector UInt8 164} {size : Nat}
    {dbpath dbname : CStr} {db : Option KxDb} (h : kxCreatDb calls heap size dbpath dbname = .ok db) :
    calls.zmalloc = true ∧
      ((∃ d, db = some d) ↔
        calls.envCreate = MDB_SUCCESS ∧ calls.setMapsize = MDB_SUCCESS ∧ calls.envOpen = MDB_SUCCESS) ∧
      ∀ d, db = some d → d.mem = fillDb heap.toList dbpath dbname := by
  obtain ⟨_, halloc, hopen⟩ := bind_eq_ok.1 h
  refine ⟨zmalloc_eq_ok.1 halloc, ?_⟩
  by_cases hc : calls.envCreate = MDB_SUCCESS
  · by_cases hm : calls.setMapsize = MDB_SUCCESS
    · by_cases ho : calls.envOpen = MDB_SUCCESS
      · simp only [hc, hm, ho, ne_eq, not_true_eq_false, if_false] at hopen
        cases hopen
        exact ⟨by simp [hc, hm, ho], fun d hd => by cases hd; rfl⟩
      · simp only [hc, hm, ho, ne_eq, not_true_eq_false, not_false_eq_true, if_true, if_false] at hopen
        cases hopen
        simp [ho]
    · simp only [hc, hm, ne_eq, not_true_eq_false, not_false_eq_true, if_true, if_false] at hopen
      cases hopen
      simp [hm]
  · simp only [hc, ne_eq, not_false_eq_true, if_true] at hopen
    cases hopen
    simp [hc]

/-! ## `insert_file` -/

/-- The memory of a `kxfile` object: the record, its padding and the bytes behind the object. -/
structure FileObject where
  file : KxFile
  pad : Padding
  behind : Nat → UInt8

/-- The `n` bytes from `&file->uuid` on, which for `n > 16` lie behind the object. -/
def FileObject.fromUuid (o : FileObject) (n : Nat) : List UInt8 :=
  (List.range n).map fun i => (o.file.bytesFromUuid o.pad)[i]?.getD (o.behind i)

/-- Return codes of LMDB in `insert_file`; `stray` is the database that `dbi` happens to denote
    when `mdb_dbi_open` fails. -/
structure InsertCalls where
  txnBegin : Int
  dbiOpen : Int
  stray : Option CStr
  put : Int
  commit : Int

def InsertCalls.success : InsertCalls := ⟨MDB_SUCCESS, MDB_SUCCESS, none, MDB_SUCCESS, MDB_SUCCESS⟩

/-- `insert_file` -/
def insertFile (calls : InsertCalls) (env : MdbEnv) (dbname ky : CStr) (o : FileObject) :
    Except Fault MdbEnv :=
  if env.writeTxn then .error .blocked
  else if calls.txnBegin ≠ MDB_SUCCESS then .error (.null .txn)
  else
    let env := { env with writeTxn := true }
    let dbi := if calls.dbiOpen = MDB_SUCCESS then some dbname else calls.stray
    let key := o.fromUuid ky.strlen
    let data := o.file.bytes o.pad
    match dbi with
    | none => .ok env
    | some name =>
      if calls.put ≠ MDB_SUCCESS then .ok env
      else
        let env := { env with writeTxn := false }
        if calls.commit ≠ MDB_SUCCESS then .ok env
        else
          .ok { env with
            dbs := Function.update env.dbs name (some (((env.dbs name).getD ∅).insert key data)) }

/-! ## `get_file` and `get_file_list` -/

/-- Return codes of LMDB in `get_file` and `get_file_list`; `next` records at most are delivered
    by `MDB_NEXT`. -/
structure GetCalls where
  txnBegin : Int
  dbiOpen : Int
  cursorOpen : Int
  cursorSet : Int
  cursorCurrent : Int
  next : Nat

def GetCalls.success (next : Nat) : GetCalls :=
  ⟨MDB_SUCCESS, MDB_SUCCESS, MDB_SUCCESS, MDB_SUCCESS, MDB_SUCCESS, next⟩

/-- `get_file`: the environment, and where `*outfile` points then (`none` is NULL). -/
def getFile (calls : GetCalls) (env : MdbEnv) (dbname : CStr) (key : UInt64)
    (outfile : Option (List UInt8)) : MdbEnv × Option (List UInt8) :=
  if env.readTxn ∨ calls.txnBegin ≠ MDB_SUCCESS then (env, outfile)
  else
    let env := { env with readTxn := true }
    match env.dbs dbname with
    | none => (env, outfile)
    | some table =>
      if calls.dbiOpen ≠ MDB_SUCCESS then (env, outfile)
      else if calls.cursorOpen ≠ MDB_SUCCESS then (env, outfile)
      else
        let env := { env with cursors := env.cursors + 1 }
        match table[toLE 8 key.toNat]? with
        | none => (env, outfile)
        | some data =>
          if calls.cursorSet ≠ MDB_SUCCESS then (env, outfile)
          else
            let outfile := if calls.cursorCurrent = MDB_SUCCESS then some data else none
            ({ env with cursors := env.cursors - 1, readTxn := false }, outfile)

/-- A line of `get_file_list`: name, path and uuid of a record. -/
structure ListedFile where
  fname : CStr
  fullname : CStr
  uuid : Nat

/-- What `printf` reads of the stored bytes. -/
def ListedFile.ofData (data : List UInt8) : ListedFile :=
  ⟨CStr.ofMem data, CStr.ofMem (data.drop 255), ofLE ((data.drop 4352).take 8)⟩

/-- `get_file_list`: the environment and the lines printed, in the order of the keys. -/
def getFileList (calls : GetCalls) (env : MdbEnv) (dbname : CStr) : MdbEnv × List ListedFile :=
  if env.readTxn ∨ calls.txnBegin ≠ MDB_SUCCESS then (env, [])
  else
    match env.dbs dbname with
    | none => (env, [])
    | some table =>
      if calls.dbiOpen ≠ MDB_SUCCESS then (env, [])
      else if calls.cursorOpen ≠ MDB_SUCCESS then (env, [])
      else (env, (table.toList.take calls.next).map fun entry => ListedFile.ofData entry.2)

/-! ## `kx_store_db` and `kx_get_db` -/

def KX_DB_INSERT_FILE : Nat := 1
def KX_DB_GET_FILE : Nat := 2
def KX_DB_GET_FILELIST : Nat := 3

/-- `kx_store_db` -/
def kxStoreDb (calls : InsertCalls) (db : KxDb) (type : Nat) (key : CStr) (data : FileObject) :
    Except Fault (Int × KxDb) := do
  if type = KX_DB_INSERT_FILE then
    let env ← insertFile calls db.env db.dbname key data
    return (0, { db with env })
  else return (-1, db)

/-- How a call of `kx_get_db` ends. -/
structure GetResult where
  ret : Int
  db : KxDb
  outdata : Option (List UInt8)
  printed : List ListedFile

/-- `kx_get_db`; `key` is the uuid that the pointer leads to. -/
def kxGetDb (calls : GetCalls) (db : KxDb) (type : Nat) (key : UInt64)
    (outdata : Option (List UInt8)) : GetResult :=
  if type = KX_DB_GET_FILE then
    let (env, outdata) := getFile calls db.env db.dbname key outdata
    { ret := 0, db := { db with env }, outdata, printed := [] }
  else if type = KX_DB_GET_FILELIST then
    let (env, printed) := getFileList calls db.env db.dbname
    { ret := 0, db := { db with env }, outdata, printed }
  else { ret := -1, db, outdata, printed := [] }

/-- The text `"%s:%lu"` that `file_encrypt` formats into its buffer of 64 bytes. -/
def fileKy (username : CStr) (uuid : UInt64) : CStr :=
  CStr.snprintf 64 ((username.append (.lit ":")).append (decimal uuid.toNat))

end Rkx
