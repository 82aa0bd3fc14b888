import Rkx.ReadBack
import Rkx.Lib.Runs

/-!
# Runs of calls on one database

`MDB_CHECK` returns from `insert_file` and `get_file` with whatever is open at that point.

* `DbCall`, `dbStep`: a call of `kx_store_db` or `kx_get_db` with the outcomes of its LMDB calls;
* `insertFile_ends_iff`, `getFile_ends_iff`, `dbStep_ends_iff`: the calls that return with nothing
  open;
* `leaves_nothing_open_iff`: a run leaves nothing open behind any of its calls, exactly if all of
  them are such calls.
-/

set_option autoImplicit false

namespace Rkx

open Lib.Bytes Lib.CString Lib.Runs

/-- No transaction and no cursor of the thread is open. -/
structure MdbEnv.NothingOpen (env : MdbEnv) : Prop where
  writeTxn : env.writeTxn = false
  readTxn : env.readTxn = false
  cursors : env.cursors = 0

/-- A call on the database, with what it is given and the return codes of LMDB in it. -/
inductive DbCall where
  | store (calls : InsertCalls) (type : Nat) (key : CStr) (data : FileObject)
  | get (calls : GetCalls) (type : Nat) (key : UInt64) (outdata : Option (List UInt8))

/-- The database after a call; an error when the call does not return. -/
def dbStep (db : KxDb) : DbCall → Except Fault KxDb
  | .store calls type key data => (kxStoreDb calls db type key data).map Prod.snd
  | .get calls type key outdata => .ok (kxGetDb calls db type key outdata).db

/-- Every call of the run returns and leaves nothing open. -/
def LeavesNothingOpen (db : KxDb) (calls : List DbCall) : Prop :=
  Always dbStep (fun db => db.env.NothingOpen) db calls

/-! ## What one call leaves open -/

/-- The write transaction begins and is committed: there is a database to write to, and `mdb_put`
    succeeds. -/
structure InsertCalls.Ends (calls : InsertCalls) : Prop where
  txnBegin : calls.txnBegin = MDB_SUCCESS
  dbi : calls.dbiOpen = MDB_SUCCESS ∨ calls.stray.isSome = true
  put : calls.put = MDB_SUCCESS

/-- The read transaction does not begin, or it goes on to its end: the database is there and has the
    key, and opening it, opening the cursor and `MDB_SET` succeed. -/
def GetCalls.Ends (calls : GetCalls) (table : Option Table) (key : UInt64) : Prop :=
  calls.txnBegin ≠ MDB_SUCCESS ∨
    (∃ t, table = some t ∧ t[toLE 8 key.toNat]?.isSome = true) ∧ calls.dbiOpen = MDB_SUCCESS ∧
      calls.cursorOpen = MDB_SUCCESS ∧ calls.cursorSet = MDB_SUCCESS

/-- What a call needs to return with nothing open. -/
def DbCall.Ends (db : KxDb) : DbCall → Prop
  | .store calls type _ _ => type = KX_DB_INSERT_FILE → calls.Ends
  | .get calls type key _ => type = KX_DB_GET_FILE → calls.Ends (db.env.dbs db.dbname) key

variable {db : KxDb}

/-- The database that `dbi` denotes. -/
theorem dbi_isSome_iff (calls : InsertCalls) (dbname : CStr) :
    (if calls.dbiOpen = MDB_SUCCESS then some dbname else calls.stray).isSome = true ↔
      calls.dbiOpen = MDB_SUCCESS ∨ calls.stray.isSome = true := by
  by_cases hopen : calls.dbiOpen = MDB_SUCCESS <;> simp [hopen]

/-- A transaction that `mdb_txn_commit` ends, also when it fails. -/
theorem insertFile_of_ends {env : MdbEnv} (hw : env.writeTxn = false) {calls : InsertCalls}
    (h : calls.Ends) (dbname ky : CStr) (o : FileObject) :
    ∃ dbs, insertFile calls env dbname ky o = .ok { env with dbs, writeTxn := false } := by
  obtain ⟨hbegin, hdbi, hput⟩ := h
  obtain ⟨name, hname⟩ := Option.isSome_iff_exists.1 ((dbi_isSome_iff calls dbname).2 hdbi)
  unfold insertFile
  simp only [hw, hbegin, hname, hput, Bool.false_eq_true, ne_eq, not_true_eq_false, if_false]
  split
  · exact ⟨env.dbs, rfl⟩
  · exact ⟨_, rfl⟩

/-- `MDB_CHECK` returns before the commit, or `txn` is NULL. -/
theorem insertFile_of_not_ends {env : MdbEnv} (hw : env.writeTxn = false) {calls : InsertCalls}
    (h : ¬ calls.Ends) (dbname ky : CStr) (o : FileObject) :
    insertFile calls env dbname ky o = .error (.null .txn) ∨
      insertFile calls env dbname ky o = .ok { env with writeTxn := true } := by
  unfold insertFile
  rw [hw, if_neg Bool.false_ne_true]
  by_cases hbegin : calls.txnBegin = MDB_SUCCESS
  swap
  · rw [if_pos hbegin]
    exact Or.inl rfl
  rw [if_neg (not_not.2 hbegin)]
  right
  dsimp only
  split
  · rfl
  · rename_i name hname
    have hdbi := (dbi_isSome_iff calls dbname).1 (by rw [hname]; rfl)
    have hput : calls.put ≠ MDB_SUCCESS := fun hput => h ⟨hbegin, hdbi, hput⟩
    rw [if_pos hput]

/-- `insert_file` leaves nothing open exactly if its transaction is committed. -/
theorem insertFile_ends_iff {env : MdbEnv} (henv : env.NothingOpen) (calls : InsertCalls)
    (dbname ky : CStr) (o : FileObject) :
    (∃ env', insertFile calls env dbname ky o = .ok env' ∧ env'.NothingOpen) ↔ calls.Ends := by
  obtain ⟨hw, hr, hc⟩ := henv
  constructor
  · rintro ⟨env', hret, hopen⟩
    by_contra hends
    rcases insertFile_of_not_ends hw hends dbname ky o with h | h
    · rw [h] at hret
      cases hret
    · rw [h] at hret
      cases hret
      exact Bool.noConfusion hopen.writeTxn
  · intro hends
    obtain ⟨dbs, h⟩ := insertFile_of_ends hw hends dbname ky o
    exact ⟨_, h, rfl, hr, hc⟩

/-- `get_file` leaves nothing open exactly if its transaction does not begin or goes to its end. -/
theorem getFile_ends_iff {env : MdbEnv} (henv : env.NothingOpen) (calls : GetCalls) (dbname : CStr)
    (key : UInt64) (out : Option (List UInt8)) :
    (getFile calls env dbname key out).1.NothingOpen ↔ calls.Ends (env.dbs dbname) key := by
  have hrest := henv
  obtain ⟨hw, hr, hc⟩ := henv
  unfold getFile GetCalls.Ends
  by_cases hbegin : calls.txnBegin = MDB_SUCCESS
  swap
  · rw [if_pos (Or.inr hbegin)]
    exact iff_of_true hrest (Or.inl hbegin)
  have hidle : ¬ (env.readTxn = true ∨ calls.txnBegin ≠ MDB_SUCCESS) := by
    simp [hr, hbegin]
  rw [if_neg hidle]
  simp only [hbegin, ne_eq, not_true_eq_false, false_or]
  cases htable : env.dbs dbname with
  | none => exact iff_of_false (fun h => Bool.noConfusion h.readTxn) (by simp)
  | some table =>
    simp only [Option.some.injEq, exists_eq_left']
    by_cases hopen : calls.dbiOpen = MDB_SUCCESS
    swap
    · rw [if_pos hopen]
      exact iff_of_false (fun h => Bool.noConfusion h.readTxn) (fun h => hopen h.2.1)
    by_cases hcursor : calls.cursorOpen = MDB_SUCCESS
    swap
    · rw [if_neg (not_not.2 hopen), if_pos hcursor]
      exact iff_of_false (fun h => Bool.noConfusion h.readTxn) (fun h => hcursor h.2.2.1)
    rw [if_neg (not_not.2 hopen), if_neg (not_not.2 hcursor)]
    cases hkey : table[toLE 8 key.toNat]? with
    | none => exact iff_of_false (fun h => Bool.noConfusion h.readTxn) (by simp)
    | some data =>
      by_cases hset : calls.cursorSet = MDB_SUCCESS
      · simp only [hset, not_true_eq_false, if_false]
        refine iff_of_true ⟨hw, rfl, ?_⟩ ⟨rfl, hopen, hcursor, trivial⟩
        show env.cursors + 1 - 1 = 0
        omega
      · simp only [hset, not_false_eq_true, if_true]
        exact iff_of_false (fun h => Bool.noConfusion h.readTxn) (fun h => h.2.2.2)

/-- `get_file_list` closes what it has opened on every path. -/
theorem getFileList_env (calls : GetCalls) (env : MdbEnv) (dbname : CStr) :
    (getFileList calls env dbname).1 = env := by
  unfold getFileList
  split
  · rfl
  · split
    · rfl
    · split
      · rfl
      · split <;> rfl

/-! ## Runs -/

/-- **One call** from a state with nothing open returns to such a state exactly if it ends what it
    begins. -/
theorem dbStep_ends_iff (call : DbCall) (hdb : db.env.NothingOpen) :
    (∃ db', dbStep db call = .ok db' ∧ db'.env.NothingOpen) ↔ call.Ends db := by
  cases call with
  | store calls type key data =>
    by_cases htype : type = KX_DB_INSERT_FILE
    · have hiff := insertFile_ends_iff hdb calls db.dbname key data
      simp only [DbCall.Ends, htype, true_imp_iff, ← hiff, dbStep, kxStoreDb, if_true]
      cases insertFile calls db.env db.dbname key data with
      | error e => simp [Except.map, bind, Except.bind]
      | ok env => simp [Except.map, bind, Except.bind, pure, Except.pure]
    · refine iff_of_true ⟨db, ?_, hdb⟩ (fun h => absurd h htype)
      simp only [dbStep, kxStoreDb, if_neg htype]
      rfl
  | get calls type key outdata =>
    simp only [dbStep, Except.ok.injEq, exists_eq_left', DbCall.Ends]
    unfold kxGetDb
    by_cases hfile : type = KX_DB_GET_FILE
    · rw [if_pos hfile, ← getFile_ends_iff hdb calls db.dbname key outdata]
      simp only [hfile, true_imp_iff]
    · rw [if_neg hfile]
      refine iff_of_true ?_ (fun h => absurd h hfile)
      by_cases hlist : type = KX_DB_GET_FILELIST
      · rw [if_pos hlist]
        show (getFileList calls db.env db.dbname).1.NothingOpen
        rwa [getFileList_env]
      · rw [if_neg hlist]
        exact hdb

/-- **No transaction is left open**: from a database with nothing open every call of a run returns
    with nothing open, exactly if every call of it ends what it begins. -/
theorem leaves_nothing_open_iff (db : KxDb) (dbs : CStr → Option Table) (calls : List DbCall) :
    LeavesNothingOpen (db.holding dbs) calls ↔ Along dbStep DbCall.Ends (db.holding dbs) calls :=
  always_iff_along (fun _ call hdb => dbStep_ends_iff call hdb) calls ⟨rfl, rfl, rfl⟩

/-- The key of a file that is not in the database is asked for: the read transaction and the cursor
    stay open.  A put fails since the map is full: the next store waits for its own thread. -/
theorem leaves_open_sample :
    ¬ LeavesNothingOpen (dbSample.holding fun _ => some ∅)
        [.get (GetCalls.success 0) KX_DB_GET_FILE 7 none] ∧
      run dbStep (dbSample.holding fun _ => some ∅)
        [.store { InsertCalls.success with put := -30792 } KX_DB_INSERT_FILE (.lit "bob:7") recordSample,
          .store InsertCalls.success KX_DB_INSERT_FILE (.lit "bob:7") recordSample] =
        .error .blocked := by
  constructor
  · intro h
    obtain ⟨db', hstep, hopen, -⟩ := (always_cons_iff (by exact ⟨rfl, rfl, rfl⟩) _ _).1 h
    rcases (dbStep_ends_iff _ ⟨rfl, rfl, rfl⟩).1 ⟨db', hstep, hopen⟩ rfl with hbegin | ⟨⟨t, ht, hkey⟩, -⟩
    · exact hbegin rfl
    · cases ht
      simp at hkey
  · rfl

end Rkx
