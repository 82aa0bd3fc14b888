import Rkx.DbRuns

/-!
# What the store API reports

`insert_file` and `get_file` return nothing, so that `kx_store_db` and `kx_get_db` have no result of
theirs to pass on.

* `InsertCalls.Stores`, `GetCalls.Works`: the calls in which LMDB does not fail;
* `kxGetDb_works`: what `*outdata` is when it does not;
* `reports_iff`: a call reports what happened exactly if LMDB does not fail in it and, where the key
  is absent, `*outdata` was NULL before.
-/

set_option autoImplicit false

namespace Rkx

open Lib.Bytes Lib.CString

/-- `mdb_put` and `mdb_txn_commit` are reached, and both succeed. -/
structure InsertCalls.Stores (calls : InsertCalls) (env : MdbEnv) : Prop where
  idle : env.writeTxn = false
  ends : calls.Ends
  commit : calls.commit = MDB_SUCCESS

/-- What the named database has under the key. -/
def entry (env : MdbEnv) (dbname : CStr) (key : UInt64) : Option (List UInt8) :=
  (env.dbs dbname).bind (·[toLE 8 key.toNat]?)

/-- No call of LMDB fails; that `MDB_SET` does not find an absent key is no failure. -/
structure GetCalls.Works (calls : GetCalls) (env : MdbEnv) (dbname : CStr) (key : UInt64) : Prop where
  idle : env.readTxn = false
  txnBegin : calls.txnBegin = MDB_SUCCESS
  database : (env.dbs dbname).isSome = true
  dbiOpen : calls.dbiOpen = MDB_SUCCESS
  cursorOpen : calls.cursorOpen = MDB_SUCCESS
  cursorSet : calls.cursorSet = MDB_SUCCESS
  cursorCurrent : (entry env dbname key).isSome = true → calls.cursorCurrent = MDB_SUCCESS

/-- A store reports what happened: it returns 0 if the record was put and committed, and else -1. -/
def StoreReported (calls : InsertCalls) (db : KxDb) (type : Nat) (key : CStr) (data : FileObject) : Prop :=
  ∃ ret db', kxStoreDb calls db type key data = .ok (ret, db') ∧
    (ret = 0 ↔ calls.Stores db.env) ∧ (ret = -1 ↔ ¬ calls.Stores db.env)

/-- A get reports what happened: it returns -1 if LMDB failed, and else `*outdata` is the record under
    the key, or NULL when there is none. -/
structure GetReported (calls : GetCalls) (db : KxDb) (key : UInt64) (r : GetResult) : Prop where
  ret : r.ret = -1 ↔ ¬ calls.Works db.env db.dbname key
  outdata : calls.Works db.env db.dbname key → r.outdata = entry db.env db.dbname key

/-- A call that stores or gets a record reports what happened. -/
def DbCall.Reported (db : KxDb) : DbCall → Prop
  | .store calls type key data => type = KX_DB_INSERT_FILE → StoreReported calls db type key data
  | .get calls type key outdata =>
    type = KX_DB_GET_FILE → GetReported calls db key (kxGetDb calls db type key outdata)

/-- LMDB does not fail in the call, and where the key is absent `*outdata` is NULL before. -/
def DbCall.Works (db : KxDb) : DbCall → Prop
  | .store calls type _ _ => type = KX_DB_INSERT_FILE → calls.Stores db.env
  | .get calls type key outdata =>
    type = KX_DB_GET_FILE → calls.Works db.env db.dbname key ∧
      (entry db.env db.dbname key = none → outdata = none)

/-- `kx_store_db` returns 0 whenever it returns. -/
theorem kxStoreDb_ret {calls : InsertCalls} {db db' : KxDb} {key : CStr} {data : FileObject} {ret : Int}
    (h : kxStoreDb calls db KX_DB_INSERT_FILE key data = .ok (ret, db')) : ret = 0 := by
  rw [kxStoreDb, if_pos rfl, bind_eq_ok] at h
  obtain ⟨env, -, h⟩ := h
  cases h
  rfl

/-- **A store reports** exactly the outcome in which the record is put and committed. -/
theorem storeReported_iff (calls : InsertCalls) (db : KxDb) (key : CStr) (data : FileObject) :
    StoreReported calls db KX_DB_INSERT_FILE key data ↔ calls.Stores db.env := by
  constructor
  · rintro ⟨ret, db', hret, hzero, -⟩
    exact hzero.1 (kxStoreDb_ret hret)
  · intro h
    obtain ⟨dbs, hinsert⟩ := insertFile_of_ends h.idle h.ends db.dbname key data
    refine ⟨0, { db with env := { db.env with dbs, writeTxn := false } }, ?_, ?_, ?_⟩
    · rw [kxStoreDb, if_pos rfl, hinsert]
      rfl
    · exact iff_of_true rfl h
    · exact iff_of_false (by decide) (not_not.2 h)

/-- `kx_get_db` returns 0. -/
theorem kxGetDb_ret (calls : GetCalls) (db : KxDb) (key : UInt64) (outdata : Option (List UInt8)) :
    (kxGetDb calls db KX_DB_GET_FILE key outdata).ret = 0 := rfl

/-- **What a get finds** when LMDB does not fail; without a record it leaves `*outdata` alone. -/
theorem kxGetDb_works {calls : GetCalls} {db : KxDb} {key : UInt64}
    (h : calls.Works db.env db.dbname key) (outdata : Option (List UInt8)) :
    (kxGetDb calls db KX_DB_GET_FILE key outdata).outdata =
      (entry db.env db.dbname key).or outdata := by
  obtain ⟨table, htable⟩ := Option.isSome_iff_exists.1 h.database
  have hcurrent := h.cursorCurrent
  have hidle : ¬ (db.env.readTxn = true ∨ calls.txnBegin ≠ MDB_SUCCESS) := by
    simp [h.idle, h.txnBegin]
  show (getFile calls db.env db.dbname key outdata).2 = _
  unfold getFile
  unfold entry at hcurrent ⊢
  rw [if_neg hidle]
  simp only [htable, h.dbiOpen, h.cursorOpen, h.cursorSet, ne_eq, not_true_eq_false, if_false,
    Option.bind_some] at hcurrent ⊢
  cases hdata : table[toLE 8 key.toNat]? with
  | none => rfl
  | some data =>
    rw [hdata] at hcurrent
    simp [hcurrent rfl]

/-- **A get reports** exactly if LMDB does not fail, and `*outdata` is NULL before an absent key. -/
theorem getReported_iff (calls : GetCalls) (db : KxDb) (key : UInt64) (outdata : Option (List UInt8)) :
    GetReported calls db key (kxGetDb calls db KX_DB_GET_FILE key outdata) ↔
      calls.Works db.env db.dbname key ∧ (entry db.env db.dbname key = none → outdata = none) := by
  have hret : (kxGetDb calls db KX_DB_GET_FILE key outdata).ret ≠ -1 := by
    rw [kxGetDb_ret]
    decide
  constructor
  · intro h
    have hworks : calls.Works db.env db.dbname key := by
      by_contra hfails
      exact hret (h.ret.2 hfails)
    refine ⟨hworks, ?_⟩
    intro habsent
    have hout := h.outdata hworks
    rwa [kxGetDb_works hworks, habsent, Option.none_or] at hout
  · rintro ⟨hworks, habsent⟩
    refine ⟨iff_of_false hret (not_not.2 hworks), fun _ => ?_⟩
    rw [kxGetDb_works hworks]
    cases hentry : entry db.env db.dbname key with
    | none => rw [Option.none_or, habsent hentry]
    | some data => rfl

/-- **The store API reports what happened**, exactly in the calls in which LMDB does not fail and, if
    the key is absent, the pointer was NULL before. -/
theorem reports_iff (db : KxDb) (call : DbCall) : call.Reported db ↔ call.Works db := by
  cases call with
  | store calls type key data =>
    refine imp_congr_right ?_
    rintro rfl
    exact storeReported_iff calls db key data
  | get calls type key outdata =>
    refine imp_congr_right ?_
    rintro rfl
    exact getReported_iff calls db key outdata

/-- The map is full, and `kx_store_db` returns 0; the key is absent, and `*outdata` still points to what
    it pointed to before. -/
theorem unreported_sample :
    ¬ (DbCall.store { InsertCalls.success with put := -30792 } KX_DB_INSERT_FILE (.lit "bob:7")
        recordSample).Reported (dbSample.holding fun _ => some ∅) ∧
      ¬ (DbCall.get (GetCalls.success 0) KX_DB_GET_FILE 7 (some [])).Reported
        (dbSample.holding fun _ => some ∅) := by
  constructor
  · intro h
    have hstores := (storeReported_iff _ _ _ _).1 (h rfl)
    exact absurd hstores.ends.put (by decide)
  · intro h
    obtain ⟨-, habsent⟩ := (getReported_iff _ _ _ _).1 (h rfl)
    have hentry : entry (dbSample.holding fun _ => some ∅).env (dbSample.holding fun _ => some ∅).dbname 7 =
        none := by
      show (∅ : Table)[toLE 8 (7 : UInt64).toNat]? = none
      exact Std.ExtTreeMap.getElem?_empty
    cases habsent hentry

end Rkx
