import Rkx.Db

/-!
# Reading a stored record back

`insert_file` takes the length of the key from the text `"%s:%lu"` and its bytes from the memory of
the record, `get_file` takes the eight bytes of the uuid.

* `read?_bytes`: the stored bytes denote the record;
* `getElem?_insertFile`: the entry under the eight bytes of the uuid after a store;
* `reads_back_iff`: a stored record is found again exactly if the text has eight bytes, or the
  database had the record under the bytes of the uuid before.
-/

set_option autoImplicit false

namespace Rkx

open Lib.Bytes Lib.CString

/-! ## The bytes of a record -/

theorem KxFileType.ofNat?_toNat (t : KxFileType) : KxFileType.ofNat? t.toNat = some t := by
  cases t <;> rfl

theorem KxFileType.toNat_lt (t : KxFileType) : t.toNat < 256 ^ 4 := by cases t <;> decide

@[simp] theorem KxFile.length_bytesFromUuid (f : KxFile) (pad : Padding) :
    (f.bytesFromUuid pad).length = 16 := by
  simp [KxFile.bytesFromUuid]

@[simp] theorem KxFile.length_bytes (f : KxFile) (pad : Padding) : (f.bytes pad).length = 4368 := by
  simp [KxFile.bytes]

/-- A field reads back from the bytes that lie at its offset. -/
theorem KxFile.field_append {n : Nat} (p rest : List UInt8) (v : Vector UInt8 n) :
    KxFile.field n (p ++ (v.toList ++ rest)) p.length = v := by
  apply Vector.ext
  intro i hi
  unfold KxFile.field
  rw [Vector.getElem_ofFn, List.getD_eq_getElem?_getD,
    List.getElem?_append_right (Nat.le_add_right _ _), Nat.add_sub_cancel_left,
    List.getElem?_append_left (by simpa using hi), List.getElem?_eq_getElem (by simpa using hi),
    Option.getD_some, Vector.getElem_toList]

/-- **The bytes of a record denote it**, whatever its padding holds. -/
theorem KxFile.read?_bytes (f : KxFile) (pad : Padding) : KxFile.read? (f.bytes pad) = some f := by
  have hfname : KxFile.field 255 (f.bytes pad) 0 = f.fname := KxFile.field_append [] _ _
  have hfullname : KxFile.field 4096 (f.bytes pad) 255 = f.fullname := by
    have h := KxFile.field_append f.fname.toList (pad.beforeUuid :: f.bytesFromUuid pad) f.fullname
    rwa [Vector.length_toList] at h
  have hdrop : (f.bytes pad).drop 4352 = f.bytesFromUuid pad := by
    have h : f.bytes pad =
        (f.fname.toList ++ f.fullname.toList ++ [pad.beforeUuid]) ++ f.bytesFromUuid pad := by
      simp [KxFile.bytes]
    rw [h, List.drop_left' (by simp)]
  have huuid : ofLE (((f.bytes pad).drop 4352).take 8) = f.uuid.toNat := by
    rw [hdrop, KxFile.bytesFromUuid, List.take_left' (length_toLE _ _),
      ofLE_toLE_of_lt (by exact f.uuid.toNat_lt)]
  have htype : ofLE (((f.bytes pad).drop 4360).take 4) = f.type.toNat := by
    rw [show 4360 = 4352 + 8 from rfl, ← List.drop_drop, hdrop, KxFile.bytesFromUuid,
      List.drop_left' (length_toLE _ _), List.take_left' (length_toLE _ _),
      ofLE_toLE_of_lt f.type.toNat_lt]
  rw [KxFile.read?, if_pos (KxFile.length_bytes f pad), hfname, hfullname, huuid, htype,
    KxFileType.ofNat?_toNat, Option.map_some, UInt64.ofNat_toNat]

/-! ## The keys of the writer and of the reader -/

@[simp] theorem FileObject.length_fromUuid (o : FileObject) (n : Nat) :
    (o.fromUuid n).length = n := by
  simp [FileObject.fromUuid]

theorem FileObject.fromUuid_eight (o : FileObject) : o.fromUuid 8 = toLE 8 o.file.uuid.toNat := by
  apply List.ext_getElem?
  intro i
  rcases Nat.lt_or_ge i 8 with hi | hi
  · have hget : i < (toLE 8 o.file.uuid.toNat).length := by rwa [length_toLE]
    simp only [FileObject.fromUuid, List.getElem?_map, List.getElem?_range hi, Option.map_some,
      KxFile.bytesFromUuid]
    rw [List.getElem?_append_left hget, List.getElem?_eq_getElem hget, Option.getD_some]
  · rw [List.getElem?_eq_none (by simpa using hi), List.getElem?_eq_none (by simpa using hi)]

/-- The writer's key is the reader's exactly if the text has eight bytes. -/
theorem fromUuid_eq_toLE_iff (o : FileObject) (n : Nat) :
    o.fromUuid n = toLE 8 o.file.uuid.toNat ↔ n = 8 := by
  constructor
  · intro h
    have hlen := congrArg List.length h
    rwa [FileObject.length_fromUuid, length_toLE] at hlen
  · rintro rfl
    exact o.fromUuid_eight

theorem strlen_fileKy (username : CStr) (uuid : UInt64) :
    (fileKy username uuid).strlen =
      min 63 (username.strlen + 1 + (decimal uuid.toNat).strlen) := by
  have hcolon : (CStr.lit ":").bytes.length = 1 := by decide
  simp only [fileKy, CStr.strlen, CStr.snprintf_bytes, List.length_take, CStr.append_bytes,
    List.length_append, hcolon]

/-- The database at rest with these contents. -/
def KxDb.holding (db : KxDb) (dbs : CStr → Option Table) : KxDb :=
  { db with env := MdbEnv.atRest dbs }

/-- The database after `insert_file` when all calls succeed. -/
def stored (db : KxDb) (dbs : CStr → Option Table) (ky : CStr) (o : FileObject) : KxDb :=
  db.holding (Function.update dbs db.dbname
    (some (((dbs db.dbname).getD ∅).insert (o.fromUuid ky.strlen) (o.file.bytes o.pad))))

theorem kxStoreDb_success (db : KxDb) (dbs : CStr → Option Table) (ky : CStr) (o : FileObject) :
    kxStoreDb InsertCalls.success (db.holding dbs) KX_DB_INSERT_FILE ky o =
      .ok (0, stored db dbs ky o) := rfl

/-- The entry under the bytes of the uuid after the store. -/
theorem getElem?_stored (db : KxDb) (dbs : CStr → Option Table) (ky : CStr) (o : FileObject) :
    (((dbs db.dbname).getD ∅).insert (o.fromUuid ky.strlen)
        (o.file.bytes o.pad))[toLE 8 o.file.uuid.toNat]? =
      if ky.strlen = 8 then some (o.file.bytes o.pad)
      else (dbs db.dbname).bind (·[toLE 8 o.file.uuid.toNat]?) := by
  rw [Std.ExtTreeMap.getElem?_insert]
  simp only [Std.LawfulEqCmp.compare_eq_iff_eq, fromUuid_eq_toLE_iff]
  congr 1
  cases dbs db.dbname with
  | none => exact Std.ExtTreeMap.getElem?_empty
  | some table => rfl

/-- `get_file` finds what the database has under the bytes of the uuid, else leaves the pointer
    alone. -/
theorem kxGetDb_holding (db : KxDb) (dbs : CStr → Option Table) (key : UInt64) (next : Nat)
    (out : Option (List UInt8)) :
    (kxGetDb (GetCalls.success next) (db.holding dbs) KX_DB_GET_FILE key out).outdata =
      ((dbs db.dbname).bind (·[toLE 8 key.toNat]?)).or out := by
  have hfile : (getFile (GetCalls.success next) (MdbEnv.atRest dbs) db.dbname key out).2 =
      ((dbs db.dbname).bind (·[toLE 8 key.toNat]?)).or out := by
    simp only [getFile, GetCalls.success, MdbEnv.atRest, Bool.false_eq_true, ne_eq,
      not_true_eq_false, or_self, if_false, if_true]
    cases dbs db.dbname with
    | none => rfl
    | some table =>
      simp only [Option.bind_some]
      cases table[toLE 8 key.toNat]? <;> rfl
  exact hfile

/-- What `get_file` leaves in `*outfile` after the store. -/
theorem kxGetDb_stored (db : KxDb) (dbs : CStr → Option Table) (ky : CStr) (o : FileObject)
    (next : Nat) (out : Option (List UInt8)) :
    (kxGetDb (GetCalls.success next) (stored db dbs ky o) KX_DB_GET_FILE o.file.uuid out).outdata =
      (if ky.strlen = 8 then some (o.file.bytes o.pad)
        else (dbs db.dbname).bind (·[toLE 8 o.file.uuid.toNat]?)).or out := by
  rw [stored, kxGetDb_holding, Function.update_self, Option.bind_some, getElem?_stored]

/-! ## Read your writes -/

/-- After the store as `file_encrypt` makes it, the get by uuid finds the key and yields the
    record, whatever the pointer was before. -/
def ReadsBack (db : KxDb) (dbs : CStr → Option Table) (username : CStr) (o : FileObject) : Prop :=
  ∃ db', kxStoreDb InsertCalls.success (db.holding dbs) KX_DB_INSERT_FILE
      (fileKy username o.file.uuid) o = .ok (0, db') ∧
    ∀ (next : Nat) (out : Option (List UInt8)), ∃ data,
      (kxGetDb (GetCalls.success next) db' KX_DB_GET_FILE o.file.uuid out).outdata = some data ∧
        KxFile.read? data = some o.file

/-- A database that has the record under the bytes of its uuid. -/
def HasRecord (db : KxDb) (dbs : CStr → Option Table) (f : KxFile) : Prop :=
  ∃ table data, dbs db.dbname = some table ∧ table[toLE 8 f.uuid.toNat]? = some data ∧
    KxFile.read? data = some f

theorem readsBack_iff_outdata (db : KxDb) (dbs : CStr → Option Table) (username : CStr)
    (o : FileObject) :
    ReadsBack db dbs username o ↔
      ∃ data, (if (fileKy username o.file.uuid).strlen = 8 then some (o.file.bytes o.pad)
          else (dbs db.dbname).bind (·[toLE 8 o.file.uuid.toNat]?)) = some data ∧
        KxFile.read? data = some o.file := by
  constructor
  · rintro ⟨db', hstore, hget⟩
    rw [kxStoreDb_success, Except.ok.injEq, Prod.mk.injEq] at hstore
    obtain ⟨-, rfl⟩ := hstore
    obtain ⟨data, hdata, hread⟩ := hget 0 none
    rw [kxGetDb_stored, Option.or_none] at hdata
    exact ⟨data, hdata, hread⟩
  · rintro ⟨data, hdata, hread⟩
    refine ⟨_, kxStoreDb_success _ _ _ _, fun next out => ⟨data, ?_, hread⟩⟩
    rw [kxGetDb_stored, hdata, Option.some_or]

/-- **Read your writes**, exactly when the formatted key has the eight bytes that the reader takes,
    or the record was there already. -/
theorem reads_back_iff (db : KxDb) (dbs : CStr → Option Table) (username : CStr) (o : FileObject) :
    ReadsBack db dbs username o ↔
      username.strlen + 1 + (decimal o.file.uuid.toNat).strlen = 8 ∨ HasRecord db dbs o.file := by
  have height : (fileKy username o.file.uuid).strlen = 8 ↔
      username.strlen + 1 + (decimal o.file.uuid.toNat).strlen = 8 := by
    rw [strlen_fileKy]
    omega
  rw [readsBack_iff_outdata, ← height]
  by_cases h : (fileKy username o.file.uuid).strlen = 8
  · simp only [h, if_true, true_or, iff_true]
    exact ⟨_, rfl, KxFile.read?_bytes _ _⟩
  · simp only [h, if_false, false_or, HasRecord]
    cases dbs db.dbname with
    | none => simp
    | some table => simp

/-- The record of a file in memory that is zero otherwise. -/
def recordSample : FileObject where
  file :=
    { fname := strncpyField 255 (.lit "a")
      fullname := strncpyField 4096 (.lit "a")
      uuid := 17241709254077376921
      type := .KXCIPHER }
  pad := ⟨0, Vector.replicate 4 0⟩
  behind := fun _ => 0

/-- The handle of a database named `bob`. -/
def dbSample : KxDb where
  maxMapsize := 0
  env := MdbEnv.atRest fun _ => none
  mem := (CStr.lit "bob").bytes ++ List.replicate 161 0
  size := by rw [List.length_append, List.length_replicate]; rfl

/-- A record of a uuid with twenty digits, stored into an empty database, is not found. -/
theorem not_reads_back : ¬ ReadsBack dbSample (fun _ => none) (.lit "bob") recordSample := by
  rw [readsBack_iff_outdata, if_neg (by rw [strlen_fileKy]; decide +kernel)]
  simp

end Rkx
