import Rkx.ReadBack

/-!
# The key of a stored record

`insert_file` takes for the key as many bytes from `&file->uuid` on as its argument `ky` has.

* `KeyByte`, `keyByteAt`: the object that the byte at each offset of the key belongs to;
* `fromUuid_eq_load`: the key is loaded from these places;
* `sameKeyBytes_iff`, `readsInitialised_iff`, `oneEntry_iff`: up to twelve bytes the key is made of
  the uuid and the type, and exactly then it depends on nothing else;
* `storesByKey_never`: no byte of it is ever one of `ky`.
-/

set_option autoImplicit false

namespace Rkx

open Lib.Bytes Lib.CString

/-! ## Where the bytes of the key lie -/

/-- A byte in memory around a call of `insert_file`: of the text `ky`, of a field of the record, of
    the padding behind `type`, or behind the record. -/
inductive KeyByte where
  | ky (i : Nat)
  | uuid (i : Nat)
  | type (i : Nat)
  | padding (i : Nat)
  | behind (i : Nat)
  deriving DecidableEq

/-- The byte at offset `i` from `&file->uuid`. -/
def keyByteAt (i : Nat) : KeyByte :=
  if i < 8 then .uuid i
  else if i < 12 then .type (i - 8)
  else if i < 16 then .padding (i - 12)
  else .behind i

/-- A byte that `kx_crypt_file` has written. -/
def KeyByte.Initialised : KeyByte → Prop
  | .uuid _ | .type _ => True
  | .ky _ | .padding _ | .behind _ => False

def FileObject.load (o : FileObject) (ky : CStr) : KeyByte → UInt8
  | .ky i => ky.bytes[i]?.getD 0
  | .uuid i => (toLE 8 o.file.uuid.toNat)[i]?.getD 0
  | .type i => (toLE 4 o.file.type.toNat)[i]?.getD 0
  | .padding i => o.pad.afterType.toList[i]?.getD 0
  | .behind i => o.behind i

/-- A byte of a list does not depend on the default. -/
theorem getD_of_lt {l : List UInt8} {i : Nat} (h : i < l.length) (a b : UInt8) :
    l[i]?.getD a = l[i]?.getD b := by
  rw [List.getElem?_eq_getElem h, Option.getD_some, Option.getD_some]

/-- **The key is loaded from the record**, its padding and the memory behind it. -/
theorem fromUuid_eq_load (o : FileObject) (ky : CStr) (n : Nat) :
    o.fromUuid n = (List.range n).map fun i => o.load ky (keyByteAt i) := by
  apply List.map_congr_left
  intro i _
  have huuid : (toLE 8 o.file.uuid.toNat).length = 8 := length_toLE _ _
  have htype : (toLE 4 o.file.type.toNat).length = 4 := length_toLE _ _
  have hpad : o.pad.afterType.toList.length = 4 := Vector.length_toList
  unfold keyByteAt KxFile.bytesFromUuid
  by_cases h8 : i < 8
  · rw [if_pos h8, List.getElem?_append_left (by omega)]
    exact getD_of_lt (by omega) _ _
  rw [if_neg h8, List.getElem?_append_right (by omega), huuid]
  by_cases h12 : i < 12
  · rw [if_pos h12, List.getElem?_append_left (by omega)]
    exact getD_of_lt (by omega) _ _
  rw [if_neg h12, List.getElem?_append_right (by omega), htype, Nat.sub_sub]
  by_cases h16 : i < 16
  · rw [if_pos h16]
    exact getD_of_lt (by omega) _ _
  · rw [if_neg h16, List.getElem?_eq_none (by omega)]
    rfl

theorem keyByteAt_initialised_iff (i : Nat) : (keyByteAt i).Initialised ↔ i < 12 := by
  unfold keyByteAt
  split
  · exact iff_of_true trivial (by omega)
  · split
    · exact iff_of_true trivial (by omega)
    · split
      · exact iff_of_false (fun h => h) (by omega)
      · exact iff_of_false (fun h => h) (by omega)

theorem keyByteAt_ne_ky (i j : Nat) : keyByteAt i ≠ .ky j := by
  unfold keyByteAt
  split
  · simp
  · split
    · simp
    · split <;> simp

/-! ## What a store depends on -/

section Key

variable (username : CStr) (file : KxFile)

/-- The bytes that `insert_file` takes for the key of a record of the user. -/
def insertKey (pad : Padding) (behind : Nat → UInt8) : List UInt8 :=
  (⟨file, pad, behind⟩ : FileObject).fromUuid (fileKy username file.uuid).strlen

/-- The key bytes are the same whatever the padding and the memory behind the record hold. -/
def SameKeyBytes : Prop :=
  ∀ (pad pad' : Padding) (behind behind' : Nat → UInt8),
    insertKey username file pad behind = insertKey username file pad' behind'

/-- Every byte of the key is one of the text `ky`. -/
def ReadsGivenKey : Prop :=
  ∀ i, i < (fileKy username file.uuid).strlen → ∃ j, keyByteAt i = .ky j

/-- Every byte of the key is one of a field of the record. -/
def ReadsInitialised : Prop :=
  ∀ i, i < (fileKy username file.uuid).strlen → (keyByteAt i).Initialised

/-- The number of entries of the database. -/
def KxDb.entries (db : KxDb) : Nat := ((db.env.dbs db.dbname).getD ∅).size

/-- A second store of the record, when all calls succeed, adds no entry, so that a database that was
    empty has one. -/
def OneEntry (db : KxDb) : Prop :=
  ∀ (dbs : CStr → Option Table) (pad pad' : Padding) (behind behind' : Nat → UInt8),
    ∃ db' db'',
      kxStoreDb InsertCalls.success (db.holding dbs) KX_DB_INSERT_FILE (fileKy username file.uuid)
          ⟨file, pad, behind⟩ = .ok (0, db') ∧
        kxStoreDb InsertCalls.success db' KX_DB_INSERT_FILE (fileKy username file.uuid)
          ⟨file, pad', behind'⟩ = .ok (0, db'') ∧
        db''.entries = db'.entries ∧ (dbs db.dbname = none → db''.entries = 1)

/-- A store depends on its key only. -/
structure StoresByKey (db : KxDb) : Prop where
  sameKeyBytes : SameKeyBytes username file
  readsGivenKey : ReadsGivenKey username file
  oneEntry : OneEntry username file db

theorem sameKeyBytes_of_le (h : (fileKy username file.uuid).strlen ≤ 12) :
    SameKeyBytes username file := by
  intro pad pad' behind behind'
  unfold insertKey
  rw [fromUuid_eq_load _ (fileKy username file.uuid), fromUuid_eq_load _ (fileKy username file.uuid)]
  apply List.map_congr_left
  intro i hi
  have hinit := (keyByteAt_initialised_iff i).2 (Nat.lt_of_lt_of_le (List.mem_range.1 hi) h)
  -- the two memories agree on the fields of the record
  cases hk : keyByteAt i with
  | uuid j => rfl
  | type j => rfl
  | ky j => rw [hk] at hinit; cases hinit
  | padding j => rw [hk] at hinit; cases hinit
  | behind j => rw [hk] at hinit; cases hinit

/-- With another padding, a key of more than twelve bytes is another one. -/
theorem insertKey_padding_ne (h : 12 < (fileKy username file.uuid).strlen) (behind : Nat → UInt8) :
    insertKey username file ⟨0, Vector.replicate 4 0⟩ behind ≠
      insertKey username file ⟨0, Vector.replicate 4 1⟩ behind := by
  intro heq
  unfold insertKey at heq
  rw [fromUuid_eq_load _ (fileKy username file.uuid),
    fromUuid_eq_load _ (fileKy username file.uuid)] at heq
  have hbyte := congrArg (fun l => l[12]?) heq
  simp only [List.getElem?_map, List.getElem?_range h, Option.map_some, Option.some.injEq] at hbyte
  have h01 : (0 : UInt8) = 1 := hbyte
  exact absurd h01 (by decide)

theorem sameKeyBytes_iff :
    SameKeyBytes username file ↔ (fileKy username file.uuid).strlen ≤ 12 := by
  constructor
  · intro hsame
    by_contra hlong
    exact insertKey_padding_ne username file (by omega) (fun _ => 0) (hsame _ _ _ _)
  · exact sameKeyBytes_of_le username file

theorem readsInitialised_iff :
    ReadsInitialised username file ↔ (fileKy username file.uuid).strlen ≤ 12 := by
  constructor
  · intro hinit
    by_contra hlong
    exact absurd ((keyByteAt_initialised_iff 12).1 (hinit 12 (by omega))) (by omega)
  · intro hle i hi
    exact (keyByteAt_initialised_iff i).2 (by omega)

theorem not_readsGivenKey : ¬ ReadsGivenKey username file := by
  intro hgiven
  have hpos : 0 < (fileKy username file.uuid).strlen := by
    rw [strlen_fileKy]
    omega
  obtain ⟨j, hj⟩ := hgiven 0 hpos
  exact keyByteAt_ne_ky 0 j hj

/-- The entries after a store. -/
theorem entries_stored (db : KxDb) (dbs : CStr → Option Table) (pad : Padding)
    (behind : Nat → UInt8) :
    (stored db dbs (fileKy username file.uuid) ⟨file, pad, behind⟩).entries =
      (((dbs db.dbname).getD ∅).insert (insertKey username file pad behind) (file.bytes pad)).size := by
  show ((Function.update dbs db.dbname _ db.dbname).getD ∅).size = _
  rw [Function.update_self]
  rfl

/-- The entries after two stores of the record. -/
theorem entries_stored_stored (db : KxDb) (dbs : CStr → Option Table) (pad pad' : Padding)
    (behind behind' : Nat → UInt8) :
    (stored db (stored db dbs (fileKy username file.uuid) ⟨file, pad, behind⟩).env.dbs
        (fileKy username file.uuid) ⟨file, pad', behind'⟩).entries =
      ((((dbs db.dbname).getD ∅).insert (insertKey username file pad behind)
        (file.bytes pad)).insert (insertKey username file pad' behind') (file.bytes pad')).size := by
  rw [entries_stored]
  show (((Function.update dbs db.dbname _ db.dbname).getD ∅).insert _ _).size = _
  rw [Function.update_self]
  rfl

theorem oneEntry_iff (db : KxDb) :
    OneEntry username file db ↔ (fileKy username file.uuid).strlen ≤ 12 := by
  constructor
  · intro hone
    by_contra hlong
    have hne := insertKey_padding_ne username file (by omega) (fun _ => 0)
    obtain ⟨db', db'', h1, h2, -, hempty⟩ := hone (fun _ => none) ⟨0, Vector.replicate 4 0⟩
      ⟨0, Vector.replicate 4 1⟩ (fun _ => 0) (fun _ => 0)
    rw [kxStoreDb_success, Except.ok.injEq, Prod.mk.injEq] at h1
    obtain ⟨-, rfl⟩ := h1
    have h2' := kxStoreDb_success db
      (stored db (fun _ => none) (fileKy username file.uuid) ⟨file, ⟨0, Vector.replicate 4 0⟩,
        fun _ => 0⟩).env.dbs (fileKy username file.uuid)
      ⟨file, ⟨0, Vector.replicate 4 1⟩, fun _ => 0⟩
    obtain ⟨-, hdb⟩ := Prod.mk.inj (Except.ok.inj (h2'.symm.trans h2))
    have hsize := hempty rfl
    rw [← hdb, entries_stored_stored, Std.ExtTreeMap.size_insert, Std.ExtTreeMap.size_insert] at hsize
    simp [hne] at hsize
  · intro hle dbs pad pad' behind behind'
    have hsame := sameKeyBytes_of_le username file hle pad pad' behind behind'
    refine ⟨_, _, kxStoreDb_success _ _ _ _, kxStoreDb_success db
      (stored db dbs (fileKy username file.uuid) ⟨file, pad, behind⟩).env.dbs _ _, ?_, ?_⟩
    · rw [entries_stored_stored, entries_stored, ← hsame, Std.ExtTreeMap.size_insert, if_pos (by simp)]
    · intro hnone
      rw [entries_stored_stored, ← hsame, Std.ExtTreeMap.size_insert, if_pos (by simp), hnone]
      rfl

/-- The text `"%s:%lu"` has at most twelve bytes. -/
theorem strlen_fileKy_le_iff :
    (fileKy username file.uuid).strlen ≤ 12 ↔
      username.strlen + 1 + (decimal file.uuid.toNat).strlen ≤ 12 := by
  rw [strlen_fileKy]
  omega

/-- **A store never depends on its key only**: none of the bytes is taken from the text that
    `insert_file` was given.  The bytes are those of the record and are the same in every run, and a
    second store adds no entry, exactly if the text has at most twelve bytes. -/
theorem storesByKey_never (db : KxDb) :
    ¬ StoresByKey username file db ∧
      (SameKeyBytes username file ↔
        username.strlen + 1 + (decimal file.uuid.toNat).strlen ≤ 12) ∧
      (ReadsInitialised username file ↔
        username.strlen + 1 + (decimal file.uuid.toNat).strlen ≤ 12) ∧
      (OneEntry username file db ↔
        username.strlen + 1 + (decimal file.uuid.toNat).strlen ≤ 12) := by
  rw [← strlen_fileKy_le_iff]
  refine ⟨?_, sameKeyBytes_iff username file, readsInitialised_iff username file,
    oneEntry_iff username file db⟩
  intro h
  exact not_readsGivenKey username file h.readsGivenKey

end Key

/-- A uuid of twenty digits: the key depends on the padding and two stores are two entries. -/
theorem storesByKey_sample :
    ¬ SameKeyBytes (.lit "bob") recordSample.file ∧
      ¬ OneEntry (.lit "bob") recordSample.file dbSample ∧
      ¬ StoresByKey (.lit "bob") recordSample.file dbSample := by
  have hlong : ¬ (fileKy (.lit "bob") recordSample.file.uuid).strlen ≤ 12 := by
    rw [strlen_fileKy]
    decide +kernel
  refine ⟨mt (sameKeyBytes_iff _ _).1 hlong, mt (oneEntry_iff _ _ _).1 hlong, ?_⟩
  intro h
  exact hlong ((sameKeyBytes_iff _ _).1 h.sameKeyBytes)

end Rkx
