import Rkx.Encrypting
import Rkx.Lib.Log

/-!
# The file list

`file_encrypt` stores a record, `file_decrypt` leaves the database alone, and no function of `db.c`
removes a record.

* `FileRun`: successful `file -e` and `file -d` commands from one directory, as the events of the run;
* `storedPath`: the path under a key of the database, `storedPath_run` after a run;
* `file_list_iff`: `file -l` prints, for each key, the path of the last `file -e` that stored under
  it, also if the file has been decrypted since.
-/

set_option autoImplicit false

namespace Rkx

open Lib.CString Lib.Log

/-! ## The records of a database -/

/-- The records in the database of the user. -/
def KxDb.records (db : KxDb) : Table := (db.env.dbs db.dbname).getD ∅

/-- The path of the record that the session's database has under a key. -/
def storedPath (w : World) (key : List UInt8) : Option CStr :=
  w.client.db.bind fun db => (db.records[key]?).map fun data => (ListedFile.ofData data).fullname

/-- The key bytes under which the record of a call is stored. -/
def FileObject.key (o : FileObject) (username : CStr) : List UInt8 :=
  o.fromUuid (fileKy username o.file.uuid).strlen

/-- A user is registered, and the database is not being read. -/
structure LoggedIn (w : World) : Prop where
  user : ∃ user, w.client.user = some user
  db : ∃ db, w.client.db = some db ∧ db.env.readTxn = false

/-- The store of `insert_file` when LMDB succeeds. -/
theorem kxStoreDb_insert {db db' : KxDb} {ky : CStr} {o : FileObject} {ret : Int}
    (h : kxStoreDb InsertCalls.success db KX_DB_INSERT_FILE ky o = .ok (ret, db')) :
    db'.records = db.records.insert (o.fromUuid ky.strlen) (o.file.bytes o.pad) ∧
      db'.env.readTxn = db.env.readTxn ∧ db'.env.writeTxn = false := by
  cases htxn : db.env.writeTxn with
  | true =>
    simp [kxStoreDb, insertFile, htxn, bind, Except.bind] at h
  | false =>
    simp only [kxStoreDb, insertFile, htxn, InsertCalls.success, ne_eq, not_true_eq_false,
      Bool.false_eq_true, if_true, if_false] at h
    cases h
    refine ⟨?_, rfl, rfl⟩
    show (Function.update db.env.dbs db.dbname _ db.dbname).getD ∅ = _
    rw [Function.update_self]
    rfl

section Run

variable {XXH64 : List UInt8 → UInt64 → UInt64} {names : CStr → Nat}

/-- The path of the object that a call stores. -/
theorem fullname_recordObject (calls : FileCalls) (user : KxUser) {path : CStr} (x : List UInt8)
    (hshort : path.strlen < 4096) :
    (ListedFile.ofData ((recordObject XXH64 calls user path x).file.bytes
      (recordObject XXH64 calls user path x).pad)).fullname = path :=
  str_fullname (recordObject XXH64 calls user path x) rfl hshort

/-- **A successful `file -e`** adds the path of its record under the key. -/
theorem Encrypts.storedPath_eq {calls : FileCalls} {path : CStr} {w w' : World} {user : KxUser}
    (h : Encrypts XXH64 names calls path w w') (huser : w.client.user = some user)
    (hinsert : calls.insert = InsertCalls.success) :
    storedPath w' = Function.update (storedPath w)
      ((recordObject XXH64 calls user path (w.files (names path))).key user.username) (some path) := by
  obtain ⟨user', db, db', text, he⟩ := h.effect
  obtain rfl : user' = user := Option.some.inj (he.user_eq.symm.trans huser)
  obtain ⟨ret, hstore⟩ := he.store_eq
  rw [hinsert] at hstore
  have hrecords : db'.records = db.records.insert (FileObject.key _ user'.username) _ :=
    (kxStoreDb_insert hstore).1
  funext key
  rw [storedPath, he.db_next, Option.bind_some, hrecords, Std.ExtTreeMap.getElem?_insert]
  simp only [Std.LawfulEqCmp.compare_eq_iff_eq]
  split
  · rename_i hkey
    rw [← hkey, Function.update_self, Option.map_some, fullname_recordObject _ _ _ h.short]
  · rename_i hkey
    rw [Function.update_of_ne (Ne.symm hkey), storedPath, he.db_eq, Option.bind_some]

theorem Encrypts.loggedIn {calls : FileCalls} {path : CStr} {w w' : World}
    (h : Encrypts XXH64 names calls path w w') (hinsert : calls.insert = InsertCalls.success)
    (hw : LoggedIn w) : LoggedIn w' := by
  obtain ⟨user, db, db', text, he⟩ := h.effect
  obtain ⟨ret, hstore⟩ := he.store_eq
  obtain ⟨d, hd, hidle⟩ := hw.db
  obtain rfl : db = d := Option.some.inj (he.db_eq.symm.trans hd)
  rw [hinsert] at hstore
  exact ⟨⟨user, he.user_kept⟩, db', he.db_next, (kxStoreDb_insert hstore).2.1.trans hidle⟩

/-! ## Runs -/

/-- What a command of the run has done: a path was encrypted and its record stored under a key, or
    a path was decrypted. -/
inductive FileEvent where
  | encrypted (key : List UInt8) (path : CStr)
  | decrypted (path : CStr)
  deriving DecidableEq

/-- A call of `file_decrypt` that returns 0 and leads from `w` to `w'`. -/
structure Decrypts (names : CStr → Nat) (calls : FileCalls) (path : CStr) (w w' : World) : Prop where
  returned : fileDecrypt names calls (some path) w = .ok w'
  opened : calls.decryptFopen = true

variable (XXH64 names)

/-- The runs of successful `file -e` and `file -d` commands. -/
inductive FileRun : World → List FileEvent → World → Prop where
  | nil (w : World) : FileRun w [] w
  | encrypt {calls : FileCalls} {path : CStr} {w w₁ w₂ : World} {user : KxUser} {events : List FileEvent}
      (registered : w.client.user = some user) (done : Encrypts XXH64 names calls path w w₁)
      (inserted : calls.insert = InsertCalls.success) (rest : FileRun w₁ events w₂) :
      FileRun w (.encrypted ((recordObject XXH64 calls user path (w.files (names path))).key user.username)
        path :: events) w₂
  | decrypt {calls : FileCalls} {path : CStr} {w w₁ w₂ : World} {events : List FileEvent}
      (done : Decrypts names calls path w w₁) (rest : FileRun w₁ events w₂) :
      FileRun w (.decrypted path :: events) w₂

variable {XXH64 names}

/-- The records stored in a run. -/
def stores : List FileEvent → List (List UInt8 × CStr) :=
  List.filterMap fun
    | .encrypted key path => some (key, path)
    | .decrypted _ => none

theorem Decrypts.client_eq {calls : FileCalls} {path : CStr} {w w' : World}
    (h : Decrypts names calls path w w') : w'.client = w.client := by
  obtain ⟨user, -, hend⟩ := bind_eq_ok.1 h.returned
  cases hend
  rfl

theorem storedPath_congr {w w' : World} (h : w'.client = w.client) : storedPath w' = storedPath w := by
  funext key
  rw [storedPath, storedPath, h]

/-- **What the database has after a run**: the records that were stored, and nothing removed. -/
theorem storedPath_run {w w' : World} {events : List FileEvent} (h : FileRun XXH64 names w events w')
    (hw : LoggedIn w) : storedPath w' = replay (storedPath w) (stores events) ∧ LoggedIn w' := by
  induction h with
  | nil w => exact ⟨rfl, hw⟩
  | encrypt registered done inserted rest ih =>
    obtain ⟨hpaths, hin⟩ := ih (done.loggedIn inserted hw)
    refine ⟨?_, hin⟩
    rw [hpaths, done.storedPath_eq registered inserted]
    rfl
  | decrypt done rest ih =>
    have hclient := done.client_eq
    obtain ⟨hpaths, hin⟩ := ih ⟨by rw [hclient]; exact hw.user, by rw [hclient]; exact hw.db⟩
    refine ⟨?_, hin⟩
    rw [hpaths, storedPath_congr hclient]
    rfl

/-! ## `file -l` -/

/-- The calls of a `file -l` that succeeds: all records are delivered. -/
def ListsAll (calls : FileCalls) (w : World) : Prop :=
  ∃ next, calls.get = GetCalls.success next ∧ ∀ db, w.client.db = some db → db.records.size ≤ next

/-- The paths that `file -l` prints. -/
def printedPaths (calls : FileCalls) (w : World) : List CStr :=
  match fileGetfilelist calls w with
  | .ok (_, lines) => lines.map ListedFile.fullname
  | .error _ => []

/-- **`file -l` prints the paths of the records.** -/
theorem mem_printedPaths {calls : FileCalls} {w : World} (hw : LoggedIn w) (hcalls : ListsAll calls w)
    (path : CStr) : path ∈ printedPaths calls w ↔ ∃ key, storedPath w key = some path := by
  obtain ⟨db, hdb, hidle⟩ := hw.db
  obtain ⟨next, hget, hall⟩ := hcalls
  have hlines : printedPaths calls w =
      db.records.toList.map fun entry => (ListedFile.ofData entry.2).fullname := by
    have hread : (getFileList (GetCalls.success next) db.env db.dbname).2 =
        (db.records.toList.take next).map fun entry => ListedFile.ofData entry.2 := by
      simp only [getFileList, GetCalls.success, hidle, Bool.false_eq_true, ne_eq, not_true_eq_false,
        or_self, if_false, KxDb.records]
      cases db.env.dbs db.dbname with
      | none => simp
      | some table => rfl
    have htake : db.records.toList.take next = db.records.toList := by
      apply List.take_of_length_le
      rw [Std.ExtTreeMap.length_toList]
      exact hall db hdb
    have hprint : printedPaths calls w =
        (getFileList (GetCalls.success next) db.env db.dbname).2.map ListedFile.fullname := by
      simp only [printedPaths, fileGetfilelist, hdb, deref, hget]
      rfl
    rw [hprint, hread, htake, List.map_map]
    rfl
  rw [hlines]
  simp only [storedPath, hdb, Option.bind_some]
  constructor
  · intro hpath
    obtain ⟨⟨key, data⟩, hentry, rfl⟩ := List.mem_map.1 hpath
    have hdata := Std.ExtTreeMap.mem_toList_iff_getElem?_eq_some.1 hentry
    exact ⟨key, by rw [hdata, Option.map_some]⟩
  · rintro ⟨key, hkey⟩
    obtain ⟨data, hdata, rfl⟩ := Option.map_eq_some_iff.1 hkey
    exact List.mem_map.2 ⟨_, Std.ExtTreeMap.mem_toList_iff_getElem?_eq_some.2 hdata, rfl⟩

/-- **The file list after a run**: under each key the path that was stored there last, whether or not
    it was decrypted since. -/
theorem file_list_iff {w w' : World} {events : List FileEvent} {calls : FileCalls} (hw : LoggedIn w)
    (hrun : FileRun XXH64 names w events w') (hcalls : ListsAll calls w') (path : CStr) :
    path ∈ printedPaths calls w' ↔
      (∃ key pre post, stores events = pre ++ (key, path) :: post ∧ ∀ other, (key, other) ∉ post) ∨
        ∃ key, storedPath w key = some path ∧ ∀ other, (key, other) ∉ stores events := by
  obtain ⟨hpaths, hin⟩ := storedPath_run hrun hw
  rw [mem_printedPaths hin hcalls, hpaths, ← exists_or]
  simp only [replay_eq_some_iff]

/-! ## Runs in which the list disagrees -/

/-- A path was encrypted in the run and not decrypted since. -/
def EncryptedNow (events : List FileEvent) (path : CStr) : Prop :=
  ∃ pre key post, events = pre ++ .encrypted key path :: post ∧ .decrypted path ∉ post

theorem not_encryptedNow (key : List UInt8) (path : CStr) :
    ¬ EncryptedNow [.encrypted key path, .decrypted path] path := by
  rintro ⟨pre, key', post, hevents, hpost⟩
  cases pre with
  | nil =>
    cases hevents
    exact hpost List.mem_cons_self
  | cons e pre =>
    cases pre with
    | nil => cases hevents
    | cons e' pre => simp at hevents

theorem exists_listsAll (w : World) : ∃ calls, ListsAll calls w := by
  cases hdb : w.client.db with
  | none => exact ⟨fileCallsSample, 0, rfl, fun db h => by rw [hdb] at h; cases h⟩
  | some db =>
    refine ⟨{ fileCallsSample with get := GetCalls.success db.records.size }, _, rfl, ?_⟩
    intro db' h
    rw [hdb] at h
    cases h
    exact Nat.le_refl _

end Run

/-- A session of bob in which every file is one byte long. -/
def worldFilled : World := { worldSample with files := fun _ => [97] }

theorem loggedIn_worldFilled : LoggedIn worldFilled := ⟨⟨_, rfl⟩, _, rfl, rfl⟩

theorem storedPath_worldFilled : storedPath worldFilled = fun _ => none := by
  funext key
  have hempty : dbSample.records[key]? = none := Std.ExtTreeMap.getElem?_empty
  show (dbSample.records[key]?).map (fun data => (ListedFile.ofData data).fullname) = none
  rw [hempty, Option.map_none]

/-- A run from that session, which begins with an empty list, after which the list disagrees with
    the disk. -/
def ListDisagrees (events : List FileEvent) : Prop :=
  LoggedIn worldFilled ∧ storedPath worldFilled = (fun _ => none) ∧
    ∃ w' calls, FileRun lengthHash firstByte worldFilled events w' ∧ ListsAll calls w' ∧
      ∃ path, ¬ (path ∈ printedPaths calls w' ↔ EncryptedNow events path)

/-- `file -e a` and `file -d a` -/
theorem exists_fileRun : ∃ key w',
    FileRun lengthHash firstByte worldFilled [.encrypted key (.lit "a"), .decrypted (.lit "a")] w' := by
  obtain ⟨w₁, hencrypt⟩ := @exists_encrypts_full (.lit "a") firstByte worldFilled userSample dbSample rfl rfl
    rfl (by decide) (by decide) (by decide)
  obtain ⟨user, db, db', text, he⟩ := hencrypt.effect
  obtain ⟨w₂, hdecrypt⟩ : ∃ w₂, fileDecrypt firstByte fileCallsSample (some (.lit "a")) w₁ = .ok w₂ := by
    simp only [fileDecrypt, he.user_kept]
    exact ⟨_, rfl⟩
  exact ⟨_, w₂, FileRun.encrypt (rfl : worldFilled.client.user = some userSample) hencrypt rfl
    (FileRun.decrypt ⟨hdecrypt, rfl⟩ (FileRun.nil w₂))⟩

/-- After them the list has `a`, which is not encrypted. -/
theorem decrypted_listed : ∃ key, ListDisagrees [.encrypted key (.lit "a"), .decrypted (.lit "a")] := by
  obtain ⟨key, w₂, hrun⟩ := exists_fileRun
  obtain ⟨calls, hcalls⟩ := exists_listsAll w₂
  refine ⟨key, loggedIn_worldFilled, storedPath_worldFilled, w₂, calls, hrun, hcalls, .lit "a", ?_⟩
  have hlisted : .lit "a" ∈ printedPaths calls w₂ := by
    obtain ⟨hpaths, hin⟩ := storedPath_run hrun loggedIn_worldFilled
    rw [mem_printedPaths hin hcalls, hpaths, storedPath_worldFilled]
    simp only [stores, List.filterMap_cons, List.filterMap_nil, replay_cons, replay_nil]
    exact ⟨_, Function.update_self _ _ _⟩
  intro h
  exact not_encryptedNow _ _ (h.1 hlisted)

/-- After `file -e a` and `file -e b`, of equal contents, the list does not have `a`. -/
theorem encrypted_not_listed :
    ∃ key, ListDisagrees [.encrypted key (.lit "a"), .encrypted key (.lit "b")] := by
  obtain ⟨w₁, hfirst⟩ := @exists_encrypts_full (.lit "a") firstByte worldFilled userSample dbSample rfl rfl
    rfl (by decide) (by decide) (by decide)
  obtain ⟨user, db, db', text, he⟩ := hfirst.effect
  obtain rfl : userSample = user := Option.some.inj he.user_eq
  have hb : w₁.files (firstByte (.lit "b")) = [97] := by
    rw [he.files_eq, Function.update_of_ne (by decide)]
    rfl
  obtain ⟨ret, hstore⟩ := he.store_eq
  obtain ⟨-, -, hidle⟩ := kxStoreDb_insert hstore
  obtain ⟨w₂, hsecond⟩ := @exists_encrypts_full (.lit "b") firstByte w₁ userSample db' he.user_kept he.db_next
    hidle (by rw [hb]; decide) (by decide) (by decide)
  have hrun := FileRun.encrypt (rfl : worldFilled.client.user = some userSample) hfirst rfl
    (FileRun.encrypt he.user_kept hsecond rfl (FileRun.nil w₂))
  rw [hb] at hrun
  obtain ⟨calls, hcalls⟩ := exists_listsAll w₂
  refine ⟨_, loggedIn_worldFilled, storedPath_worldFilled, w₂, calls, hrun, hcalls, .lit "a", ?_⟩
  have hunlisted : .lit "a" ∉ printedPaths calls w₂ := by
    obtain ⟨hpaths, hin⟩ := storedPath_run hrun loggedIn_worldFilled
    rw [mem_printedPaths hin hcalls, hpaths, storedPath_worldFilled]
    rintro ⟨key, hkey⟩
    simp only [stores, List.filterMap_cons, List.filterMap_nil, replay_cons, replay_nil] at hkey
    -- the key is made of the ciphertext, not of the path
    have hsame : (recordObject lengthHash fileCallsSample userSample (.lit "b") [97]).key userSample.username =
        (recordObject lengthHash fileCallsSample userSample (.lit "a") [97]).key userSample.username := rfl
    have hfilled : worldFilled.files (firstByte (.lit "a")) = [97] := rfl
    rw [hsame, hfilled, Function.update_idem] at hkey
    by_cases hk : key = (recordObject lengthHash fileCallsSample userSample (.lit "a") [97]).key
        userSample.username
    · rw [hk, Function.update_self, Option.some.injEq] at hkey
      exact absurd hkey (by decide)
    · rw [Function.update_of_ne hk] at hkey
      cases hkey
  intro h
  exact hunlisted (h.2 ⟨[], _, _, rfl, by simp⟩)

/-- The list disagrees with the disk after a decryption, and after a second file of equal content. -/
theorem file_list_disagrees :
    (∃ key, ListDisagrees [.encrypted key (.lit "a"), .decrypted (.lit "a")]) ∧
      ∃ key, ListDisagrees [.encrypted key (.lit "a"), .encrypted key (.lit "b")] :=
  ⟨decrypted_listed, encrypted_not_listed⟩

/-- The path is listed after both commands. -/
theorem file_list_sample : ∃ key w' calls,
    FileRun lengthHash firstByte worldFilled [.encrypted key (.lit "a"), .decrypted (.lit "a")] w' ∧
      .lit "a" ∈ printedPaths calls w' := by
  obtain ⟨key, w', hrun⟩ := exists_fileRun
  obtain ⟨calls, hcalls⟩ := exists_listsAll w'
  exact ⟨key, w', calls, hrun, (file_list_iff loggedIn_worldFilled hrun hcalls _).2
    (Or.inl ⟨key, [], [], rfl, fun _ => List.not_mem_nil⟩)⟩

end Rkx
