import Rkx.Atomic
import Rkx.Session

/-!
# NULL pointers in a session

`client.user` and `client.db` are NULL until a registration, `kx_creat_db` may leave the second one
NULL, and no handler tests them.

* `step_safe_iff`: the states in which a command dereferences neither of them while it is NULL;
* `session_safe_iff`: a session does not, exactly if every command of it is typed in such a state;
* `run_safe_of_registered`: behind a registration whose database opened, and while later
  registrations open theirs, every command is safe.
-/

set_option autoImplicit false

namespace Rkx

open Lib.CString Lib.Runs

/-- A NULL `client.user` or `client.db` is dereferenced. -/
def Fault.NullClient (e : Fault) : Prop := e = .null .clientUser ∨ e = .null .clientDb

/-- The call does not dereference a NULL `client.user` or `client.db`. -/
def Safe {α : Type} (r : Except Fault α) : Prop := ∀ e, r = .error e → ¬ e.NullClient

section Safe

variable {α β : Type}

@[simp] theorem safe_ok (a : α) : Safe (.ok a : Except Fault α) := fun _ h => by cases h

@[simp] theorem safe_pure (a : α) : Safe (pure a : Except Fault α) := safe_ok a

@[simp] theorem safe_error {e : Fault} : Safe (.error e : Except Fault α) ↔ ¬ e.NullClient :=
  ⟨fun h => h e rfl, fun h e' he => by cases he; exact h⟩

@[simp] theorem not_nullClient_oom : ¬ Fault.oom.NullClient := by simp [Fault.NullClient]

@[simp] theorem nullClient_null {p : Pointer} :
    (Fault.null p).NullClient ↔ p = .clientUser ∨ p = .clientDb := by
  simp [Fault.NullClient]

@[simp] theorem not_nullClient_blocked : ¬ Fault.blocked.NullClient := by simp [Fault.NullClient]

/-- A sequence is safe if its first part is and the rest is from every result of the first. -/
theorem safe_bind {x : Except Fault α} {f : α → Except Fault β} :
    Safe (x >>= f) ↔ Safe x ∧ ∀ a, x = .ok a → Safe (f a) := by
  cases x with
  | error e => simp [bind, Except.bind]
  | ok a => simp [bind, Except.bind]

@[simp] theorem safe_zmalloc (ok : Bool) : Safe (zmalloc ok) := by
  cases ok <;> simp [zmalloc]

theorem safe_deref {p : Pointer} {o : Option α} (hp : p = .clientUser ∨ p = .clientDb) :
    Safe (deref p o) ↔ o.isSome = true := by
  cases o <;> simp [deref, hp]

theorem safe_deref_other {p : Pointer} {o : Option α} (hp : ¬ (p = .clientUser ∨ p = .clientDb)) :
    Safe (deref p o) := by
  cases o <;> simp [deref, hp]

theorem safe_map {x : Except Fault α} {f : α → β} : Safe (x.map f) ↔ Safe x := by
  cases x <;> simp [Except.map]

end Safe

theorem safe_kxSyncSendCmd (ok : Bool) (type : KxType) (args : List FmtArg) :
    Safe (kxSyncSendCmd ok type args) := by
  unfold kxSyncSendCmd
  cases kxSearchAction type with
  | none => exact safe_ok _
  | some ac => exact safe_map.2 (safe_zmalloc ok)

theorem safe_kxCreatDb (calls : CreatDbCalls) (heap : Vector UInt8 164) (size : Nat)
    (dbpath dbname : CStr) : Safe (kxCreatDb calls heap size dbpath dbname) := by
  refine safe_bind.2 ⟨safe_zmalloc _, fun _ _ => ?_⟩
  split
  · exact safe_ok _
  · split
    · exact safe_ok _
    · split <;> exact safe_ok _

theorem safe_insertFile (calls : InsertCalls) (env : MdbEnv) (dbname ky : CStr) (o : FileObject) :
    Safe (insertFile calls env dbname ky o) := by
  unfold insertFile
  split
  · simp
  · split
    · simp
    · dsimp only
      split
      · exact safe_ok _
      · split
        · exact safe_ok _
        · split <;> exact safe_ok _

theorem safe_kxStoreDb (calls : InsertCalls) (db : KxDb) (type : Nat) (key : CStr) (o : FileObject) :
    Safe (kxStoreDb calls db type key o) := by
  unfold kxStoreDb
  split
  · exact safe_bind.2 ⟨safe_insertFile _ _ _ _ _, fun _ _ => safe_ok _⟩
  · exact safe_ok _

/-! ## The user command -/

theorem safe_nodeSet (calls : UserCalls) (w : World) : Safe (nodeSet calls w) :=
  safe_bind.2 ⟨safe_kxSyncSendCmd _ _ _, fun _ _ => safe_ok _⟩

theorem safe_userRegister (calls : UserCalls) (puser ppwd : Option CStr) (w : World) :
    Safe (userRegister calls puser ppwd w) := by
  refine safe_bind.2 ⟨safe_deref_other (by simp), fun name _ => ?_⟩
  refine safe_bind.2 ⟨safe_deref_other (by simp), fun pwd _ => ?_⟩
  refine safe_bind.2 ⟨safe_zmalloc _, fun _ _ => ?_⟩
  refine safe_bind.2 ⟨safe_kxCreatDb _ _ _ _ _, fun db _ => ?_⟩
  exact safe_bind.2 ⟨safe_kxSyncSendCmd _ _ _, fun _ _ => safe_ok _⟩

theorem safe_userGet (calls : UserCalls) (w : World) :
    Safe (userGet calls w) ↔ w.client.user.isSome = true := by
  rw [userGet, safe_bind, safe_deref (Or.inl rfl)]
  refine and_iff_left fun user _ => ?_
  exact safe_bind.2 ⟨safe_kxSyncSendCmd _ _ _, fun _ _ => safe_ok _⟩

/-- What a user command needs: a registered user for `-g`. -/
def UserReady (cl : CommandLine UserOpt) (calls : UserCalls) (w : World) : Prop :=
  calls.initState = true → (doUser cl).2 = some .kxUserGet → w.client.user.isSome = true

theorem safe_zmalloc_bind {α : Type} {ok : Bool} {r : Except Fault α} :
    Safe (zmalloc ok >>= fun _ => r) ↔ (ok = true → Safe r) := by
  cases ok with
  | false => simp [zmalloc, safe_bind]
  | true => simp [zmalloc, safe_bind]

theorem safe_stepUser (cl : CommandLine UserOpt) (calls : UserCalls) (w : World) :
    Safe (stepUser cl calls w) ↔ UserReady cl calls w := by
  rw [stepUser, safe_zmalloc_bind, UserReady]
  refine imp_congr_right fun _ => ?_
  cases (doUser cl).2 with
  | none => simp
  | some call =>
    cases call with
    | kxUserRegister puser ppwd =>
      refine iff_of_true ?_ (by simp)
      exact safe_bind.2 ⟨safe_nodeSet _ _, fun _ _ => safe_userRegister _ _ _ _⟩
    | kxUserGet => simpa using safe_userGet calls w

/-! ## The file command -/

section Files

variable {XXH64 : List UInt8 → UInt64 → UInt64} {names : CStr → Nat}

/-- `kx_crypt_file` returns a record of the content `x` for the key. -/
def CryptCalls.MakesRecord (io : CryptCalls) (XXH64 : List UInt8 → UInt64 → UInt64) (key : Aes.Key)
    (x : List UInt8) : Prop :=
  io.fopen = true ∧ io.hash.Delivers (XXH64 (writtenContent io.blocks key x) 0) x.length

/-- `kx_crypt_file` leaves before it reads `client.user`: `stat` fails, the file is too large, or the
    process aborts. -/
def CryptCalls.Early (io : CryptCalls) (x : List UInt8) : Prop :=
  io.stat = false ∨ MAXFILESIZE < x.length ∨ io.zmalloc = false

/-- The hash step delivers its hash, returns 0 or aborts. -/
theorem calculateXxhash_cases (XXH64 : List UInt8 → UInt64 → UInt64) (io : HashCalls) (c : List UInt8) :
    (io.Delivers (XXH64 c 0) c.length ∧ calculateXxhash XXH64 io c = .ok (XXH64 c 0)) ∨
      (¬ io.Delivers (XXH64 c 0) c.length ∧
        (calculateXxhash XXH64 io c = .ok 0 ∨ calculateXxhash XXH64 io c = .error .oom)) := by
  rw [calculateXxhash_eq]
  unfold HashCalls.Delivers
  cases io.fopen with
  | false => simp
  | true =>
    cases io.zmalloc with
    | false => simp
    | true =>
      simp only [if_true, true_and]
      by_cases hm : io.missing = 0 ∨ c.length = 0
      · rw [if_pos hm]
        by_cases h0 : XXH64 c 0 = 0
        · exact Or.inr ⟨fun hd => hd.2 h0, Or.inl (by rw [h0])⟩
        · exact Or.inl ⟨⟨hm, h0⟩, rfl⟩
      · rw [if_neg hm]
        exact Or.inr ⟨fun hd => hm hd.1, Or.inl rfl⟩

theorem kxCryptFile_early {io : CryptCalls} {x : List UInt8} (h : io.Early x) (fname : CStr)
    (userKey : Option Aes.Key) :
    kxCryptFile XXH64 io fname userKey x = (.ok none, x) ∨
      kxCryptFile XXH64 io fname userKey x = (.error .oom, x) := by
  unfold kxCryptFile
  split
  · exact Or.inl rfl
  · rename_i hexit
    simp only [Bool.or_eq_true, Bool.not_eq_eq_eq_not, Bool.not_true, decide_eq_true_eq, not_or] at hexit
    have halloc : io.zmalloc = false := (h.resolve_left hexit.1).resolve_left hexit.2
    right
    rw [halloc]
    rfl

theorem kxCryptFile_no_user {io : CryptCalls} {x : List UInt8} (h : ¬ io.Early x) (fname : CStr) :
    kxCryptFile XXH64 io fname none x = (.error (.null .clientUser), x) := by
  obtain ⟨hstat, hsize, halloc⟩ : ¬ io.stat = false ∧ ¬ MAXFILESIZE < x.length ∧ ¬ io.zmalloc = false := by
    simpa [CryptCalls.Early] using h
  simp [kxCryptFile, hstat, hsize, zmalloc, halloc, deref]

/-- How `kx_crypt_file` ends past the early exits. -/
theorem kxCryptFile_user {io : CryptCalls} {x : List UInt8} (h : ¬ io.Early x) (fname : CStr)
    (key : Aes.Key) :
    (io.MakesRecord XXH64 key x ∧ ∃ kf y, kxCryptFile XXH64 io fname (some key) x = (.ok (some kf), y)) ∨
      (¬ io.MakesRecord XXH64 key x ∧ ∃ y, kxCryptFile XXH64 io fname (some key) x = (.ok none, y) ∨
        kxCryptFile XXH64 io fname (some key) x = (.error .oom, y)) := by
  obtain ⟨hstat, hsize, halloc⟩ : io.stat = true ∧ x.length ≤ MAXFILESIZE ∧ io.zmalloc = true := by
    simpa [CryptCalls.Early] using h
  by_cases hopen : io.fopen = true
  · rw [kxCryptFile_written XXH64 fname key hstat hsize halloc hopen]
    have hlen : (writtenContent io.blocks key x).length = 0 ↔ x.length = 0 := length_writtenContent _ _ _
    simp only [CryptCalls.MakesRecord, hopen, true_and]
    rcases calculateXxhash_cases XXH64 io.hash (writtenContent io.blocks key x) with
      ⟨hd, hhash⟩ | ⟨hd, hhash | hhash⟩ <;> rw [HashCalls.Delivers, hlen] at hd <;> rw [hhash]
    · exact Or.inl ⟨hd, _, _, by simp only [Except.map, if_neg hd.2.2.2]; rfl⟩
    · exact Or.inr ⟨hd, _, Or.inl rfl⟩
    · exact Or.inr ⟨hd, _, Or.inr rfl⟩
  · refine Or.inr ⟨fun hr => hopen hr.1, x, Or.inl ?_⟩
    simp [kxCryptFile, hstat, Nat.not_lt.2 hsize, zmalloc, halloc, deref, hopen, encryptFile, cryptFile]

/-- What `file -e` needs: a registered user once `kx_crypt_file` reads its key, and an open database
    once there is a record and it was sent. -/
def EncryptReady (XXH64 : List UInt8 → UInt64 → UInt64) (names : CStr → Nat) (calls : FileCalls)
    (path : CStr) (w : World) : Prop :=
  calls.crypt.Early (w.files (names path)) ∨
    ∃ user, w.client.user = some user ∧
      (calls.crypt.MakesRecord XXH64 user.key.bytes (w.files (names path)) →
        calls.listAdd = true → calls.send = true → w.client.db.isSome = true)

theorem kxSyncSendCmd_bind {β : Type} {ok : Bool} {type : KxType} {args : List FmtArg}
    {f : Option CStr → Except Fault β} :
    Safe (kxSyncSendCmd ok type args >>= f) ↔
      ∀ ac, kxSearchAction type = some ac → ok = true →
        Safe (f (some (CStr.ofMem (vsnprintf ac.cmdline.bytes args)))) := by
  obtain ⟨ac, hac⟩ := Option.isSome_iff_exists.1 (kxSearchAction_isSome type)
  unfold kxSyncSendCmd
  rw [hac]
  cases ok <;> simp [zmalloc, Except.map, safe_bind]

theorem safe_fileEncrypted (calls : FileCalls) (kf : KxFile) {w : World} {user : KxUser}
    (huser : w.client.user = some user) :
    Safe (fileEncrypted calls kf w) ↔
      (calls.listAdd = true → calls.send = true → w.client.db.isSome = true) := by
  obtain ⟨ac, hac⟩ := Option.isSome_iff_exists.1 (kxSearchAction_isSome .FILE_CRYPT)
  rw [fileEncrypted, safe_zmalloc_bind]
  refine imp_congr_right fun _ => ?_
  rw [huser, deref, safe_bind]
  simp only [safe_ok, true_and, Except.ok.injEq, forall_eq', kxSyncSendCmd_bind, hac,
    Option.some.injEq]
  refine imp_congr_right fun _ => ?_
  rw [safe_bind, safe_deref (Or.inr rfl)]
  refine and_iff_left fun db _ => ?_
  exact safe_bind.2 ⟨safe_kxStoreDb _ _ _ _ _, fun _ _ => safe_ok _⟩

theorem safe_fileEncrypt (calls : FileCalls) (path : CStr) (w : World) :
    Safe (fileEncrypt XXH64 names calls (some path) w) ↔ EncryptReady XXH64 names calls path w := by
  unfold EncryptReady
  by_cases hearly : calls.crypt.Early (w.files (names path))
  · refine iff_of_true ?_ (Or.inl hearly)
    rcases @kxCryptFile_early XXH64 _ _ hearly path (w.client.user.map (·.key.bytes)) with h | h <;>
      simp [fileEncrypt, h]
  · simp only [hearly, false_or]
    cases huser : w.client.user with
    | none => simp [fileEncrypt, huser, kxCryptFile_no_user hearly]
    | some user =>
      simp only [Option.some.injEq, exists_eq_left']
      rcases @kxCryptFile_user XXH64 _ _ hearly path user.key.bytes with
        ⟨hrec, kf, y, h⟩ | ⟨hrec, y, h | h⟩
      · simp only [fileEncrypt, huser, Option.map_some, h, hrec, true_imp_iff]
        exact safe_fileEncrypted calls kf (by rw [World.setFile_client, huser])
      · simp [fileEncrypt, huser, h, hrec]
      · simp [fileEncrypt, huser, h, hrec]

theorem safe_fileDecrypt (calls : FileCalls) (path : CStr) (w : World) :
    Safe (fileDecrypt names calls (some path) w) ↔ w.client.user.isSome = true := by
  rw [fileDecrypt, safe_bind, safe_deref (Or.inl rfl)]
  exact and_iff_left fun _ _ => safe_ok _

theorem safe_fileGetfilelist (calls : FileCalls) (w : World) :
    Safe (fileGetfilelist calls w) ↔ w.client.db.isSome = true := by
  rw [fileGetfilelist, safe_bind, safe_deref (Or.inr rfl)]
  exact and_iff_left fun _ _ => safe_ok _

/-- What a file command needs, by the handler that its options select. -/
def FileReady (XXH64 : List UInt8 → UInt64 → UInt64) (names : CStr → Nat) (cl : CommandLine FileOpt)
    (calls : FileCalls) (w : World) : Prop :=
  calls.initState = true →
    match (doFile cl).2 with
    | some (.fileEncrypt (some path)) => EncryptReady XXH64 names calls path w
    | some (.fileDecrypt (some _)) => w.client.user.isSome = true
    | some .fileGetfilelist => w.client.db.isSome = true
    | _ => True

theorem safe_stepFile (cl : CommandLine FileOpt) (calls : FileCalls) (w : World) :
    Safe (stepFile XXH64 names cl calls w) ↔ FileReady XXH64 names cl calls w := by
  rw [stepFile, safe_zmalloc_bind, FileReady]
  refine imp_congr_right fun _ => ?_
  cases (doFile cl).2 with
  | none => simp
  | some call =>
    cases call with
    | fileEncrypt file =>
      cases file with
      | none => simp [fileEncrypt]
      | some path => exact safe_fileEncrypt calls path w
    | fileDecrypt file =>
      cases file with
      | none => simp [fileDecrypt]
      | some path => exact safe_fileDecrypt calls path w
    | fileGetfilelist =>
      rw [safe_bind, safe_fileGetfilelist]
      exact and_iff_left fun _ _ => safe_ok _

/-! ## Sessions -/

/-- The state has what the command dereferences. -/
def Ready (XXH64 : List UInt8 → UInt64 → UInt64) (names : CStr → Nat) (w : World) : Command → Prop
  | .user cl calls => UserReady cl calls w
  | .file cl calls => FileReady XXH64 names cl calls w

/-- **One command** is safe exactly in the states that have what it dereferences. -/
theorem step_safe_iff (w : World) (c : Command) :
    Safe (step XXH64 names w c) ↔ Ready XXH64 names w c := by
  cases c with
  | user cl calls => exact safe_stepUser cl calls w
  | file cl calls => exact safe_stepFile cl calls w

/-- **A session is safe** exactly if every command of it is typed in a state that has what it
    dereferences. -/
theorem session_safe_iff (XXH64 : List UInt8 → UInt64 → UInt64) (names : CStr → Nat) (node : KxNode)
    (files : Nat → List UInt8) (cmds : List Command) :
    Safe (session XXH64 names node files cmds) ↔
      Along (step XXH64 names) (Ready XXH64 names) (rkxInit node files) cmds :=
  run_not_bad_iff step_safe_iff cmds (rkxInit node files)

/-! ## Behind a registration -/

/-- A registered user and an open database. -/
def Registered (w : World) : Prop := w.client.user.isSome = true ∧ w.client.db.isSome = true

/-- If the command registers a user, its database opens. -/
def Command.Opens : Command → Prop
  | .user _ calls =>
    calls.db.envCreate = MDB_SUCCESS ∧ calls.db.setMapsize = MDB_SUCCESS ∧ calls.db.envOpen = MDB_SUCCESS
  | .file _ _ => True

/-- **A registration whose database opens** leaves a user and a database. -/
theorem registered_of_userRegister {calls : UserCalls} {puser ppwd : Option CStr} {w w' : World}
    (hc : calls.db.envCreate = MDB_SUCCESS) (hm : calls.db.setMapsize = MDB_SUCCESS)
    (ho : calls.db.envOpen = MDB_SUCCESS) (h : userRegister calls puser ppwd w = .ok w') :
    Registered w' := by
  obtain ⟨name, -, h⟩ := bind_eq_ok.1 h
  obtain ⟨pwd, -, h⟩ := bind_eq_ok.1 h
  obtain ⟨_, -, h⟩ := bind_eq_ok.1 h
  obtain ⟨db, hdb, h⟩ := bind_eq_ok.1 h
  obtain ⟨text, -, h⟩ := bind_eq_ok.1 h
  cases h
  obtain ⟨-, hopened, -⟩ := kxCreatDb_ok hdb
  exact ⟨rfl, Option.isSome_iff_exists.2 (hopened.2 ⟨hc, hm, ho⟩)⟩

theorem registered_of_fileEncrypt {calls : FileCalls} {file : Option CStr} {w w' : World}
    (hw : Registered w) (h : fileEncrypt XXH64 names calls file w = .ok w') : Registered w' := by
  cases file with
  | none => cases h; exact hw
  | some path =>
    unfold fileEncrypt at h
    dsimp only at h
    split at h
    · cases h
    · cases h; exact hw
    · obtain ⟨_, -, h⟩ := bind_eq_ok.1 h
      obtain ⟨user, -, h⟩ := bind_eq_ok.1 h
      obtain ⟨text, -, h⟩ := bind_eq_ok.1 h
      obtain ⟨db, -, h⟩ := bind_eq_ok.1 h
      obtain ⟨r, -, h⟩ := bind_eq_ok.1 h
      cases h
      exact ⟨hw.1, rfl⟩

theorem registered_of_fileDecrypt {calls : FileCalls} {file : Option CStr} {w w' : World}
    (hw : Registered w) (h : fileDecrypt names calls file w = .ok w') : Registered w' := by
  cases file with
  | none => cases h; exact hw
  | some path =>
    obtain ⟨user, -, h⟩ := bind_eq_ok.1 h
    cases h
    exact hw

/-- No command takes the user or the database away while registrations open theirs. -/
theorem registered_step (w : World) (c : Command) (w' : World) (hc : c.Opens) (hw : Registered w)
    (h : step XXH64 names w c = .ok w') : Registered w' := by
  cases c with
  | user cl calls =>
    obtain ⟨hcreate, hmap, hopen⟩ := hc
    obtain ⟨_, -, h⟩ := bind_eq_ok.1 h
    cases hcall : (doUser cl).2 with
    | none => rw [hcall] at h; cases h; exact hw
    | some call =>
      rw [hcall] at h
      cases call with
      | kxUserRegister puser ppwd =>
        obtain ⟨w₁, -, h⟩ := bind_eq_ok.1 h
        exact registered_of_userRegister hcreate hmap hopen h
      | kxUserGet =>
        obtain ⟨user, -, h⟩ := bind_eq_ok.1 h
        obtain ⟨text, -, h⟩ := bind_eq_ok.1 h
        cases h
        exact hw
  | file cl calls =>
    obtain ⟨_, -, h⟩ := bind_eq_ok.1 h
    cases hcall : (doFile cl).2 with
    | none => rw [hcall] at h; cases h; exact hw
    | some call =>
      rw [hcall] at h
      cases call with
      | fileEncrypt file => exact registered_of_fileEncrypt hw h
      | fileDecrypt file => exact registered_of_fileDecrypt hw h
      | fileGetfilelist =>
        obtain ⟨r, hr, h⟩ := bind_eq_ok.1 h
        obtain ⟨db, -, hr⟩ := bind_eq_ok.1 hr
        cases hr
        cases h
        exact ⟨hw.1, rfl⟩

theorem ready_of_registered (w : World) (c : Command) (hw : Registered w) :
    Ready XXH64 names w c := by
  obtain ⟨huser, hdb⟩ := hw
  cases c with
  | user cl calls => exact fun _ _ => huser
  | file cl calls =>
    intro _
    split
    · obtain ⟨user, hu⟩ := Option.isSome_iff_exists.1 huser
      exact Or.inr ⟨user, hu, fun _ _ _ => hdb⟩
    · exact huser
    · exact hdb
    · trivial

/-- User and database stay through a run whose registrations open theirs. -/
theorem registered_run {w w' : World} (hw : Registered w) {cmds : List Command}
    (hopens : ∀ c ∈ cmds, c.Opens) (h : run (step XXH64 names) w cmds = .ok w') : Registered w' :=
  run_invariant registered_step hopens hw h

/-- **Behind a registration whose database opened** every run is safe, as long as later
    registrations open their databases. -/
theorem run_safe_of_registered {w : World} (hw : Registered w) {cmds : List Command}
    (hopens : ∀ c ∈ cmds, c.Opens) : Safe (run (step XXH64 names) w cmds) :=
  (run_not_bad_iff step_safe_iff cmds w).2
    (along_of_invariant registered_step ready_of_registered hopens hw)

end Files

/-- `file -l` -/
def listCommand : CommandLine FileOpt where
  argv := [.lit "file", .lit "-l"]
  opts := [.l]
  named := by simp
  room := by simp

/-- Outcomes of a session in which every call succeeds. -/
def fileCallsSample : FileCalls where
  initState := true
  crypt := ⟨true, true, true, BlockCalls.full, ⟨true, true, 0⟩⟩
  pad := ⟨0, Vector.replicate 4 0⟩
  behind := fun _ => 0
  listAdd := true
  send := true
  insert := InsertCalls.success
  decryptFopen := true
  decryptBlocks := BlockCalls.full
  get := GetCalls.success 0

/-- `file -l` right after the start dereferences `client.db`, which is NULL. -/
theorem session_list_unsafe :
    ¬ Safe (session (fun _ _ => 1) (fun _ => 0) ⟨List.replicate 68 0, rfl⟩ (fun _ => [])
      [.file listCommand fileCallsSample]) := by
  have hcall : (doFile listCommand).2 = some .fileGetfilelist := by decide
  have hrun : session (fun _ _ => 1) (fun _ => 0) ⟨List.replicate 68 0, rfl⟩ (fun _ => [])
      [.file listCommand fileCallsSample] = .error (.null .clientDb) := by
    apply run_cons_error
    simp only [step, stepFile, hcall]
    rfl
  rw [hrun]
  simp

end Rkx
