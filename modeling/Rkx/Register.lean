import Rkx.Encrypting
import Rkx.RecordStrings

/-!
# Registration

`kx_user_register` sets `client.user`, opens the database and sends the user hash to Redis.  It
looks at the outcome of none of the three and returns 0.

* `kxUserRegister`: the return code and the state after the call;
* `kxUserRegister_ok`: all that a call that returns has done;
* `RegistersAtomically`: the user, the database and the hash are all there, or the code is not 0 and
  the session is the old one;
* `registers_atomically_iff`: exactly if the database opens, Redis executes the command, and what the
  fields keep of the strings ends in them and is a word without a percent.
-/

set_option autoImplicit false

namespace Rkx

open Lib.CString Lib.Words

/-! ## The call -/

/-- `kx_user_register`: the return code, which is 0 however the calls end, and the state. -/
def kxUserRegister (calls : UserCalls) (puser ppwd : Option CStr) (w : World) :
    Except Fault (Int × World) :=
  (userRegister calls puser ppwd w).map fun w => (0, w)

/-- The action of `kx_user_register`. -/
def userReg : Action :=
  ⟨.USER_REG, .lit "HMSET node:%s:user:%s username %s password %s isonline %d"⟩

theorem userReg_mem : userReg ∈ acs := by simp [acs, userReg]

/-- The record of a new user. -/
def newUser (calls : UserCalls) (node : KxNode) (name pwd : CStr) : KxUser :=
  { kxCreatUser calls.heap node name pwd with isonline := 1 }

/-- The key of the hash of a user. -/
def userHashKey (uuid username : List UInt8) : List UInt8 :=
  (CStr.lit "node:").bytes ++ uuid ++ (CStr.lit ":user:").bytes ++ username

/-- The words of the command. -/
def userRegWords (uuid username pwd : List UInt8) : List (List UInt8) :=
  [(CStr.lit "HMSET").bytes, userHashKey uuid username, (CStr.lit "username").bytes, username,
    (CStr.lit "password").bytes, pwd, (CStr.lit "isonline").bytes, (decimal 1).bytes]

theorem vsnprintf_userReg (uuid username pwd : CStr) :
    vsnprintf userReg.cmdline.bytes [.s uuid, .s username, .s username, .s pwd, .num 1] =
      joined (userRegWords uuid.bytes username.bytes pwd.bytes) := by
  simp only [joined, userRegWords, userHashKey, List.intercalate, List.intersperse, List.flatten_cons,
    List.append_assoc]
  rfl

/-- **What a registration that returns has done**: whatever `kx_creat_db` has returned is the
    database. -/
theorem kxUserRegister_ok {calls : UserCalls} {puser ppwd : Option CStr} {w w' : World} {ret : Int}
    (h : kxUserRegister calls puser ppwd w = .ok (ret, w')) :
    ∃ name pwd db text, puser = some name ∧ ppwd = some pwd ∧ ret = 0 ∧
      kxCreatDb calls.db calls.dbHeap MAXMAPSIZE (.lit "./data") name = .ok db ∧
      calls.creatUser = true ∧ calls.send = true ∧
      w'.client = { w.client with user := some (newUser calls w.client.node name pwd), db } ∧
      w'.redis = text :: w.redis ∧
      text.bytes = joined (userRegWords w.client.node.uuid.bytes
        (newUser calls w.client.node name pwd).username.bytes
        (newUser calls w.client.node name pwd).pwd.bytes) := by
  unfold kxUserRegister at h
  cases hreg : userRegister calls puser ppwd w with
  | error e =>
    rw [hreg] at h
    cases h
  | ok w₁ =>
    rw [hreg] at h
    cases h
    obtain ⟨name, hname, hread⟩ := bind_eq_ok.1 hreg
    obtain ⟨pwd, hpwd, hfill⟩ := bind_eq_ok.1 hread
    obtain ⟨_, halloc, hopen⟩ := bind_eq_ok.1 hfill
    obtain ⟨db, hdb, hsend⟩ := bind_eq_ok.1 hopen
    obtain ⟨sent, hsent, hend⟩ := bind_eq_ok.1 hsend
    cases hend
    obtain ⟨hok, text, rfl, htext⟩ := kxSyncSendCmd_ok userReg_mem hsent
    refine ⟨name, pwd, db, text, deref_eq_ok.1 hname, deref_eq_ok.1 hpwd, rfl, hdb,
      zmalloc_eq_ok.1 halloc, hok, rfl, rfl, ?_⟩
    rw [htext]
    exact vsnprintf_userReg _ _ _

/-- A call with both credentials returns when it finds the memory. -/
theorem exists_kxUserRegister {calls : UserCalls} (hcreat : calls.creatUser = true)
    (hdb : calls.db.zmalloc = true) (hsend : calls.send = true) (name pwd : CStr) (w : World) :
    ∃ ret w', kxUserRegister calls (some name) (some pwd) w = .ok (ret, w') := by
  have hopen : ∃ db, kxCreatDb calls.db calls.dbHeap MAXMAPSIZE (.lit "./data") name = .ok db := by
    simp only [kxCreatDb, hdb, zmalloc, if_true, bind, Except.bind]
    split
    · exact ⟨_, rfl⟩
    · split
      · exact ⟨_, rfl⟩
      · split <;> exact ⟨_, rfl⟩
  obtain ⟨db, hopen⟩ := hopen
  obtain ⟨text, htext, -⟩ := kxSyncSendCmd_eq userReg_mem
    [.s w.client.node.uuid, .s (newUser calls w.client.node name pwd).username,
      .s (newUser calls w.client.node name pwd).username,
      .s (newUser calls w.client.node name pwd).pwd, .num 1]
  simp only [userReg, newUser] at htext
  have hreg : ∃ w', userRegister calls (some name) (some pwd) w = .ok w' := by
    simp only [userRegister, deref, hcreat, hsend, hopen, zmalloc, if_true, bind, Except.bind, htext]
    exact ⟨_, rfl⟩
  obtain ⟨w', hreg⟩ := hreg
  exact ⟨0, w', by rw [kxUserRegister, hreg]; rfl⟩

/-! ## The hash in Redis -/

/-- The hash is the one of a user online. -/
structure HoldsUser (hash : List UInt8 → Option (List UInt8)) (name pwd : List UInt8) : Prop where
  username : hash (CStr.lit "username").bytes = some name
  password : hash (CStr.lit "password").bytes = some pwd
  isonline : hash (CStr.lit "isonline").bytes = some (decimal 1).bytes

theorem plain_userRegLits : Plain (CStr.lit "HMSET").bytes ∧ Plain (CStr.lit "username").bytes ∧
    Plain (CStr.lit "password").bytes ∧ Plain (CStr.lit "isonline").bytes := by
  decide

/-- The hash that `HMSET` of three pairs leaves behind. -/
theorem holdsUser_setFields (hash : List UInt8 → Option (List UInt8)) (name pwd : List UInt8) :
    HoldsUser (setFields hash [(CStr.lit "username").bytes, name, (CStr.lit "password").bytes,
      pwd, (CStr.lit "isonline").bytes, (decimal 1).bytes]) name pwd := by
  have h1 : (CStr.lit "username").bytes ≠ (CStr.lit "password").bytes := by decide
  have h2 : (CStr.lit "username").bytes ≠ (CStr.lit "isonline").bytes := by decide
  have h3 : (CStr.lit "password").bytes ≠ (CStr.lit "isonline").bytes := by decide
  constructor
  case username => simp [setFields, h1, h2]
  case password => simp [setFields, h3]
  case isonline => simp [setFields]

/-- The texts of plain strings arrive. -/
theorem holdsUser_of_plain {uuid : List UInt8} {name pwd : CStr} (huuid : space ∉ uuid ∧ percent ∉ uuid)
    (hname : Plain name.bytes) (hpwd : Plain pwd.bytes) (stray : List UInt8 → List (List UInt8))
    (server : RedisDb) :
    HoldsUser (serverReceive stray server (joined (userRegWords uuid name.bytes pwd.bytes))
      (userHashKey uuid name.bytes)) name.bytes pwd.bytes := by
  obtain ⟨h1, h2, h3, h4⟩ := plain_userRegLits
  have hkey : Plain (userHashKey uuid name.bytes) := by
    refine Plain.append ⟨by simp [show (CStr.lit "node:").bytes ≠ [] by decide], ?_, ?_⟩ hname
    · simp only [List.mem_append, not_or]
      exact ⟨⟨by decide, huuid.1⟩, by decide⟩
    · simp only [List.mem_append, not_or]
      exact ⟨⟨by decide, huuid.2⟩, by decide⟩
  have hwords : ∀ w ∈ userRegWords uuid name.bytes pwd.bytes, w ≠ [] ∧ space ∉ w ∧ percent ∉ w := by
    simp only [userRegWords, List.mem_cons, List.not_mem_nil, or_false, forall_eq_or_imp, forall_eq]
    exact ⟨h1, hkey, h2, hname, h3, hpwd, h4, plain_decimal 1⟩
  rw [serverReceive_some ((redisCommand_joined_iff _).2 hwords), userRegWords, serverExec,
    if_pos ⟨rfl, by simp⟩, Function.update_self]
  exact holdsUser_setFields _ _ _

/-- A hash of a server that was empty before a command is made of its words. -/
theorem mem_of_serverExec_empty {ws : List (List UInt8)} {key field value : List UInt8}
    (h : serverExec (fun _ _ => none) ws key field = some value) : key ∈ ws ∧ value ∈ ws := by
  rcases serverExec_values h with hold | hnew
  · cases hold
  · exact hnew

/-- A hash that arrives at an empty server is one of plain strings. -/
theorem plain_of_holdsUser {uuid : List UInt8} {name pwd : CStr}
    (h : HoldsUser (serverReceive lost (fun _ _ => none) (joined (userRegWords uuid name.bytes pwd.bytes))
      (userHashKey uuid name.bytes)) name.bytes pwd.bytes) :
    (space ∉ uuid ∧ percent ∉ uuid) ∧ Plain name.bytes ∧ Plain pwd.bytes := by
  cases hws : redisCommand (joined (userRegWords uuid name.bytes pwd.bytes)) with
  | none =>
    have hnone := h.username
    rw [serverReceive, hws] at hnone
    cases hnone
  | some ws =>
    rw [serverReceive_some hws] at h
    have hkey := token_of_redisCommand hws (mem_of_serverExec_empty h.username).1
    have hname := token_of_redisCommand hws (mem_of_serverExec_empty h.username).2
    have hpwd := token_of_redisCommand hws (mem_of_serverExec_empty h.password).2
    obtain ⟨h1, h2, h3, h4⟩ := plain_userRegLits
    have htokens : ∀ w ∈ userRegWords uuid name.bytes pwd.bytes, w ≠ [] ∧ space ∉ w := by
      simp only [userRegWords, List.mem_cons, List.not_mem_nil, or_false, forall_eq_or_imp, forall_eq]
      exact ⟨⟨h1.1, h1.2.1⟩, hkey, ⟨h2.1, h2.2.1⟩, hname, ⟨h3.1, h3.2.1⟩, hpwd, ⟨h4.1, h4.2.1⟩,
        (plain_decimal 1).1, (plain_decimal 1).2.1⟩
    rw [redisCommand, joined, words_intercalate htokens, mapM_eq_some_iff] at hws
    simp only [userRegWords, List.forall₂_cons_left_iff, List.forall₂_nil_left_iff,
      unescape_of_plain h1, unescape_of_plain h2, unescape_of_plain h3, unescape_of_plain h4,
      unescape_of_plain (plain_decimal 1), Option.some.injEq] at hws
    obtain ⟨_, _, rfl, ⟨key, _, hkey', ⟨_, _, rfl, ⟨name', _, hname', ⟨_, _, rfl, ⟨pwd', _, hpwd', ⟨_, _, rfl,
      ⟨_, _, rfl, rfl, rfl⟩, rfl⟩, rfl⟩, rfl⟩, rfl⟩, rfl⟩, rfl⟩, rfl⟩ := hws
    have hset := holdsUser_setFields (fun _ => none) name' pwd'
    rw [serverExec, if_pos ⟨rfl, by simp⟩] at h
    have hsame : userHashKey uuid name.bytes = key := by
      by_contra hne
      have hnone := h.username
      rw [Function.update_of_ne hne] at hnone
      cases hnone
    subst hsame
    rw [Function.update_self] at h
    cases hset.username.symm.trans h.username
    cases hset.password.symm.trans h.password
    rw [unescape_eq_self_iff] at hkey' hname' hpwd'
    refine ⟨⟨?_, ?_⟩, ⟨hname.1, hname.2, hname'⟩, hpwd.1, hpwd.2, hpwd'⟩
    · exact fun hmem => hkey.2 (by simp [userHashKey, hmem])
    · exact fun hmem => hkey' (by simp [userHashKey, hmem])

/-! ## Atomic registration -/

/-- The user, the open database and the hash are there, with what the fields of the record of a user keep of
    the two strings. -/
structure Complete (name pwd : CStr) (w : World) (server : RedisDb) : Prop where
  user : ∃ user, w.client.user = some user ∧ UserStrings user name pwd ∧ user.isonline = 1
  db : ∃ db, w.client.db = some db ∧ db.dbname = name.take 31
  hash : HoldsUser (server (userHashKey w.client.node.uuid.bytes (name.take 31).bytes)) (name.take 31).bytes
    (pwd.take 31).bytes

/-- The server after the latest text of a session, which it has executed or not. -/
def serverAfter (stray : List UInt8 → List (List UInt8)) (server : RedisDb) (executed : Bool) (w : World) :
    RedisDb :=
  if executed then serverReceive stray server ((w.redis.head?.map CStr.bytes).getD []) else server

/-- From any state of the server, the call returns 0 and all is there, or it returns another code
    and leaves the user and the database as they were. -/
def RegistersAtomically (calls : UserCalls) (executed : Bool) (puser ppwd : Option CStr) (w : World) :
    Prop :=
  ∀ (stray : List UInt8 → List (List UInt8)) (server : RedisDb),
    ∃ ret w', kxUserRegister calls puser ppwd w = .ok (ret, w') ∧
      ((ret = 0 ∧ ∃ name pwd, puser = some name ∧ ppwd = some pwd ∧
          Complete name pwd w' (serverAfter stray server executed w')) ∨
        (ret ≠ 0 ∧ w'.client.user = w.client.user ∧ w'.client.db = w.client.db))

/-- No call fails, the server executes the command, and what the fields keep of the strings are words
    without a percent that end in them. -/
structure Unhindered (calls : UserCalls) (executed : Bool) (uuid name pwd : CStr) : Prop where
  memory : calls.creatUser = true ∧ calls.db.zmalloc = true ∧ calls.send = true
  opened : calls.db.envCreate = MDB_SUCCESS ∧ calls.db.setMapsize = MDB_SUCCESS ∧
    calls.db.envOpen = MDB_SUCCESS
  answered : executed = true
  uuid_plain : space ∉ uuid.bytes ∧ percent ∉ uuid.bytes
  name_plain : Plain (name.take 31).bytes
  pwd_plain : Plain (pwd.take 31).bytes
  name_ends : EndsAt 31 (calls.heap.user.get 31) name ∧ EndsAt 31 (calls.dbHeap.get 31) name
  pwd_ends : EndsAt 31 (calls.heap.user.get 63) pwd

theorem newUser_strings_iff (calls : UserCalls) (node : KxNode) (name pwd : CStr) :
    UserStrings (newUser calls node name pwd) name pwd ↔
      EndsAt 31 (calls.heap.user.get 31) name ∧ EndsAt 31 (calls.heap.user.get 63) pwd := by
  rw [← username_take_iff calls.heap node name pwd, ← pwd_take_iff calls.heap node name pwd]
  constructor
  · rintro ⟨hname, hpwd⟩
    exact ⟨hname, hpwd⟩
  · rintro ⟨hname, hpwd⟩
    exact ⟨hname, hpwd⟩

/-- **Registration is atomic** exactly if nothing fails and what the records keep of the strings is stored and
    sent as it is. -/
theorem registers_atomically_iff (calls : UserCalls) (executed : Bool) (puser ppwd : Option CStr)
    (w : World) :
    RegistersAtomically calls executed puser ppwd w ↔
      ∃ name pwd, puser = some name ∧ ppwd = some pwd ∧
        Unhindered calls executed w.client.node.uuid name pwd := by
  constructor
  · intro h
    obtain ⟨ret, w', hcall, hend⟩ := h lost fun _ _ => none
    obtain ⟨name, pwd, db, text, rfl, rfl, rfl, hdb, hcreat, hsend, hclient, hredis, htext⟩ :=
      kxUserRegister_ok hcall
    rcases hend with ⟨-, _, _, hn, hp, hc⟩ | ⟨hne, -⟩
    swap
    · exact absurd rfl hne
    cases hn
    cases hp
    refine ⟨name, pwd, rfl, rfl, ?_⟩
    obtain ⟨halloc, hopened, -⟩ := kxCreatDb_ok hdb
    obtain ⟨user, huser, hstrings, -⟩ := hc.user
    obtain ⟨d, hd, hdbname⟩ := hc.db
    rw [hclient] at huser hd
    obtain rfl : newUser calls w.client.node name pwd = user := Option.some.inj huser
    obtain rfl : db = some d := hd
    -- the hash can only come from the text
    have hhash := hc.hash
    rw [hclient, serverAfter, hredis, List.head?_cons, Option.map_some, Option.getD_some, htext,
      hstrings.username, hstrings.pwd] at hhash
    cases executed with
    | false =>
      rw [if_neg Bool.false_ne_true] at hhash
      cases hhash.username
    | true =>
      rw [if_pos rfl] at hhash
      obtain ⟨huuid, hname, hpwd⟩ := plain_of_holdsUser hhash
      obtain ⟨hnameEnds, hpwdEnds⟩ := (newUser_strings_iff _ _ _ _).1 hstrings
      exact ⟨⟨hcreat, halloc, hsend⟩, hopened.1 ⟨d, rfl⟩, rfl, huuid, hname, hpwd,
        ⟨hnameEnds, (dbname_take_iff hdb).1 hdbname⟩, hpwdEnds⟩
  · rintro ⟨name, pwd, rfl, rfl, h⟩ stray server
    obtain ⟨ret, w', hcall⟩ := exists_kxUserRegister h.memory.1 h.memory.2.1 h.memory.2.2 name pwd w
    obtain ⟨_, _, db, text, hn, hp, rfl, hdb, -, -, hclient, hredis, htext⟩ := kxUserRegister_ok hcall
    cases hn
    cases hp
    obtain ⟨-, hopened, -⟩ := kxCreatDb_ok hdb
    obtain ⟨d, rfl⟩ := hopened.2 h.opened
    have hstrings : UserStrings (newUser calls w.client.node name pwd) name pwd :=
      (newUser_strings_iff _ _ _ _).2 ⟨h.name_ends.1, h.pwd_ends⟩
    refine ⟨0, w', hcall, Or.inl ⟨rfl, name, pwd, rfl, rfl, ?_⟩⟩
    constructor
    case user => exact ⟨_, by rw [hclient], hstrings, rfl⟩
    case db => exact ⟨d, by rw [hclient], (dbname_take_iff hdb).2 h.name_ends.2⟩
    case hash =>
      rw [hclient, serverAfter, h.answered, if_pos rfl, hredis, List.head?_cons, Option.map_some,
        Option.getD_some, htext, hstrings.username, hstrings.pwd]
      exact holdsUser_of_plain h.uuid_plain h.name_plain h.pwd_plain stray server

/-- All calls succeed but for `mdb_env_open`, which returns `EACCES`. -/
def callsDenied : UserCalls where
  initState := true
  sendNode := true
  creatUser := true
  heap := heapWith []
  db := ⟨true, MDB_SUCCESS, MDB_SUCCESS, 13, fun _ => none⟩
  dbHeap := Vector.replicate 164 0
  send := true

/-- Alice registers in the session of bob: the call returns 0, with a new user and without a
    database. -/
theorem registration_loses_database :
    (∃ w', kxUserRegister callsDenied (some alice) (some alice) worldSample = .ok (0, w') ∧
      w'.client.user.isSome = true ∧ w'.client.db = none) ∧
    worldSample.client.db.isSome = true ∧
    ¬ RegistersAtomically callsDenied true (some alice) (some alice) worldSample := by
  have hnone : ∀ ret w', kxUserRegister callsDenied (some alice) (some alice) worldSample = .ok (ret, w') →
      ret = 0 ∧ w'.client.user.isSome = true ∧ w'.client.db = none := by
    intro ret w' hcall
    obtain ⟨name, pwd, db, text, -, -, rfl, hdb, -, -, hclient, -⟩ := kxUserRegister_ok hcall
    obtain ⟨-, hopened, -⟩ := kxCreatDb_ok hdb
    have hclosed : db = none := by
      by_contra hsome
      obtain ⟨d, hd⟩ := Option.ne_none_iff_exists'.1 hsome
      exact absurd (hopened.1 ⟨d, hd⟩).2.2 (by decide)
    rw [hclient]
    exact ⟨rfl, rfl, hclosed⟩
  refine ⟨?_, rfl, ?_⟩
  · obtain ⟨ret, w', hcall⟩ := @exists_kxUserRegister callsDenied rfl rfl rfl alice alice worldSample
    obtain ⟨rfl, huser, hdb⟩ := hnone ret w' hcall
    exact ⟨w', hcall, huser, hdb⟩
  · intro h
    obtain ⟨ret, w', hcall, hend⟩ := h lost fun _ _ => none
    obtain ⟨rfl, -, hdb⟩ := hnone ret w' hcall
    rcases hend with ⟨-, _, _, -, -, hc⟩ | ⟨hne, -⟩
    · obtain ⟨d, hd, -⟩ := hc.db
      rw [hdb] at hd
      cases hd
    · exact hne rfl

end Rkx
