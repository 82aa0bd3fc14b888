import Mathlib.Algebra.Order.BigOperators.Group.List
import Rkx.Encrypting

/-!
# Records of encrypted files in Redis

`file_encrypt` sends `HMSET fileuuid:<uuid> …`, and the uuid is a hash of the ciphertext alone.

* `EncryptCall`, `EncryptRun`: successful calls of any users on any nodes, on different paths;
* `fileCryptWords`, `redisCommand_text`: the words of the text, and what arrives of them;
* `server_source`: where the hashes of the server come from after a run;
* `records_kept_iff`: the server holds the record of every call, exactly if the texts arrive verbatim
  and no two ciphertexts have one hash.
-/

set_option autoImplicit false

namespace Rkx

open Lib.CString Lib.Words

/-! ## Runs -/

/-- A successful call of `file_encrypt` by a user on a node, with the state of its program. -/
structure EncryptCall (XXH64 : List UInt8 → UInt64 → UInt64) where
  names : CStr → Nat
  calls : FileCalls
  path : CStr
  before : World
  after : World
  user : KxUser
  registered : before.client.user = some user
  done : Encrypts XXH64 names calls path before after

/-- A run of calls on pairwise different paths. -/
structure EncryptRun (XXH64 : List UInt8 → UInt64 → UInt64) where
  calls : List (EncryptCall XXH64)
  paths : (calls.map EncryptCall.path).Nodup

variable {XXH64 : List UInt8 → UInt64 → UInt64}

namespace EncryptCall

/-- The uuid of the node, `muuid` in Redis. -/
def muuid (c : EncryptCall XXH64) : CStr := c.before.client.node.uuid

/-- The hash of what the call leaves in the file. -/
def uuid (c : EncryptCall XXH64) : UInt64 :=
  XXH64 (writtenContent c.calls.crypt.blocks c.user.key.bytes (c.before.files (c.names c.path))) 0

/-- The text that the call has handed to `redisCommand`. -/
def text (c : EncryptCall XXH64) : List UInt8 := (c.after.redis.head?.map CStr.bytes).getD []

/-- The key of its hash. -/
def key (c : EncryptCall XXH64) : List UInt8 :=
  (CStr.lit "fileuuid:").bytes ++ (decimal c.uuid.toNat).bytes

end EncryptCall

/-- The server after the texts of the calls. -/
def serverRun (stray : List UInt8 → List (List UInt8)) (db : RedisDb) (calls : List (EncryptCall XXH64)) :
    RedisDb :=
  calls.foldl (fun db c => serverReceive stray db c.text) db

/-- The hash holds the path, the user and the node of the call. -/
structure HoldsRecord (hash : List UInt8 → Option (List UInt8)) (c : EncryptCall XXH64) : Prop where
  path : hash (CStr.lit "path").bytes = some c.path.bytes
  user : hash (CStr.lit "user").bytes = some c.user.username.bytes
  muuid : hash (CStr.lit "muuid").bytes = some c.muuid.bytes

/-- From any state of the server and whatever arrives of the texts with conversions, every call of
    the run has a hash afterwards. -/
def RecordsKept (r : EncryptRun XXH64) : Prop :=
  ∀ (stray : List UInt8 → List (List UInt8)) (db : RedisDb), ∀ c ∈ r.calls,
    ∃ key, HoldsRecord (serverRun stray db r.calls key) c

/-! ## The words of a text -/

/-- The words of a `FILE_CRYPT` text. -/
def fileCryptWords (key uuid filename path user muuid : List UInt8) : List (List UInt8) :=
  [(CStr.lit "HMSET").bytes, key, (CStr.lit "filename").bytes, filename, (CStr.lit "path").bytes, path,
    (CStr.lit "uuid").bytes, uuid, (CStr.lit "user").bytes, user, (CStr.lit "muuid").bytes, muuid]

theorem plain_fileCryptLits : Plain (CStr.lit "HMSET").bytes ∧ Plain (CStr.lit "filename").bytes ∧
    Plain (CStr.lit "path").bytes ∧ Plain (CStr.lit "uuid").bytes ∧ Plain (CStr.lit "user").bytes ∧
    Plain (CStr.lit "muuid").bytes := by
  decide

theorem EncryptCall.plain_key (c : EncryptCall XXH64) : Plain c.key :=
  Plain.append (by decide) (plain_decimal _)

theorem vsnprintf_fileCrypt (o : FileObject) (user : KxUser) (node : KxNode) :
    vsnprintf fileCrypt.cmdline.bytes (fileCryptArgs o user node) =
      joined (fileCryptWords ((CStr.lit "fileuuid:").bytes ++ (decimal o.file.uuid.toNat).bytes)
        (decimal o.file.uuid.toNat).bytes (o.str 0).bytes (o.str 255).bytes user.username.bytes
        node.uuid.bytes) := by
  rfl

/-- **The text of a call**; its file name is made of bytes of the path. -/
theorem EncryptCall.text_eq (c : EncryptCall XXH64) :
    ∃ filename : List UInt8, filename ≠ [] ∧ filename ⊆ c.path.bytes ∧
      c.text = joined (fileCryptWords c.key (decimal c.uuid.toNat).bytes filename c.path.bytes
        c.user.username.bytes c.muuid.bytes) := by
  obtain ⟨user, db, db', text, he⟩ := c.done.effect
  have huser : user = c.user := Option.some.inj (he.user_eq.symm.trans c.registered)
  subst huser
  obtain ⟨hne, hsub⟩ := mem_str_fname
    (recordObject XXH64 c.calls c.user c.path (c.before.files (c.names c.path))) c.done.nonempty rfl
    rfl c.done.short
  refine ⟨_, hne, hsub, ?_⟩
  have hpath := str_fullname
    (recordObject XXH64 c.calls c.user c.path (c.before.files (c.names c.path))) rfl c.done.short
  have htext : c.text = text.bytes := by
    rw [EncryptCall.text, he.redis_eq, List.head?_cons, Option.map_some, Option.getD_some]
  have huuid : (recordObject XXH64 c.calls c.user c.path (c.before.files (c.names c.path))).file.uuid =
      c.uuid := rfl
  rw [htext, he.text_eq, vsnprintf_fileCrypt, hpath, huuid, EncryptCall.key, EncryptCall.muuid]

/-- **What arrives of words put together**: nothing, or the words without their escapes. -/
theorem redisCommand_fileCrypt {key uuid filename path user muuid : List UInt8} (hkey : Plain key)
    (huuid : Plain uuid) (hfilename : filename ≠ [] ∧ space ∉ filename)
    (hpath : path ≠ [] ∧ space ∉ path) (huser : user ≠ [] ∧ space ∉ user)
    (hmuuid : muuid ≠ [] ∧ space ∉ muuid) :
    redisCommand (joined (fileCryptWords key uuid filename path user muuid)) = none ∨
      ∃ filename' path' user' muuid', unescape path = some path' ∧ unescape user = some user' ∧
        unescape muuid = some muuid' ∧
        redisCommand (joined (fileCryptWords key uuid filename path user muuid)) =
          some (fileCryptWords key uuid filename' path' user' muuid') := by
  obtain ⟨h1, h2, h3, h4, h5, h6⟩ := plain_fileCryptLits
  have htokens : ∀ w ∈ fileCryptWords key uuid filename path user muuid, w ≠ [] ∧ space ∉ w := by
    simp only [fileCryptWords, List.mem_cons, List.not_mem_nil, or_false, forall_eq_or_imp, forall_eq]
    exact ⟨⟨h1.1, h1.2.1⟩, ⟨hkey.1, hkey.2.1⟩, ⟨h2.1, h2.2.1⟩, hfilename, ⟨h3.1, h3.2.1⟩, hpath,
      ⟨h4.1, h4.2.1⟩, ⟨huuid.1, huuid.2.1⟩, ⟨h5.1, h5.2.1⟩, huser, ⟨h6.1, h6.2.1⟩, hmuuid⟩
  rw [redisCommand, joined, words_intercalate htokens]
  have hmap : (fileCryptWords key uuid filename path user muuid).mapM unescape =
      (unescape filename).bind fun filename' => (unescape path).bind fun path' =>
        (unescape user).bind fun user' => (unescape muuid).bind fun muuid' =>
          some (fileCryptWords key uuid filename' path' user' muuid') := by
    simp only [fileCryptWords, List.mapM_cons, List.mapM_nil, unescape_of_plain h1,
      unescape_of_plain h2, unescape_of_plain h3, unescape_of_plain h4, unescape_of_plain h5,
      unescape_of_plain h6, unescape_of_plain hkey, unescape_of_plain huuid, Option.bind_eq_bind,
      Option.bind_some, Option.pure_def, Option.bind_assoc]
  rw [hmap]
  cases unescape filename with
  | none => exact Or.inl rfl
  | some filename' =>
    cases unescape path with
    | none => exact Or.inl rfl
    | some path' =>
      cases unescape user with
      | none => exact Or.inl rfl
      | some user' =>
        cases unescape muuid with
        | none => exact Or.inl rfl
        | some muuid' => exact Or.inr ⟨filename', path', user', muuid', rfl, rfl, rfl, rfl⟩

/-! ## The server -/

/-- The fields that `HMSET` of the words sets. -/
theorem serverExec_fileCryptWords (db : RedisDb) (key uuid filename path user muuid : List UInt8) :
    ∃ hash, serverExec db (fileCryptWords key uuid filename path user muuid) =
        Function.update db key hash ∧ hash (CStr.lit "path").bytes = some path ∧
      hash (CStr.lit "user").bytes = some user ∧ hash (CStr.lit "muuid").bytes = some muuid := by
  refine ⟨_, if_pos ⟨rfl, by simp⟩, ?_, ?_, ?_⟩
  · simp [setFields, show (CStr.lit "path").bytes ≠ (CStr.lit "muuid").bytes by decide,
      show (CStr.lit "path").bytes ≠ (CStr.lit "user").bytes by decide,
      show (CStr.lit "path").bytes ≠ (CStr.lit "uuid").bytes by decide]
  · simp [setFields, show (CStr.lit "user").bytes ≠ (CStr.lit "muuid").bytes by decide]
  · simp [setFields]

theorem tokens_serverRun {db : RedisDb} (hdb : Tokens db) (calls : List (EncryptCall XXH64)) :
    Tokens (serverRun lost db calls) := by
  induction calls generalizing db with
  | nil => exact hdb
  | cons c calls ih =>
    refine ih (tokens_serverExec hdb ?_)
    intro w hw
    cases hr : redisCommand c.text with
    | none =>
      rw [hr] at hw
      cases hw
    | some ws =>
      rw [hr] at hw
      exact token_of_redisCommand hr hw

/-! ## Where a hash comes from -/

/-- The call's strings have no spaces and are not empty. -/
structure EncryptCall.IsTokens (c : EncryptCall XXH64) : Prop where
  path : c.path.bytes ≠ [] ∧ space ∉ c.path.bytes
  user : c.user.username.bytes ≠ [] ∧ space ∉ c.user.username.bytes
  muuid : c.muuid.bytes ≠ [] ∧ space ∉ c.muuid.bytes

/-- The hash holds what is left of the call's strings without their escapes. -/
structure Wrote (c : EncryptCall XXH64) (hash : List UInt8 → Option (List UInt8)) : Prop where
  path : (unescape c.path.bytes).isSome = true ∧ hash (CStr.lit "path").bytes = unescape c.path.bytes
  user : hash (CStr.lit "user").bytes = unescape c.user.username.bytes
  muuid : hash (CStr.lit "muuid").bytes = unescape c.muuid.bytes

/-- The text of a call at the server. -/
theorem serverReceive_lost {c : EncryptCall XXH64} (hc : c.IsTokens) (db : RedisDb) :
    serverReceive lost db c.text = db ∨
      ∃ hash, serverReceive lost db c.text = Function.update db c.key hash ∧ Wrote c hash := by
  obtain ⟨filename, hne, hsub, htext⟩ := c.text_eq
  have hspace : space ∉ filename := fun h => hc.path.2 (hsub h)
  rcases redisCommand_fileCrypt c.plain_key (plain_decimal c.uuid.toNat) ⟨hne, hspace⟩ hc.path hc.user
    hc.muuid with hnone | ⟨filename', path', user', muuid', hpath, huser, hmuuid, hsome⟩
  · left
    rw [serverReceive, htext, hnone]
    rfl
  · right
    obtain ⟨hash, hexec, h1, h2, h3⟩ := serverExec_fileCryptWords db c.key
      (decimal c.uuid.toNat).bytes filename' path' user' muuid'
    rw [htext, serverReceive_some hsome]
    refine ⟨hash, hexec, ⟨by rw [hpath]; rfl, ?_⟩, ?_, ?_⟩
    · rw [h1, hpath]
    · rw [h2, huser]
    · rw [h3, hmuuid]

/-- **Every hash comes from a call of the run**, whose key it has. -/
theorem server_source (calls : List (EncryptCall XXH64)) (htokens : ∀ c ∈ calls, c.IsTokens)
    (key : List UInt8) :
    serverRun lost (fun _ _ => none) calls key = (fun _ => none) ∨
      ∃ c ∈ calls, c.key = key ∧ Wrote c (serverRun lost (fun _ _ => none) calls key) := by
  induction calls using List.reverseRecOn with
  | nil => exact Or.inl rfl
  | append_singleton calls c ih =>
    have hrun : serverRun lost (fun _ _ => none) (calls ++ [c]) =
        serverReceive lost (serverRun lost (fun _ _ => none) calls) c.text := by
      rw [serverRun, List.foldl_append]
      rfl
    have hbefore := ih fun c' hc' => htokens c' (List.mem_append_left _ hc')
    have hc := htokens c (List.mem_append_right _ List.mem_cons_self)
    rw [hrun]
    rcases serverReceive_lost hc (serverRun lost (fun _ _ => none) calls) with h | ⟨hash, h, hwrote⟩
    · rw [h]
      rcases hbefore with h0 | ⟨c', hc', hkey, hwrote⟩
      · exact Or.inl h0
      · exact Or.inr ⟨c', List.mem_append_left _ hc', hkey, hwrote⟩
    · rw [h]
      by_cases hkey : key = c.key
      · right
        refine ⟨c, List.mem_append_right _ List.mem_cons_self, hkey.symm, ?_⟩
        rw [hkey, Function.update_self]
        exact hwrote
      · rw [Function.update_of_ne hkey]
        rcases hbefore with h0 | ⟨c', hc', hkey', hwrote'⟩
        · exact Or.inl h0
        · exact Or.inr ⟨c', List.mem_append_left _ hc', hkey', hwrote'⟩

/-- If each of finitely many words is what an escape of one of them leaves, none has a percent. -/
theorem unescape_of_covered {α : Type} (l : List α) (word : α → List UInt8)
    (h : ∀ a ∈ l, ∃ b ∈ l, unescape (word b) = some (word a)) :
    ∀ a ∈ l, unescape (word a) = some (word a) := by
  obtain ⟨bound, hbound⟩ : ∃ bound, ∀ a ∈ l, (word a).length ≤ bound := by
    refine ⟨(l.map fun a => (word a).length).sum, ?_⟩
    intro a ha
    exact List.le_sum_of_mem (List.mem_map_of_mem ha)
  -- from the longest words downwards: a word that was longer before would be one of those above
  have hdown : ∀ n, ∀ a ∈ l, bound ≤ (word a).length + n → unescape (word a) = some (word a) := by
    intro n
    induction n with
    | zero =>
      intro a ha hlen
      obtain ⟨b, hb, hab⟩ := h a ha
      obtain ⟨-, -, hle, heq⟩ := unescape_spec hab
      have hlenb := hbound b hb
      obtain ⟨hword, -⟩ := heq (by omega)
      rw [← hword] at hab
      exact hab
    | succ n ih =>
      intro a ha hlen
      obtain ⟨b, hb, hab⟩ := h a ha
      obtain ⟨-, -, hle, heq⟩ := unescape_spec hab
      by_cases hsame : (word a).length = (word b).length
      · obtain ⟨hword, -⟩ := heq hsame
        rw [← hword] at hab
        exact hab
      · have hself := ih b hb (by omega)
        rw [hab] at hself
        exact absurd (congrArg List.length (Option.some.inj hself)) hsame
  intro a ha
  exact hdown bound a ha (Nat.le_add_left _ _)

/-! ## Verbatim calls -/

/-- The text of the call arrives verbatim. -/
structure EncryptCall.IsPlain (c : EncryptCall XXH64) : Prop where
  path : Plain c.path.bytes
  user : Plain c.user.username.bytes
  muuid : Plain c.muuid.bytes

/-- The text of a plain call sets its record, whatever the server holds. -/
theorem serverReceive_plain {c : EncryptCall XXH64} (hc : c.IsPlain)
    (stray : List UInt8 → List (List UInt8)) (db : RedisDb) :
    ∃ hash, serverReceive stray db c.text = Function.update db c.key hash ∧ HoldsRecord hash c := by
  obtain ⟨filename, hne, hsub, htext⟩ := c.text_eq
  have hfilename : Plain filename :=
    ⟨hne, fun h => hc.path.2.1 (hsub h), fun h => hc.path.2.2 (hsub h)⟩
  have hwords : ∀ w ∈ fileCryptWords c.key (decimal c.uuid.toNat).bytes filename c.path.bytes
      c.user.username.bytes c.muuid.bytes, w ≠ [] ∧ space ∉ w ∧ percent ∉ w := by
    obtain ⟨h1, h2, h3, h4, h5, h6⟩ := plain_fileCryptLits
    simp only [fileCryptWords, List.mem_cons, List.not_mem_nil, or_false, forall_eq_or_imp, forall_eq]
    exact ⟨h1, c.plain_key, h2, hfilename, h3, hc.path, h4, plain_decimal _, h5, hc.user, h6, hc.muuid⟩
  obtain ⟨hash, hexec, h1, h2, h3⟩ := serverExec_fileCryptWords db c.key
    (decimal c.uuid.toNat).bytes filename c.path.bytes c.user.username.bytes c.muuid.bytes
  rw [htext, serverReceive_some ((redisCommand_joined_iff _).2 hwords)]
  exact ⟨hash, hexec, h1, h2, h3⟩

/-- Plain calls leave the hashes at other keys alone. -/
theorem serverRun_other {calls : List (EncryptCall XXH64)} (hplain : ∀ c ∈ calls, c.IsPlain)
    (stray : List UInt8 → List (List UInt8)) (db : RedisDb) {key : List UInt8}
    (hkey : ∀ c ∈ calls, c.key ≠ key) : serverRun stray db calls key = db key := by
  induction calls generalizing db with
  | nil => rfl
  | cons c calls ih =>
    obtain ⟨hash, h, -⟩ := serverReceive_plain (hplain c List.mem_cons_self) stray db
    show serverRun stray (serverReceive stray db c.text) calls key = db key
    rw [h, ih (fun c' hc' => hplain c' (List.mem_cons_of_mem _ hc'))
        _ (fun c' hc' => hkey c' (List.mem_cons_of_mem _ hc')),
      Function.update_of_ne (Ne.symm (hkey c List.mem_cons_self))]

/-- **Plain calls with different keys** leave a record each. -/
theorem holdsRecord_of_plain {calls : List (EncryptCall XXH64)} (hplain : ∀ c ∈ calls, c.IsPlain)
    (hkeys : (calls.map EncryptCall.key).Nodup) (stray : List UInt8 → List (List UInt8)) (db : RedisDb) :
    ∀ c ∈ calls, HoldsRecord (serverRun stray db calls c.key) c := by
  induction calls generalizing db with
  | nil =>
    intro c hc
    cases hc
  | cons c calls ih =>
    have hrest : ∀ c' ∈ calls, c'.IsPlain := fun c' hc' => hplain c' (List.mem_cons_of_mem _ hc')
    obtain ⟨hnew, hkeys⟩ := List.nodup_cons.1 hkeys
    obtain ⟨hash, h, hholds⟩ := serverReceive_plain (hplain c List.mem_cons_self) stray db
    intro c' hc'
    show HoldsRecord (serverRun stray (serverReceive stray db c.text) calls c'.key) c'
    rcases List.mem_cons.1 hc' with rfl | hc'
    · rw [serverRun_other hrest, h, Function.update_self]
      · exact hholds
      · intro c'' hc'' heq
        exact hnew (heq ▸ List.mem_map_of_mem hc'')
    · exact ih hrest hkeys _ c' hc'

theorem EncryptCall.key_eq_iff (c c' : EncryptCall XXH64) : c.key = c'.key ↔ c.uuid = c'.uuid := by
  constructor
  · intro h
    exact UInt64.toNat_inj.1 (decimal_injective (List.append_cancel_left h))
  · intro h
    rw [EncryptCall.key, h, EncryptCall.key]

/-! ## The runs that keep all records -/

/-- In a run that keeps all records every call is plain. -/
theorem isPlain_of_recordsKept {r : EncryptRun XXH64} (h : RecordsKept r) :
    (∀ c ∈ r.calls, c.IsPlain) ∧
      ∀ c ∈ r.calls, ∀ key, HoldsRecord (serverRun lost (fun _ _ => none) r.calls key) c →
        c.key = key := by
  have hkept := h lost fun _ _ => none
  have htokens : ∀ c ∈ r.calls, c.IsTokens := by
    have hdb := @tokens_serverRun _ (fun _ _ => none) (fun _ _ _ h => by cases h) r.calls
    intro c hc
    obtain ⟨key, hpath, huser, hmuuid⟩ := hkept c hc
    exact ⟨hdb _ _ _ hpath, hdb _ _ _ huser, hdb _ _ _ hmuuid⟩
  -- the call whose hash holds the record of `c`
  have hsource : ∀ c ∈ r.calls, ∀ key,
      HoldsRecord (serverRun lost (fun _ _ => none) r.calls key) c →
      ∃ c' ∈ r.calls, c'.key = key ∧ unescape c'.path.bytes = some c.path.bytes ∧
        unescape c'.user.username.bytes = some c.user.username.bytes ∧
        unescape c'.muuid.bytes = some c.muuid.bytes := by
    intro c hc key hholds
    rcases server_source r.calls htokens key with hnone | ⟨c', hc', hkey, hwrote⟩
    · rw [hnone] at hholds
      cases hholds.path
    · exact ⟨c', hc', hkey, hwrote.path.2.symm.trans hholds.path, hwrote.user.symm.trans hholds.user,
        hwrote.muuid.symm.trans hholds.muuid⟩
  have hpaths := unescape_of_covered r.calls (fun c => c.path.bytes) (by
    intro c hc
    obtain ⟨key, hholds⟩ := hkept c hc
    obtain ⟨c', hc', -, hpath, -⟩ := hsource c hc key hholds
    exact ⟨c', hc', hpath⟩)
  -- it is `c` itself, since the paths are different
  have hself : ∀ c ∈ r.calls, ∀ key,
      HoldsRecord (serverRun lost (fun _ _ => none) r.calls key) c →
      c.key = key ∧ unescape c.user.username.bytes = some c.user.username.bytes ∧
        unescape c.muuid.bytes = some c.muuid.bytes := by
    intro c hc key hholds
    obtain ⟨c', hc', hkey, hpath, huser, hmuuid⟩ := hsource c hc key hholds
    have hsame : c'.path = c.path := CStr.ext (Option.some.inj ((hpaths c' hc').symm.trans hpath))
    have heq : c' = c := List.inj_on_of_nodup_map r.paths hc' hc hsame
    subst heq
    exact ⟨hkey, huser, hmuuid⟩
  refine ⟨?_, fun c hc key hholds => (hself c hc key hholds).1⟩
  intro c hc
  obtain ⟨key, hholds⟩ := hkept c hc
  obtain ⟨-, huser, hmuuid⟩ := hself c hc key hholds
  have ht := htokens c hc
  exact ⟨⟨ht.path.1, ht.path.2, (unescape_eq_self_iff _).1 (hpaths c hc)⟩,
    ⟨ht.user.1, ht.user.2, (unescape_eq_self_iff _).1 huser⟩,
    ⟨ht.muuid.1, ht.muuid.2, (unescape_eq_self_iff _).1 hmuuid⟩⟩

/-- In a run that keeps all records no two ciphertexts have one hash. -/
theorem nodup_uuid_of_recordsKept {r : EncryptRun XXH64} (h : RecordsKept r) :
    (r.calls.map EncryptCall.uuid).Nodup := by
  obtain ⟨-, hkey⟩ := isPlain_of_recordsKept h
  refine List.Nodup.map_on ?_ (List.Nodup.of_map _ r.paths)
  intro c hc c' hc' huuid
  obtain ⟨key, hholds⟩ := h lost (fun _ _ => none) c hc
  obtain ⟨key', hholds'⟩ := h lost (fun _ _ => none) c' hc'
  -- one hash holds the paths of both calls
  have hsame : key = key' := by
    rw [← hkey c hc key hholds, ← hkey c' hc' key' hholds', EncryptCall.key_eq_iff, huuid]
  subst hsame
  have hpath : c.path = c'.path := CStr.ext (Option.some.inj (hholds.path.symm.trans hholds'.path))
  exact List.inj_on_of_nodup_map r.paths hc hc' hpath

/-- **No record is lost in Redis** exactly if the path, the user name and the uuid of the node arrive
    verbatim in every call, and no two calls have ciphertexts with one hash. -/
theorem records_kept_iff (r : EncryptRun XXH64) :
    RecordsKept r ↔ (∀ c ∈ r.calls, c.IsPlain) ∧ (r.calls.map EncryptCall.uuid).Nodup := by
  constructor
  · intro h
    exact ⟨(isPlain_of_recordsKept h).1, nodup_uuid_of_recordsKept h⟩
  · rintro ⟨hplain, huuids⟩ stray db c hc
    have hkeys : (r.calls.map EncryptCall.key).Nodup := by
      refine List.Nodup.map_on ?_ (List.Nodup.of_map _ r.paths)
      intro c hc c' hc' hkey
      exact List.inj_on_of_nodup_map huuids hc hc' ((c.key_eq_iff c').1 hkey)
    exact ⟨c.key, holdsRecord_of_plain hplain hkeys stray db c hc⟩

/-- Bob encrypts two empty files, `a` and `b`: one of the records is lost. -/
theorem records_lost :
    ∃ r : EncryptRun lengthHash, r.calls.map EncryptCall.path = [.lit "a", .lit "b"] ∧ ¬ RecordsKept r := by
  obtain ⟨wa, ha⟩ := exists_encrypts_sample (.lit "a") firstByte (by decide) (by decide)
  obtain ⟨wb, hb⟩ := exists_encrypts_sample (.lit "b") firstByte (by decide) (by decide)
  refine ⟨⟨[⟨_, _, _, _, wa, userSample, rfl, ha⟩, ⟨_, _, _, _, wb, userSample, rfl, hb⟩], ?_⟩, rfl, ?_⟩
  · show [CStr.lit "a", CStr.lit "b"].Nodup
    decide
  · intro h
    -- the two files have one content, and so one ciphertext
    have hnodup := nodup_uuid_of_recordsKept h
    simp [EncryptCall.uuid, worldSample] at hnodup

end Rkx
