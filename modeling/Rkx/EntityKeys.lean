import Rkx.RedisFormat
import Rkx.User

/-!
# Keys of nodes, users and files in Redis (`net.c`)

The templates of `acs` write the keys `node:<uuid>`, `node:<uuid>:user:<name>` and `fileuuid:<uuid>`.
The uuid of a node has no colon; the name of a user is the last part of a key and may have some.

* `Entity`, `EntityCommand`: what a hash is about, and the commands that have a key of it;
* `EntityCommand.words_text`: the key is the second word of the text;
* `key_injective`: the key tells the entity;
* `identifies_iff`: the commands whose `HMSET` changes no hash but that of their entity; since
  `redisCommand` takes the text as a format, a percent can lead to the key of another one.
-/

set_option autoImplicit false

namespace Rkx

open Lib.CString Lib.Words

def colon : UInt8 := 58

/-! ## Entities -/

inductive Entity where
  | node (uuid : CStr)
  | user (muuid name : CStr)
  | file (uuid : UInt64)
  deriving DecidableEq

namespace Entity

/-- Its key, as the templates write it. -/
def key : Entity → List UInt8
  | .node uuid => vsnprintf (CStr.lit "node:%s").bytes [.s uuid]
  | .user muuid name => vsnprintf (CStr.lit "node:%s:user:%s").bytes [.s muuid, .s name]
  | .file uuid => vsnprintf (CStr.lit "fileuuid:%lu").bytes [.num uuid.toNat]

/-- The uuid of a node is a machine id or the fallback, without colons and spaces; the name of a user
    is without spaces. -/
def Valid : Entity → Prop
  | .node uuid => colon ∉ uuid.bytes ∧ space ∉ uuid.bytes
  | .user muuid name => (colon ∉ muuid.bytes ∧ space ∉ muuid.bytes) ∧ space ∉ name.bytes
  | .file _ => True

theorem key_node (uuid : CStr) : (node uuid).key = (CStr.lit "node:").bytes ++ uuid.bytes := by
  show (CStr.lit "node:").bytes ++ (uuid.bytes ++ []) = _
  rw [List.append_nil]

theorem key_user (muuid name : CStr) :
    (user muuid name).key = (CStr.lit "node:").bytes ++ (muuid.bytes ++ ((CStr.lit ":user:").bytes ++ name.bytes)) := by
  show (CStr.lit "node:").bytes ++ (muuid.bytes ++ ((CStr.lit ":user:").bytes ++ (name.bytes ++ []))) = _
  rw [List.append_nil]

theorem key_file (uuid : UInt64) :
    (file uuid).key = (CStr.lit "fileuuid:").bytes ++ (decimal uuid.toNat).bytes := by
  show (CStr.lit "fileuuid:").bytes ++ ((decimal uuid.toNat).bytes ++ []) = _
  rw [List.append_nil]

/-- A uuid without a colon ends at the first one. -/
theorem append_user_inj {u u' v v' : List UInt8} (hu : colon ∉ u) (hu' : colon ∉ u')
    (h : u ++ ((CStr.lit ":user:").bytes ++ v) = u' ++ ((CStr.lit ":user:").bytes ++ v')) : u = u' ∧ v = v' := by
  have hsplit : ∀ {w x : List UInt8}, colon ∉ w →
      (w ++ ((CStr.lit ":user:").bytes ++ x)).takeWhile (· ≠ colon) = w := by
    intro w x hw
    have hstop : ((CStr.lit ":user:").bytes ++ x).takeWhile (· ≠ colon) = [] := rfl
    rw [List.takeWhile_append_of_pos, hstop, List.append_nil]
    intro a ha
    have hne : a ≠ colon := ne_of_mem_of_not_mem ha hw
    simpa using hne
  have huu : u = u' := by rw [← hsplit hu, h, hsplit hu']
  subst huu
  exact ⟨rfl, List.append_cancel_left (List.append_cancel_left h)⟩

theorem key_node_ne_user {uuid muuid name : CStr} (huuid : colon ∉ uuid.bytes) :
    (node uuid).key ≠ (user muuid name).key := by
  intro h
  rw [key_node, key_user] at h
  rw [List.append_cancel_left h] at huuid
  exact huuid (List.mem_append_right _ List.mem_cons_self)

theorem node_ne_fileuuid (v w : List UInt8) : (CStr.lit "node:").bytes ++ v ≠ (CStr.lit "fileuuid:").bytes ++ w := by
  intro h
  have hhead : some (110 : UInt8) = some 102 := congrArg List.head? h
  exact absurd hhead (by decide)

/-- A machine id of hexadecimal digits, or the fallback, is the uuid of a node. -/
theorem valid_sysuuid {machineId : Option (List UInt8)}
    (h : ∀ content, machineId = some content → ∀ b ∈ content, (hexDigitVal b).isSome = true) :
    (node (sysuuid machineId)).Valid := by
  have hfallback : (node unknow).Valid := ⟨by decide, by decide⟩
  cases machineId with
  | none => exact hfallback
  | some content =>
    unfold sysuuid
    dsimp only
    split
    · exact hfallback
    · have hdigit : ∀ b ∈ (CStr.ofMem (content.take 32)).bytes, (hexDigitVal b).isSome = true := by
        intro b hb
        exact h content rfl b (List.mem_of_mem_take ((List.takeWhile_sublist _).subset hb))
      exact ⟨fun hcolon => absurd (hdigit _ hcolon) (by decide), fun hspace => absurd (hdigit _ hspace) (by decide)⟩

/-- **The key tells the entity.** -/
theorem key_injective {e e' : Entity} (he : e.Valid) (he' : e'.Valid) (h : e.key = e'.key) : e = e' := by
  cases e with
  | node uuid =>
    cases e' with
    | node uuid' =>
      rw [key_node, key_node] at h
      rw [CStr.ext (List.append_cancel_left h)]
    | user muuid' name' => exact absurd h (key_node_ne_user he.1)
    | file uuid' =>
      rw [key_node, key_file] at h
      exact absurd h (node_ne_fileuuid _ _)
  | user muuid name =>
    cases e' with
    | node uuid' => exact absurd h.symm (key_node_ne_user he'.1)
    | user muuid' name' =>
      rw [key_user, key_user] at h
      obtain ⟨hmuuid, hname⟩ := append_user_inj he.1.1 he'.1.1 (List.append_cancel_left h)
      rw [CStr.ext hmuuid, CStr.ext hname]
    | file uuid' =>
      rw [key_user, key_file] at h
      exact absurd h (node_ne_fileuuid _ _)
  | file uuid =>
    cases e' with
    | node uuid' =>
      rw [key_file, key_node] at h
      exact absurd h.symm (node_ne_fileuuid _ _)
    | user muuid' name' =>
      rw [key_file, key_user] at h
      exact absurd h.symm (node_ne_fileuuid _ _)
    | file uuid' =>
      rw [key_file, key_file] at h
      rw [UInt64.toNat_inj.1 (decimal_injective (List.append_cancel_left h))]

theorem key_ne_nil (e : Entity) : e.key ≠ [] := by
  cases e with
  | node uuid => rw [key_node]; exact List.append_ne_nil_of_left_ne_nil (by decide) _
  | user muuid name => rw [key_user]; exact List.append_ne_nil_of_left_ne_nil (by decide) _
  | file uuid => rw [key_file]; exact List.append_ne_nil_of_left_ne_nil (by decide) _

theorem Valid.space_notMem_key {e : Entity} (he : e.Valid) : space ∉ e.key := by
  have hnode : space ∉ (CStr.lit "node:").bytes := by decide
  have huser : space ∉ (CStr.lit ":user:").bytes := by decide
  have hfile : space ∉ (CStr.lit "fileuuid:").bytes := by decide
  cases e with
  | node uuid => simp [key_node, hnode, he.2]
  | user muuid name => simp [key_user, hnode, huser, he.1.2, he.2]
  | file uuid => simp [key_file, hfile, (plain_decimal uuid.toNat).2.1]

end Entity

/-! ## Commands -/

/-- The commands that have the key of an entity, with what the program sends in them. -/
inductive EntityCommand where
  | NODE_SET (uuid ip mac : CStr)
  | USER_REG (muuid username pwd : CStr) (isonline : Nat)
  | USER_LOGIN (muuid username : CStr) (isonline : Nat)
  | USER_GET (muuid username : CStr)
  | FILE_CRYPT (uuid : UInt64) (fname fullname username muuid : CStr)

namespace EntityCommand

def action : EntityCommand → Action
  | .NODE_SET .. => ⟨.NODE_SET, .lit "HMSET node:%s uuid %s ip %s mac %s"⟩
  | .USER_REG .. => ⟨.USER_REG, .lit "HMSET node:%s:user:%s username %s password %s isonline %d"⟩
  | .USER_LOGIN .. => ⟨.USER_LOGIN, .lit "HMSET node:%s:user:%s isonline %d"⟩
  | .USER_GET .. => ⟨.USER_GET, .lit "HGETALL node:%s:user:%s"⟩
  | .FILE_CRYPT .. =>
    ⟨.FILE_CRYPT, .lit "HMSET fileuuid:%lu filename %s path %s uuid %lu user %s muuid %s"⟩

def args : EntityCommand → List FmtArg
  | .NODE_SET uuid ip mac => [.s uuid, .s uuid, .s ip, .s mac]
  | .USER_REG muuid username pwd isonline => [.s muuid, .s username, .s username, .s pwd, .num isonline]
  | .USER_LOGIN muuid username isonline => [.s muuid, .s username, .num isonline]
  | .USER_GET muuid username => [.s muuid, .s username]
  | .FILE_CRYPT uuid fname fullname username muuid =>
    [.num uuid.toNat, .s fname, .s fullname, .num uuid.toNat, .s username, .s muuid]

def entity : EntityCommand → Entity
  | .NODE_SET uuid _ _ => .node uuid
  | .USER_REG muuid username _ _ => .user muuid username
  | .USER_LOGIN muuid username _ => .user muuid username
  | .USER_GET muuid username => .user muuid username
  | .FILE_CRYPT uuid _ _ _ _ => .file uuid

/-- The text that `kx_sync_send_cmd` makes of the template. -/
def text (c : EntityCommand) : List UInt8 := vsnprintf c.action.cmdline.bytes c.args

/-- The key of the text, which is its second word. -/
def key (c : EntityCommand) : List UInt8 := (words (· == space) c.text)[1]?.getD []

/-- The first word of the template. -/
def cmd (c : EntityCommand) : List UInt8 :=
  (c.action.cmdline.bytes.takeWhile (· ≠ space))

/-- What follows the key in the text. -/
def tail : EntityCommand → List UInt8
  | .NODE_SET uuid ip mac => vsnprintf (CStr.lit " uuid %s ip %s mac %s").bytes [.s uuid, .s ip, .s mac]
  | .USER_REG _ username pwd isonline =>
    vsnprintf (CStr.lit " username %s password %s isonline %d").bytes [.s username, .s pwd, .num isonline]
  | .USER_LOGIN _ _ isonline => vsnprintf (CStr.lit " isonline %d").bytes [.num isonline]
  | .USER_GET _ _ => []
  | .FILE_CRYPT uuid fname fullname username muuid =>
    vsnprintf (CStr.lit " filename %s path %s uuid %lu user %s muuid %s").bytes
      [.s fname, .s fullname, .num uuid.toNat, .s username, .s muuid]

theorem action_mem (c : EntityCommand) : c.action ∈ acs := by
  cases c <;> simp [action, acs]

theorem text_eq (c : EntityCommand) : c.text = c.cmd ++ space :: (c.entity.key ++ c.tail) := by
  cases c
  all_goals
    simp only [entity, Entity.key_node, Entity.key_user, Entity.key_file, List.append_assoc]
    rfl

theorem plain_cmd (c : EntityCommand) : Plain c.cmd := by
  have hcmd : c.cmd = (CStr.lit "HMSET").bytes ∨ c.cmd = (CStr.lit "HGETALL").bytes := by
    cases c
    case USER_GET => exact Or.inr rfl
    all_goals exact Or.inl rfl
  rcases hcmd with h | h <;> rw [h] <;> decide

theorem head?_tail (c : EntityCommand) : ∀ a ∈ c.tail.head?, (a == space) = true := by
  intro a ha
  cases c
  case USER_GET => cases ha
  all_goals
    cases ha
    rfl

/-- **The key is the second word of the text.** -/
theorem words_text {c : EntityCommand} (hc : c.entity.Valid) :
    words (· == space) c.text = c.cmd :: c.entity.key :: words (· == space) c.tail := by
  have hword : ∀ {w : List UInt8}, space ∉ w → ∀ a ∈ w, (a == space) = false := by
    intro w hw a ha
    exact beq_false_of_ne (ne_of_mem_of_not_mem ha hw)
  obtain ⟨hne, hspace, -⟩ := c.plain_cmd
  rw [text_eq, words_append_cons (p := (· == space)) rfl, words_eq_singleton (hword hspace) hne,
    words_run_append (hword hc.space_notMem_key) c.entity.key_ne_nil c.head?_tail]
  rfl

theorem key_eq {c : EntityCommand} (hc : c.entity.Valid) : c.key = c.entity.key := by
  rw [key, words_text hc]
  rfl

/-- What arrives of a command. -/
theorem redisCommand_text {c : EntityCommand} (hc : c.entity.Valid) :
    redisCommand c.text =
      (unescape c.entity.key).bind fun key => (redisCommand c.tail).map fun rest => c.cmd :: key :: rest := by
  rw [redisCommand, words_text hc, List.mapM_cons, List.mapM_cons, unescape_of_plain c.plain_cmd]
  cases unescape c.entity.key <;> cases h : redisCommand c.tail <;> rw [redisCommand] at h <;> simp [h]

end EntityCommand

/-! ## What is left of a key -/

theorem unescape_append_of_notMem {w : List UInt8} (hw : percent ∉ w) (v : List UInt8) :
    unescape (w ++ v) = (unescape v).map (w ++ ·) := by
  induction w with
  | nil => exact Option.map_id'.symm
  | cons b w ih =>
    rw [List.mem_cons, not_or] at hw
    rw [List.cons_append, unescape_cons (Ne.symm hw.1), ih hw.2, Option.map_map]
    rfl

/-- A byte that is no percent is between what is left on its two sides. -/
theorem unescape_append_cons {b : UInt8} (hb : b ≠ percent) (u v : List UInt8) :
    unescape (u ++ b :: v) = (unescape u).bind fun u' => (unescape v).map fun v' => u' ++ b :: v' := by
  induction u using unescape.induct with
  | case1 => exact unescape_cons hb v
  | case2 rest ih =>
    simp only [List.cons_append, unescape, if_true, ih]
    cases unescape rest <;> cases unescape v <;> rfl
  | case3 c rest hc => simp [unescape, hc]
  | case4 => simp [unescape, hb]
  | case5 a rest ha ih =>
    rw [List.cons_append, unescape_cons ha, unescape_cons ha, ih]
    cases unescape rest <;> cases unescape v <;> rfl

/-- The string that is left of a string. -/
theorem exists_unescaped {s : CStr} {w : List UInt8} (h : unescape s.bytes = some w) :
    ∃ t : CStr, t.bytes = w ∧ t.bytes ⊆ s.bytes := by
  obtain ⟨hsub, -⟩ := unescape_spec h
  exact ⟨⟨w, fun h0 => s.noNul (hsub h0)⟩, rfl, hsub⟩

/-- **What is left of a key** is the key of an entity, of another one if the key has a percent. -/
theorem Entity.exists_unescaped_key {e : Entity} (he : e.Valid) {k : List UInt8} (hk : unescape e.key = some k) :
    ∃ e' : Entity, e'.Valid ∧ e'.key = k ∧ (percent ∈ e.key → e' ≠ e) := by
  suffices hex : ∃ e' : Entity, e'.Valid ∧ e'.key = k by
    obtain ⟨e', hvalid, hkey⟩ := hex
    refine ⟨e', hvalid, hkey, ?_⟩
    rintro hp rfl
    rw [← hkey] at hk
    exact (unescape_eq_self_iff _).1 hk hp
  have hnode : percent ∉ (CStr.lit "node:").bytes := by decide
  have huser : percent ∉ (CStr.lit "user:").bytes := by decide
  cases e with
  | node uuid =>
    rw [key_node, unescape_append_of_notMem hnode] at hk
    obtain ⟨w, hw, rfl⟩ := Option.map_eq_some_iff.1 hk
    obtain ⟨uuid', rfl, hsub⟩ := exists_unescaped hw
    exact ⟨.node uuid', ⟨fun h => he.1 (hsub h), fun h => he.2 (hsub h)⟩, key_node uuid'⟩
  | user muuid name =>
    have hcolon : (CStr.lit ":user:").bytes ++ name.bytes = colon :: ((CStr.lit "user:").bytes ++ name.bytes) := rfl
    rw [key_user, hcolon, unescape_append_of_notMem hnode, unescape_append_cons (by decide),
      unescape_append_of_notMem huser] at hk
    obtain ⟨w, hw, rfl⟩ := Option.map_eq_some_iff.1 hk
    obtain ⟨u, hu, hrest⟩ := Option.bind_eq_some_iff.1 hw
    obtain ⟨x, hx, rfl⟩ := Option.map_eq_some_iff.1 hrest
    obtain ⟨v, hv, rfl⟩ := Option.map_eq_some_iff.1 hx
    obtain ⟨muuid', rfl, hsub⟩ := exists_unescaped hu
    obtain ⟨name', rfl, hsub'⟩ := exists_unescaped hv
    refine ⟨.user muuid' name', ⟨⟨fun h => he.1.1 (hsub h), fun h => he.1.2 (hsub h)⟩, fun h => he.2 (hsub' h)⟩, ?_⟩
    rw [key_user]
    rfl
  | file uuid =>
    have hplain : percent ∉ (file uuid).key := by
      rw [key_file, List.mem_append, not_or]
      exact ⟨by decide, (plain_decimal _).2.2⟩
    rw [(unescape_eq_self_iff _).2 hplain] at hk
    exact ⟨.file uuid, trivial, Option.some.inj hk⟩

/-! ## The server -/

/-- A command leaves the hashes at other keys alone. -/
theorem serverExec_of_ne {db : RedisDb} {cmd k key : List UInt8} {rest : List (List UInt8)} (h : key ≠ k) :
    serverExec db (cmd :: k :: rest) key = db key := by
  rcases rest with _ | ⟨field, _ | ⟨value, rest⟩⟩
  · rfl
  · rfl
  · rw [serverExec]
    split
    · rw [Function.update_of_ne h]
    · rfl

/-- The server refuses a field without a value. -/
theorem serverExec_of_odd {db : RedisDb} {cmd k : List UInt8} {rest : List (List UInt8)}
    (h : rest.length % 2 = 1) : serverExec db (cmd :: k :: rest) = db := by
  rcases rest with _ | ⟨field, _ | ⟨value, rest⟩⟩
  · rfl
  · rfl
  · simp only [List.length_cons] at h
    exact if_neg fun hset => by omega

/-- A field that has a value keeps one. -/
theorem setFields_isSome {hash : List UInt8 → Option (List UInt8)} {pairs : List (List UInt8)}
    {field : List UInt8} (h : (hash field).isSome = true) : (setFields hash pairs field).isSome = true := by
  induction hash, pairs using setFields.induct with
  | case1 hash f v rest ih =>
    rw [setFields]
    apply ih
    by_cases hf : field = f
    · rw [hf, Function.update_self]
      rfl
    · rwa [Function.update_of_ne hf]
  | case2 hash pairs hpairs =>
    rwa [setFields]
    exact hpairs

/-- `HMSET` with fields and values changes the hash at its key, unless it was not empty. -/
theorem serverExec_ne {db : RedisDb} {k : List UInt8} {rest : List (List UInt8)} (hdb : db k = fun _ => none)
    (hne : rest ≠ []) (heven : rest.length % 2 = 0) :
    serverExec db ((CStr.lit "HMSET").bytes :: k :: rest) k ≠ db k := by
  rcases rest with _ | ⟨field, _ | ⟨value, rest⟩⟩
  · exact absurd rfl hne
  · exact absurd heven Nat.one_ne_zero
  · simp only [List.length_cons] at heven
    have hset : (setFields (db k) (field :: value :: rest) field).isSome = true := by
      rw [setFields]
      apply setFields_isSome
      rw [Function.update_self]
      rfl
    intro hsame
    rw [serverExec, if_pos ⟨rfl, by omega⟩, Function.update_self] at hsame
    rw [hsame, hdb] at hset
    cases hset

theorem mapM_isSome_iff {α β : Type} {f : α → Option β} {l : List α} :
    (l.mapM f).isSome = true ↔ ∀ a ∈ l, (f a).isSome = true := by
  induction l with
  | nil => simp
  | cons a l ih =>
    rw [List.forall_mem_cons, ← ih, List.mapM_cons]
    cases f a <;> cases l.mapM f <;> simp

/-! ## What identifies an entity -/

namespace EntityCommand

/-- The key of the command is a key of its entity alone, and if the command is an `HMSET` then it changes
    no hash of another one, whatever the server holds and whatever arrives of a text with conversions. -/
structure Identifies (c : EntityCommand) : Prop where
  key : ∀ c' : EntityCommand, c'.entity.Valid → c'.key = c.key → c'.entity = c.entity
  hash : c.cmd = (CStr.lit "HMSET").bytes → ∀ (alloc : Bool) (text : CStr) (stray : List UInt8 → List (List UInt8))
    (db : RedisDb) (e : Entity), e.Valid → e ≠ c.entity →
    kxSyncSendCmd alloc c.action.type c.args = .ok (some text) → serverReceive stray db text.bytes e.key = db e.key

/-- Every percent of the text is one of a pair. -/
def Escaped (c : EntityCommand) : Prop := ∀ w ∈ words (· == space) c.text, (unescape w).isSome = true

/-- The strings have spaces, or are empty, so that one of the fields has no value. -/
def Refused (c : EntityCommand) : Prop := (words (· == space) c.tail).length % 2 = 1

variable {c : EntityCommand}

theorem arrives (hc : c.entity.Valid) (h : c.Escaped) :
    ∃ key rest, unescape c.entity.key = some key ∧ redisCommand c.text = some (c.cmd :: key :: rest) ∧
      rest.length = (words (· == space) c.tail).length := by
  have hsome := mapM_isSome_iff.2 h
  change (redisCommand c.text).isSome = true at hsome
  obtain ⟨ws, hws⟩ := Option.isSome_iff_exists.1 hsome
  have htext := redisCommand_text hc
  rw [hws] at htext
  obtain ⟨key, hkey, htail⟩ := Option.bind_eq_some_iff.1 htext.symm
  obtain ⟨rest, hrest, rfl⟩ := Option.map_eq_some_iff.1 htail
  exact ⟨key, rest, hkey, hws, (mapM_eq_some_iff.1 hrest).length_eq.symm⟩

/-- Behind the key of an `HMSET` there are words. -/
theorem words_tail_ne_nil (h : c.cmd = (CStr.lit "HMSET").bytes) : words (· == space) c.tail ≠ [] := by
  have hmem : ∃ b ∈ c.tail, (b == space) = false := by
    cases c
    case USER_GET =>
      have hget : (CStr.lit "HGETALL").bytes = (CStr.lit "HMSET").bytes := h
      exact absurd hget (by decide)
    all_goals exact ⟨_, List.mem_cons_of_mem _ List.mem_cons_self, rfl⟩
  obtain ⟨b, hb⟩ := hmem
  obtain ⟨w, hw, -⟩ := (mem_words (p := (· == space)) c.tail).2 hb
  exact List.ne_nil_of_mem hw

theorem exists_other (e : Entity) : ∃ e' : Entity, e'.Valid ∧ e' ≠ e := by
  by_cases h : e = .file 0
  · exact ⟨.file 1, trivial, by rw [h]; decide⟩
  · exact ⟨.file 0, trivial, Ne.symm h⟩

/-- **A command identifies its entity**, exactly if it is no `HMSET` or every percent in it is one of a
    pair and there is none in the key; unless the server refuses it. -/
theorem identifies_iff (hc : c.entity.Valid) :
    c.Identifies ↔
      (c.cmd = (CStr.lit "HMSET").bytes → c.Escaped ∧ (percent ∉ c.entity.key ∨ c.Refused)) := by
  obtain ⟨sent, hsend, hsent⟩ := kxSyncSendCmd_eq c.action_mem c.args
  constructor
  · intro h hset
    have hother : ∀ stray db e, e.Valid → e ≠ c.entity → serverReceive stray db c.text e.key = db e.key := by
      intro stray db e he hne
      rw [text, ← hsent]
      exact h.hash hset true sent stray db e he hne hsend
    have hescaped : c.Escaped := by
      by_contra hnot
      have hnone : redisCommand c.text = none := by
        rw [← Option.not_isSome_iff_eq_none]
        exact fun hsome => hnot (mapM_isSome_iff.1 hsome)
      -- anything may arrive, also an `HMSET` of another entity
      obtain ⟨e, he, hne⟩ := exists_other c.entity
      have hsame := hother (fun _ => [(CStr.lit "HMSET").bytes, e.key, [], []]) (fun _ _ => none) e he hne
      rw [serverReceive, hnone, Option.getD_none] at hsame
      exact serverExec_ne rfl (List.cons_ne_nil _ _) rfl hsame
    refine ⟨hescaped, ?_⟩
    by_contra hnot
    rw [not_or, not_not] at hnot
    obtain ⟨hpercent, heven⟩ := hnot
    obtain ⟨key, rest, hkey, hws, hlen⟩ := arrives hc hescaped
    obtain ⟨e, he, hekey, hne⟩ := Entity.exists_unescaped_key hc hkey
    have hsame := hother lost (fun _ _ => none) e he (hne hpercent)
    rw [serverReceive_some hws, hset, hekey] at hsame
    refine serverExec_ne rfl ?_ ?_ hsame
    · rw [← List.length_pos_iff, hlen, List.length_pos_iff]
      exact words_tail_ne_nil hset
    · rw [hlen]
      exact (Nat.mod_two_eq_zero_or_one _).resolve_right heven
  · intro h
    constructor
    case key =>
      intro c' hc' hkey
      rw [key_eq hc, key_eq hc'] at hkey
      exact Entity.key_injective hc' hc hkey
    case hash =>
      intro hset alloc sent' stray db e he hne hok
      obtain ⟨hescaped, hplain⟩ := h hset
      obtain ⟨-, t, hst, ht⟩ := kxSyncSendCmd_ok c.action_mem hok
      cases hst
      obtain ⟨key, rest, hkey, hws, hlen⟩ := arrives hc hescaped
      rw [ht, ← text, serverReceive_some hws]
      rcases hplain with hplain | hodd
      · rw [(unescape_eq_self_iff _).2 hplain] at hkey
        cases hkey
        exact serverExec_of_ne fun heq => hne (Entity.key_injective he hc heq)
      · rw [serverExec_of_odd (hlen ▸ hodd)]

/-- The registration of a user on the machine `m1`. -/
def registration (username : String) : EntityCommand := .USER_REG (.lit "m1") (.lit username) (.lit "pw") 1

/-- The registration of `a%%` sets the fields of the user `a%`. -/
theorem registration_percent :
    (registration "a%%").entity.Valid ∧ ¬ (registration "a%%").Identifies ∧
      serverReceive lost (fun _ _ => none) (registration "a%%").text
        (Entity.user (.lit "m1") (.lit "a%")).key (CStr.lit "username").bytes = some (CStr.lit "a%").bytes := by
  have hset : serverReceive lost (fun _ _ => none) (registration "a%%").text
      (Entity.user (.lit "m1") (.lit "a%")).key (CStr.lit "username").bytes = some (CStr.lit "a%").bytes := by
    decide +kernel
  refine ⟨⟨by decide, by decide⟩, ?_, hset⟩
  intro h
  obtain ⟨sent, hsend, hsent⟩ := kxSyncSendCmd_eq (registration "a%%").action_mem (registration "a%%").args
  have hsame := h.hash rfl true sent lost (fun _ _ => none) (.user (.lit "m1") (.lit "a%"))
    ⟨by decide, by decide⟩ (by decide) hsend
  rw [hsent, ← text] at hsame
  rw [hsame] at hset
  cases hset

theorem registration_bob : (registration "bob").Identifies := by
  refine (identifies_iff (c := registration "bob") ⟨by decide, by decide⟩).2 fun _ => ⟨?_, Or.inl (by decide)⟩
  unfold Escaped
  decide +kernel

end EntityCommand

end Rkx
