import Rkx.Db
import Rkx.User

/-!
# The strings of the records

A field of `size` bytes receives the first `size - 1` bytes of a string.  Whether it reads back as them
depends on its last byte, which is not written, and on what is written behind it: the terminator that
was meant for the field goes to the first byte of the next.

* `EndsAt`: the string is padded, or a NUL is where the field ends;
* `user_strings_iff`, `node_strings_iff`, `db_strings_iff`: the records whose strings are faithful.
-/

set_option autoImplicit false

namespace Rkx

open Lib.CString Lib.Stdio

/-- What is copied of the string, at most `n` bytes, ends there: the string is padded, or the byte
    `last` behind is a NUL. -/
def EndsAt (n : Nat) (last : UInt8) (s : CStr) : Prop := s.strlen < n ∨ last = 0

instance (n : Nat) (last : UInt8) (s : CStr) : Decidable (EndsAt n last s) := inferInstanceAs (Decidable (_ ∨ _))

/-! ## Users -/

/-- The two strings of a user record. -/
structure UserStrings (user : KxUser) (name pwd : CStr) : Prop where
  username : user.username = name.take 31
  pwd : user.pwd = pwd.take 31

section User

variable (heap : UserHeap) (node : KxNode) (name pwd : CStr)

theorem username_take_iff :
    (kxCreatUser heap node name pwd).username = name.take 31 ↔ EndsAt 31 (heap.user.get 31) name := by
  show CStr.ofMem (fillUser heap.user.toList name pwd) = name.take 31 ↔ _
  rw [fillUser_eq]
  exact ofMem_strncpyBytes_take_iff

theorem pwd_take_iff :
    (kxCreatUser heap node name pwd).pwd = pwd.take 31 ↔ EndsAt 31 (heap.user.get 63) pwd := by
  show CStr.ofMem ((fillUser heap.user.toList name pwd).drop KxUser.pwdOff) = pwd.take 31 ↔ _
  rw [drop_fillUser]
  exact ofMem_strncpyBytes_take_iff

/-- **The strings of a user are faithful** exactly if each is shorter than its copy, or the byte that
    is not written behind the copy is 0. -/
theorem user_strings_iff :
    UserStrings (kxCreatUser heap node name pwd) name pwd ↔
      EndsAt 31 (heap.user.get 31) name ∧ EndsAt 31 (heap.user.get 63) pwd := by
  rw [← username_take_iff heap node name pwd, ← pwd_take_iff heap node name pwd]
  constructor
  · rintro ⟨hname, hpwd⟩
    exact ⟨hname, hpwd⟩
  · rintro ⟨hname, hpwd⟩
    exact ⟨hname, hpwd⟩

end User

/-- Memory that was filled with one byte. -/
def UserHeap.filled (b : UInt8) : UserHeap := ⟨Vector.replicate 101 b, fun _ => b⟩

/-- A user with a name of 31 characters. -/
def longUser : KxUser :=
  kxCreatUser (.filled 88) (kxCreatNode (Vector.replicate 68 0) none none (some [49]))
    (.lit "abcdefghijklmnopqrstuvwxyz01234") (.lit "secret")

/-- The name is read on over what the memory held before into the password. -/
theorem username_reads_password :
    ¬ UserStrings longUser (.lit "abcdefghijklmnopqrstuvwxyz01234") (.lit "secret") ∧
      longUser.username = .lit "abcdefghijklmnopqrstuvwxyz01234Xsecret" := by
  refine ⟨?_, by decide +kernel⟩
  intro h
  exact absurd ((username_take_iff _ _ _ _).1 h.username) (by decide)

/-! ## The node -/

/-- An element that the loop of `kx_get_ipaddr` passes over. -/
def Ifaddr.skipped : Ifaddr → Bool
  | .other => true
  | .inet none => false
  | .inet (some host) => isLoopback host

/-- The first IPv4 address of the list that does not start with `127.`, or `unknow` if there is none, or
    a name is not resolved before it. -/
def firstAddress (l : List Ifaddr) : CStr :=
  match (l.dropWhile Ifaddr.skipped).head? with
  | some (.inet (some host)) => host
  | _ => unknow

/-- The address that belongs into the record. -/
def nodeIp (ifaddrs : Option (List Ifaddr)) : CStr := ifaddrs.elim unknow firstAddress

/-- **The loop finds the first address.** -/
theorem firstIp_eq : ∀ l : List Ifaddr, firstIp l = firstAddress l
  | [] => rfl
  | .other :: rest => firstIp_eq rest
  | .inet none :: _ => rfl
  | .inet (some host) :: rest => by
    cases hhost : isLoopback host with
    | true =>
      have hskip : Ifaddr.skipped (.inet (some host)) = true := hhost
      rw [firstIp, hhost, if_pos rfl, firstIp_eq rest, firstAddress, firstAddress,
        List.dropWhile_cons_of_pos hskip]
    | false =>
      have hstop : ¬ Ifaddr.skipped (.inet (some host)) = true := by
        rw [Ifaddr.skipped, hhost]
        exact Bool.false_ne_true
      rw [firstIp, hhost, if_neg Bool.false_ne_true, firstAddress, List.dropWhile_cons_of_neg hstop]
      rfl

/-- Addresses in dotted decimal have up to 15 characters. -/
def ShortHosts (ifaddrs : Option (List Ifaddr)) : Prop :=
  ∀ host, .inet (some host) ∈ ifaddrs.getD [] → host.strlen ≤ 15

theorem strlen_nodeIp {ifaddrs : Option (List Ifaddr)} (h : ShortHosts ifaddrs) :
    (nodeIp ifaddrs).strlen ≤ 15 := by
  cases ifaddrs with
  | none => decide
  | some l =>
    show (firstAddress l).strlen ≤ 15
    unfold firstAddress
    split
    · rename_i host hhead
      exact h host ((List.dropWhile_sublist _).mem (List.mem_of_head? hhead))
    · decide

section Node

variable (heap : Vector UInt8 68) (ifaddrs : Option (List Ifaddr)) (address : Option (Vector UInt8 6))
  (machineId : Option (List UInt8))

theorem kxGetIpaddr_eq {mem : List UInt8} :
    kxGetIpaddr mem ifaddrs = copyField mem 0 MAX_IP_LENGTH (nodeIp ifaddrs) := by
  cases ifaddrs with
  | none => rfl
  | some l => rw [kxGetIpaddr, firstIp_eq, nodeIp, Option.elim_some]

/-- `kx_get_mac` does not touch `ip`. -/
theorem take_kxGetMac {mem : List UInt8} (hmem : mem.length = 68) :
    (kxGetMac mem address).take 16 = mem.take 16 :=
  take_overwrite (by rw [hmem]; decide) (by decide)

/-- Nor does `kx_get_sysuuid`. -/
theorem take_kxGetSysuuid {mem : List UInt8} (hmem : mem.length = 68) :
    (kxGetSysuuid mem machineId).take 16 = mem.take 16 := by
  have hoff : KxNode.uuidOff + MAX_UUID_LENGTH < mem.length := by rw [hmem]; decide
  unfold kxGetSysuuid
  split
  · exact take_copyField hoff (by decide)
  · dsimp only
    split
    · rw [overwrite_overwrite_append (by omega), take_overwrite (by omega) (by decide)]
    · exact take_copyField hoff (by decide)

/-- **The address of a new node** and the byte behind it. -/
theorem kxCreatNode_ip :
    ∃ rest, (kxCreatNode heap ifaddrs address machineId).mem =
      strncpyBytes (nodeIp ifaddrs) 15 ++ heap.get 15 :: rest := by
  have hsize : heap.toList.length = 68 := heap.length_toList
  have hip := length_kxGetIpaddr hsize ifaddrs
  have htake : (kxCreatNode heap ifaddrs address machineId).mem.take 16 =
      (kxGetIpaddr heap.toList ifaddrs).take 16 := by
    show (kxGetSysuuid _ _).take 16 = _
    rw [take_kxGetSysuuid machineId (length_kxGetMac hip address), take_kxGetMac address hip]
  have hlast : heap.toList[0 + (MAX_IP_LENGTH - 1)]? = some (heap.get 15) := by
    rw [List.getElem?_eq_getElem (by rw [hsize]; decide), Vector.getElem_toList]
    rfl
  have hfield := copyField_eq (s := nodeIp ifaddrs) (by rw [hsize]; decide) (by decide) hlast
  rw [← kxGetIpaddr_eq ifaddrs, List.append_cons, List.take_zero, List.nil_append] at hfield
  have hfirst : (kxGetIpaddr heap.toList ifaddrs).take 16 =
      strncpyBytes (nodeIp ifaddrs) 15 ++ [heap.get 15] := by
    rw [hfield]
    exact List.take_left' (by simp [MAX_IP_LENGTH])
  refine ⟨(kxCreatNode heap ifaddrs address machineId).mem.drop 16, ?_⟩
  rw [List.append_cons, ← hfirst, ← htake, List.take_append_drop]

theorem ip_take_iff :
    (kxCreatNode heap ifaddrs address machineId).ip = (nodeIp ifaddrs).take 15 ↔
      EndsAt 15 (heap.get 15) (nodeIp ifaddrs) := by
  obtain ⟨rest, hmem⟩ := kxCreatNode_ip heap ifaddrs address machineId
  rw [KxNode.ip, hmem]
  exact ofMem_strncpyBytes_take_iff

/-! ### The byte behind the object -/

/-- No write of `kx_creat_node` reaches the byte behind the object. -/
def KeepsBehind : Prop :=
  ∀ heap : Vector UInt8 68, (kxCreatNode heap ifaddrs address machineId).mem[67]? = heap.toList[67]?

theorem getElem?_kxGetMac {mem : List UInt8} (hmem : mem.length = 68) :
    (kxGetMac mem address)[67]? = mem[67]? := by
  unfold kxGetMac
  rw [getElem?_overwrite_ge (by rw [hmem]; decide)]
  simp only [KxNode.macOff, MAX_IP_LENGTH, MAX_MAC_LENGTH, List.length_append, List.length_take,
    List.length_singleton]
  omega

/-- The fallback of `kx_get_sysuuid` writes its terminator behind the object. -/
theorem getElem?_kxGetSysuuid_fallback {mem : List UInt8} (hmem : mem.length = 68)
    {machineId : Option (List UInt8)} (h : machineId.getD [] = []) :
    (kxGetSysuuid mem machineId)[67]? = some 0 := by
  have hoff : KxNode.uuidOff + MAX_UUID_LENGTH < mem.length := by rw [hmem]; decide
  cases machineId with
  | none => exact getElem?_copyField_end hoff
  | some content =>
    cases h
    exact getElem?_copyField_end hoff

/-- A machine id ends inside the object. -/
theorem getElem?_kxGetSysuuid_id {mem : List UInt8} (hmem : mem.length = 68)
    {machineId : Option (List UInt8)} (h : machineId.getD [] ≠ []) :
    (kxGetSysuuid mem machineId)[67]? = mem[67]? := by
  cases machineId with
  | none => exact absurd rfl h
  | some content =>
    have hpos := List.length_pos_iff.2 h
    have hlen : 0 < (content.take (MAX_UUID_LENGTH - 1)).length := by
      rw [List.length_take]
      exact Nat.lt_min.2 ⟨by decide, hpos⟩
    simp only [kxGetSysuuid, hlen, if_true]
    rw [overwrite_overwrite_append (by rw [hmem]; decide), getElem?_overwrite_ge (by rw [hmem]; decide)]
    simp only [KxNode.uuidOff, MAX_IP_LENGTH, MAX_MAC_LENGTH, MAX_UUID_LENGTH, List.length_append,
      List.length_take, List.length_singleton]
    omega

/-- **The writes stay inside the object** exactly if there is a machine id. -/
theorem keepsBehind_iff : KeepsBehind ifaddrs address machineId ↔ machineId.getD [] ≠ [] := by
  have hmac : ∀ heap : Vector UInt8 68, (kxGetMac (kxGetIpaddr heap.toList ifaddrs) address).length = 68 :=
    fun heap => length_kxGetMac (length_kxGetIpaddr heap.length_toList ifaddrs) address
  constructor
  · intro h hnone
    have hkept := h (Vector.replicate 68 1)
    rw [kxCreatNode, getElem?_kxGetSysuuid_fallback (hmac _) hnone] at hkept
    exact absurd hkept (by decide)
  · intro hid heap
    show (kxGetSysuuid _ _)[67]? = _
    rw [getElem?_kxGetSysuuid_id (hmac heap) hid, getElem?_kxGetMac address
      (length_kxGetIpaddr heap.length_toList ifaddrs), kxGetIpaddr_eq,
      getElem?_copyField_behind (by rw [heap.length_toList]; decide) (by decide)]

/-- The strings of a node, and where its writes go. -/
structure NodeStrings : Prop where
  ip : (kxCreatNode heap ifaddrs address machineId).ip = nodeIp ifaddrs
  uuid : (kxCreatNode heap ifaddrs address machineId).uuid = sysuuid machineId
  inside : KeepsBehind ifaddrs address machineId

variable {ifaddrs}

theorem ip_iff (h : ShortHosts ifaddrs) :
    (kxCreatNode heap ifaddrs address machineId).ip = nodeIp ifaddrs ↔
      EndsAt 15 (heap.get 15) (nodeIp ifaddrs) := by
  have htake : (nodeIp ifaddrs).take 15 = nodeIp ifaddrs :=
    CStr.ext (List.take_of_length_le (strlen_nodeIp h))
  rw [← ip_take_iff heap ifaddrs address machineId, htake]

/-- **The strings of a node are faithful** exactly if the address is shorter than 15 characters, or the
    byte behind it is 0, and the machine id is there. -/
theorem node_strings_iff (h : ShortHosts ifaddrs) :
    NodeStrings heap ifaddrs address machineId ↔
      EndsAt 15 (heap.get 15) (nodeIp ifaddrs) ∧ machineId.getD [] ≠ [] := by
  rw [← ip_iff heap address machineId h, ← keepsBehind_iff ifaddrs address machineId]
  constructor
  · intro hstrings
    exact ⟨hstrings.ip, hstrings.inside⟩
  · rintro ⟨hip, hinside⟩
    exact ⟨hip, kxCreatNode_uuid heap ifaddrs address machineId, hinside⟩

end Node

/-- An address of fifteen characters is read on into the MAC address; without a machine id a byte behind
    the object is written. -/
theorem ip_reads_mac :
    ¬ NodeStrings (Vector.replicate 68 88) (some [.inet (some (.lit "192.168.100.100"))]) none (some [49]) ∧
      (kxCreatNode (Vector.replicate 68 88) (some [.inet (some (.lit "192.168.100.100"))]) none (some [49])).ip =
        .lit "192.168.100.100Xunkown" ∧
      ¬ NodeStrings (Vector.replicate 68 88) none none none := by
  refine ⟨?_, by decide +kernel, ?_⟩
  · intro h
    exact absurd (h.ip) (by decide +kernel)
  · intro h
    exact (keepsBehind_iff none none none).1 h.inside rfl

theorem node_strings_sample :
    NodeStrings (Vector.replicate 68 88) (some [.inet (some (.lit "127.0.0.1")), .inet (some (.lit "10.0.0.7"))])
      none (some [49]) :=
  (node_strings_iff _ _ _ (by simp [ShortHosts, CStr.strlen]; decide)).2 ⟨by decide, by decide⟩

/-! ## Databases -/

/-- The two strings of a database handle. -/
structure DbStrings (db : KxDb) (dbpath dbname : CStr) : Prop where
  dbpath : db.dbpath = dbpath.take 127
  dbname : db.dbname = dbname.take 31

/-- Every session that opens a database of that name hands the same name to `mdb_dbi_open`. -/
def SameName (db : KxDb) (dbname : CStr) : Prop :=
  ∀ (calls : CreatDbCalls) (heap : Vector UInt8 164) (size : Nat) (dbpath : CStr) (db' : KxDb),
    kxCreatDb calls heap size dbpath dbname = .ok (some db') → db'.dbname = db.dbname

section Database

variable {calls : CreatDbCalls} {heap : Vector UInt8 164} {size : Nat} {dbpath dbname : CStr} {db : KxDb}

theorem dbname_take_iff (h : kxCreatDb calls heap size dbpath dbname = .ok (some db)) :
    db.dbname = dbname.take 31 ↔ EndsAt 31 (heap.get 31) dbname := by
  obtain ⟨-, -, hmem⟩ := kxCreatDb_ok h
  obtain ⟨rest, hrest⟩ := fillDb_eq heap dbpath dbname
  rw [KxDb.dbname, hmem db rfl, hrest]
  exact ofMem_strncpyBytes_take_iff

/-- **The terminator of the name is the first byte of the path.** -/
theorem dbpath_empty (h : kxCreatDb calls heap size dbpath dbname = .ok (some db)) :
    db.dbpath.bytes = [] := by
  obtain ⟨-, -, hmem⟩ := kxCreatDb_ok h
  obtain ⟨rest, hrest⟩ := fillDb_eq heap dbpath dbname
  rw [KxDb.dbpath, hmem db rfl, hrest, List.append_cons, List.drop_left' (by simp [KxDb.dbpathOff])]
  rfl

theorem dbpath_take_iff (h : kxCreatDb calls heap size dbpath dbname = .ok (some db)) :
    db.dbpath = dbpath.take 127 ↔ dbpath.bytes = [] := by
  rw [CStr.ext_iff, dbpath_empty h, CStr.take_bytes, eq_comm, List.take_eq_nil_iff]
  simp

/-- A handle in memory that was filled with one byte. -/
theorem exists_kxCreatDb (b : UInt8) (dbpath dbname : CStr) :
    ∃ db, kxCreatDb ⟨true, MDB_SUCCESS, MDB_SUCCESS, MDB_SUCCESS, fun _ => none⟩ (Vector.replicate 164 b) 0
      dbpath dbname = .ok (some db) := ⟨_, rfl⟩

theorem sameName_iff (h : kxCreatDb calls heap size dbpath dbname = .ok (some db)) :
    SameName db dbname ↔ dbname.strlen < 31 := by
  constructor
  · intro hsame
    -- handles in memory of zeros and of ones
    obtain ⟨db₀, h₀⟩ := exists_kxCreatDb 0 dbpath dbname
    obtain ⟨db₁, h₁⟩ := exists_kxCreatDb 1 dbpath dbname
    have hname : db₀.dbname = dbname.take 31 := (dbname_take_iff h₀).2 (Or.inr (by simp [Vector.get]))
    rw [hsame _ _ _ _ _ h₀, ← hsame _ _ _ _ _ h₁, dbname_take_iff h₁] at hname
    rcases hname with hshort | hlast
    · exact hshort
    · exact absurd hlast (by simp [Vector.get])
  · intro hshort calls' heap' size' dbpath' db' h'
    rw [(dbname_take_iff h).2 (Or.inl hshort), (dbname_take_iff h').2 (Or.inl hshort)]

/-- **The strings of a database handle are faithful** exactly if the path is empty and the name is
    shorter than 31 bytes, or the byte behind it is 0; and it is the same name in every session exactly
    if it is shorter than 31 bytes. -/
theorem db_strings_iff (h : kxCreatDb calls heap size dbpath dbname = .ok (some db)) :
    (DbStrings db dbpath dbname ↔ dbpath.bytes = [] ∧ EndsAt 31 (heap.get 31) dbname) ∧
      (SameName db dbname ↔ dbname.strlen < 31) := by
  refine ⟨?_, sameName_iff h⟩
  rw [← dbpath_take_iff h, ← dbname_take_iff h]
  constructor
  · rintro ⟨hpath, hname⟩
    exact ⟨hpath, hname⟩
  · rintro ⟨hpath, hname⟩
    exact ⟨hpath, hname⟩

end Database

/-- The handle that `kx_user_register` opens for bob has no path. -/
theorem dbpath_lost : ∃ db, kxCreatDb ⟨true, MDB_SUCCESS, MDB_SUCCESS, MDB_SUCCESS, fun _ => none⟩
    (Vector.replicate 164 0) 0 (.lit "./data") (.lit "bob") = .ok (some db) ∧
      ¬ DbStrings db (.lit "./data") (.lit "bob") := by
  obtain ⟨db, h⟩ := exists_kxCreatDb 0 (.lit "./data") (.lit "bob")
  refine ⟨db, h, ?_⟩
  intro hstrings
  exact absurd ((dbpath_take_iff h).1 hstrings.dbpath) (by decide)

theorem db_strings_sample : ∃ db, kxCreatDb ⟨true, MDB_SUCCESS, MDB_SUCCESS, MDB_SUCCESS, fun _ => none⟩
    (Vector.replicate 164 0) 0 (.lit "") (.lit "bob") = .ok (some db) ∧
      DbStrings db (.lit "") (.lit "bob") ∧ SameName db (.lit "bob") := by
  obtain ⟨db, h⟩ := exists_kxCreatDb 0 (.lit "") (.lit "bob")
  obtain ⟨hstrings, hname⟩ := db_strings_iff h
  exact ⟨db, h, hstrings.2 ⟨by decide, by decide⟩, hname.2 (by decide)⟩

end Rkx
