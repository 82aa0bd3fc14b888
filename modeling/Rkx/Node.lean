import Rkx.Field

/-!
# The machine node (`node.c`)

`kx_creat_node` fills a freshly allocated `kxnode`: `ip[16]`, `mac[18]` and `uuid[33]` in a row, so
that `ip` begins at offset 0, `mac` at 16, `uuid` at 34 and the object ends at 67.  The model keeps
the byte behind the object as well.

* `kxGetIpaddr`, `kxGetMac`, `kxGetSysuuid`: the writes of the three functions;
* `kxCreatNode_uuid`: the uuid of a node is `sysuuid` of the machine id.
-/

set_option autoImplicit false

namespace Rkx

open Lib.CString Lib.Stdio

def MAX_IP_LENGTH : Nat := 16
def MAX_MAC_LENGTH : Nat := 18
def MAX_UUID_LENGTH : Nat := 33

/-- Memory from the start of a `kxnode` to the byte behind it. -/
structure KxNode where
  mem : List UInt8
  size : mem.length = 68

namespace KxNode

def macOff : Nat := MAX_IP_LENGTH
def uuidOff : Nat := MAX_IP_LENGTH + MAX_MAC_LENGTH

def ip (n : KxNode) : CStr := CStr.ofMem n.mem
def mac (n : KxNode) : CStr := CStr.ofMem (n.mem.drop macOff)
def uuid (n : KxNode) : CStr := CStr.ofMem (n.mem.drop uuidOff)

end KxNode

def unknow : CStr := .lit "unknow"

/-- As `kx_get_mac` spells it. -/
def unkown : CStr := .lit "unkown"

/-- An element of the list of `getifaddrs`. -/
inductive Ifaddr where
  /-- no address, or one of another family -/
  | other
  /-- an `AF_INET` address and what `getnameinfo` makes of it, `none` when it fails -/
  | inet (host : Option CStr)

/-- `strncmp(host, "127.", 4) == 0` -/
def isLoopback (host : CStr) : Bool := host.bytes.take 4 = (CStr.lit "127.").bytes

/-- The string that the loop of `kx_get_ipaddr` copies. -/
def firstIp : List Ifaddr → CStr
  | [] => unknow
  | .other :: rest => firstIp rest
  | .inet none :: _ => unknow
  | .inet (some host) :: rest => if isLoopback host then firstIp rest else host

/-- `kx_get_ipaddr`; `ifaddrs` is `none` when `getifaddrs` fails. -/
def kxGetIpaddr (mem : List UInt8) (ifaddrs : Option (List Ifaddr)) : List UInt8 :=
  copyField mem 0 MAX_IP_LENGTH (match ifaddrs with | none => unknow | some l => firstIp l)

/-- The digit of `%X`. -/
def upperHexDigit (d : Nat) : UInt8 := UInt8.ofNat (if d < 10 then 48 + d else 55 + d)

/-- `"%02X:%02X:%02X:%02X:%02X:%02X"` -/
def macText (address : Vector UInt8 6) : List UInt8 :=
  (List.intercalate [58]
    (address.toList.map fun b => [upperHexDigit (b.toNat / 16), upperHexDigit (b.toNat % 16)]))

/-- `kx_get_mac`: `snprintf` of `size` bytes; `address` is `none` when the socket or the `ioctl`
    fails. -/
def kxGetMac (mem : List UInt8) (address : Option (Vector UInt8 6)) : List UInt8 :=
  let text := match address with | none => unkown.bytes | some a => macText a
  overwrite mem KxNode.macOff (text.take (MAX_MAC_LENGTH - 1) ++ [0])

/-- `kx_get_sysuuid`; `machineId` is `none` when `fopen` fails, else the bytes `fread` finds. -/
def kxGetSysuuid (mem : List UInt8) (machineId : Option (List UInt8)) : List UInt8 :=
  match machineId with
  | none => copyField mem KxNode.uuidOff MAX_UUID_LENGTH unknow
  | some content =>
    let bytes := content.take (MAX_UUID_LENGTH - 1)
    if bytes.length > 0 then
      overwrite (overwrite mem KxNode.uuidOff bytes) (KxNode.uuidOff + bytes.length) [0]
    else copyField mem KxNode.uuidOff MAX_UUID_LENGTH unknow

theorem length_kxGetIpaddr {mem : List UInt8} (hmem : mem.length = 68)
    (ifaddrs : Option (List Ifaddr)) : (kxGetIpaddr mem ifaddrs).length = 68 := by
  unfold kxGetIpaddr
  rw [length_copyField (by rw [hmem]; decide), hmem]

theorem length_kxGetMac {mem : List UInt8} (hmem : mem.length = 68)
    (address : Option (Vector UInt8 6)) : (kxGetMac mem address).length = 68 := by
  unfold kxGetMac
  rw [length_overwrite _ _ _ (by rw [hmem]; decide), hmem]
  simp only [KxNode.macOff, MAX_IP_LENGTH, MAX_MAC_LENGTH, List.length_append, List.length_take,
    List.length_singleton]
  omega

theorem length_kxGetSysuuid {mem : List UInt8} (hmem : mem.length = 68)
    (machineId : Option (List UInt8)) : (kxGetSysuuid mem machineId).length = 68 := by
  have hoff : KxNode.uuidOff + MAX_UUID_LENGTH < mem.length := by rw [hmem]; decide
  unfold kxGetSysuuid
  split
  · rw [length_copyField hoff, hmem]
  · rename_i content
    dsimp only
    split
    · rw [overwrite_overwrite_append (by omega), length_overwrite _ _ _ (by omega), hmem]
      simp only [KxNode.uuidOff, MAX_IP_LENGTH, MAX_MAC_LENGTH, MAX_UUID_LENGTH, List.length_append,
        List.length_take, List.length_singleton]
      omega
    · rw [length_copyField hoff, hmem]

/-- `kx_creat_node` in memory with this content. -/
def kxCreatNode (heap : Vector UInt8 68) (ifaddrs : Option (List Ifaddr))
    (address : Option (Vector UInt8 6)) (machineId : Option (List UInt8)) : KxNode where
  mem := kxGetSysuuid (kxGetMac (kxGetIpaddr heap.toList ifaddrs) address) machineId
  size := length_kxGetSysuuid (length_kxGetMac (length_kxGetIpaddr heap.length_toList ifaddrs) address)
    machineId

/-! ## The uuid of a node -/

/-- The node uuids that `kx_get_sysuuid` produces: the machine id up to 32 bytes and a NUL, or the
    fallback. -/
def sysuuid (machineId : Option (List UInt8)) : CStr :=
  match machineId with
  | none => unknow
  | some content => if content = [] then unknow else CStr.ofMem (content.take 32)

theorem kxGetSysuuid_uuid {mem : List UInt8} (hmem : mem.length = 68)
    (machineId : Option (List UInt8)) :
    CStr.ofMem ((kxGetSysuuid mem machineId).drop KxNode.uuidOff) = sysuuid machineId := by
  have hoff : KxNode.uuidOff + MAX_UUID_LENGTH < mem.length := by rw [hmem]; decide
  have hshort : unknow.strlen < MAX_UUID_LENGTH - 1 := by decide
  unfold kxGetSysuuid sysuuid
  split
  · exact ofMem_copyField hoff hshort
  · rename_i content
    by_cases hc : content = []
    · subst hc
      simp only [List.take_nil, List.length_nil, Nat.lt_irrefl, if_false, if_true]
      exact ofMem_copyField hoff hshort
    · have hpos := List.length_pos_iff.2 hc
      have hlen : 0 < (content.take (MAX_UUID_LENGTH - 1)).length := by
        rw [List.length_take]
        exact Nat.lt_min.2 ⟨by decide, hpos⟩
      simp only [hlen, hc, if_true, if_false]
      rw [overwrite_overwrite_append (by omega), drop_overwrite (by omega), List.append_assoc,
        List.singleton_append, CStr.ofMem_append_nul]
      rfl

/-- **The uuid of a node** is the one `kx_get_sysuuid` found, whatever the memory held before. -/
theorem kxCreatNode_uuid (heap : Vector UInt8 68) (ifaddrs : Option (List Ifaddr))
    (address : Option (Vector UInt8 6)) (machineId : Option (List UInt8)) :
    (kxCreatNode heap ifaddrs address machineId).uuid = sysuuid machineId := by
  apply kxGetSysuuid_uuid
  exact length_kxGetMac (length_kxGetIpaddr heap.length_toList ifaddrs) address

end Rkx
