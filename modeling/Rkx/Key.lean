import Rkx.User

/-!
# Keys of two users and of two sessions

The key of a user is `uuid ++ name`, and `AES_init_ctx` takes its first sixteen bytes
(`bytes_kxCreatUser`).  Two questions about pairs of runs of `kx_creat_user`:

* `keys_differ_iff`: two users of one node have different keys exactly if their names differ at a
  position that both have and that lies, behind the uuid, among the sixteen bytes;
* `key_stable_iff`: one user gets the same key in every session exactly if uuid and name together
  have sixteen bytes, which is also when every byte the cipher reads was written.
-/

set_option autoImplicit false

namespace Rkx

open Lib.CString

/-- What the memory behind a key may hold, so that the sixteen bytes become those of `bytes`. -/
def heapWith (bytes : List UInt8) : UserHeap :=
  ⟨Vector.replicate 101 0, fun i => bytes[i]?.getD 0⟩

theorem key_ext {k l : Aes.Key} (h : ∀ i (hi : i < 16), k[i] = l[i]) : k = l := Vector.ext h

/-! ## Two users of one node -/

/-- The names differ at a position of both whose bytes go into the sixteen. -/
def NamesDifferInKey (uuid u v : CStr) : Prop :=
  ∃ i a b, uuid.strlen + i < 16 ∧ u.bytes[i]? = some a ∧ v.bytes[i]? = some b ∧ a ≠ b

/-- Two seeds that never contradict each other within the sixteen bytes. -/
theorem seeds_agree {uuid u v : CStr} (h : ¬ NamesDifferInKey uuid u v) {i : Nat} (hi : i < 16)
    {a b : UInt8} (ha : (uuid.bytes ++ u.bytes)[i]? = some a)
    (hb : (uuid.bytes ++ v.bytes)[i]? = some b) : a = b := by
  rcases Nat.lt_or_ge i uuid.bytes.length with hlt | hge
  · rw [List.getElem?_append_left hlt] at ha hb
    exact Option.some.inj (ha.symm.trans hb)
  · rw [List.getElem?_append_right hge] at ha hb
    by_contra hne
    exact h ⟨i - uuid.bytes.length, a, b, by rw [CStr.strlen]; omega, ha, hb, hne⟩

/-- **Keys of two users.**  For every content of the allocated memory and all passwords the keys of
    two names differ, exactly if the names differ where the cipher reads. -/
theorem keys_differ_iff (node : KxNode) (u v : CStr) :
    (∀ (heap heap' : UserHeap) (pwd pwd' : CStr),
      (kxCreatUser heap node u pwd).key.bytes ≠ (kxCreatUser heap' node v pwd').key.bytes) ↔
    NamesDifferInKey node.uuid u v := by
  constructor
  · intro hall
    by_contra hsame
    -- each run finds behind its own key the bytes that the other one wrote
    refine hall (heapWith (node.uuid.bytes ++ v.bytes)) (heapWith (node.uuid.bytes ++ u.bytes)) u v
      (key_ext fun i hi => ?_)
    rw [bytes_kxCreatUser _ _ _ _ hi, bytes_kxCreatUser _ _ _ _ hi]
    simp only [heapWith]
    cases ha : (node.uuid.bytes ++ u.bytes)[i]? with
    | none => cases (node.uuid.bytes ++ v.bytes)[i]? <;> rfl
    | some a =>
      cases hb : (node.uuid.bytes ++ v.bytes)[i]? with
      | none => rfl
      | some b => exact seeds_agree hsame hi ha hb
  · rintro ⟨i, a, b, hi, ha, hb, hne⟩ heap heap' pwd pwd' heq
    have hbehind : ∀ {w : CStr}, (node.uuid.bytes ++ w.bytes)[node.uuid.strlen + i]? = w.bytes[i]? := by
      intro w
      rw [List.getElem?_append_right (by rw [CStr.strlen]; omega), CStr.strlen,
        Nat.add_sub_cancel_left]
    have hbyte : (kxCreatUser heap node u pwd).key.bytes[node.uuid.strlen + i] =
        (kxCreatUser heap' node v pwd').key.bytes[node.uuid.strlen + i] := by rw [heq]
    rw [bytes_kxCreatUser _ _ _ _ hi, bytes_kxCreatUser _ _ _ _ hi, hbehind, hbehind, ha, hb] at hbyte
    exact hne hbyte

/-- A machine id as systemd writes it: 32 hexadecimal digits and a newline. -/
def machineIdSample : List UInt8 := List.replicate 32 97 ++ [10]

def alice : CStr := .lit "alice"

def bob : CStr := .lit "bob"

/-- The node of a machine with a machine id of full length. -/
def nodeSample : KxNode := kxCreatNode (Vector.replicate 68 0) (some []) none (some machineIdSample)

/-- On a machine with a machine id of full length, alice and bob have one key. -/
theorem keys_collide :
    alice ≠ bob ∧ alice.strlen ≤ 31 ∧ bob.strlen ≤ 31 ∧
      (kxCreatUser (heapWith []) nodeSample alice alice).key.bytes =
        (kxCreatUser (heapWith []) nodeSample bob bob).key.bytes := by
  refine ⟨by decide, by decide, by decide, ?_⟩
  have huuid : nodeSample.uuid.bytes = List.replicate 32 97 := by
    rw [nodeSample, kxCreatNode_uuid]
    decide
  apply key_ext
  intro i hi
  have hin : i < nodeSample.uuid.bytes.length := by rw [huuid, List.length_replicate]; omega
  rw [bytes_kxCreatUser _ _ _ _ hi, bytes_kxCreatUser _ _ _ _ hi, List.getElem?_append_left hin,
    List.getElem?_append_left hin]

/-! ## One user in two sessions -/

/-- Two sessions on the machine, whatever memory, interfaces and passwords they find, give the user
    one key. -/
def KeyStable (machineId : Option (List UInt8)) (name : CStr) : Prop :=
  ∀ (mem mem' : Vector UInt8 68) (ifaddrs ifaddrs' : Option (List Ifaddr))
    (address address' : Option (Vector UInt8 6)) (heap heap' : UserHeap) (pwd pwd' : CStr),
    (kxCreatUser heap (kxCreatNode mem ifaddrs address machineId) name pwd).key.bytes =
      (kxCreatUser heap' (kxCreatNode mem' ifaddrs' address' machineId) name pwd').key.bytes

/-- Every byte of the key that the cipher reads was written by `kx_user_creat_key`. -/
def KeyWritten (machineId : Option (List UInt8)) (name : CStr) : Prop :=
  ∀ (mem : Vector UInt8 68) (ifaddrs : Option (List Ifaddr)) (address : Option (Vector UInt8 6))
    (heap : UserHeap) (pwd : CStr) (i : Nat), i < 16 →
    i < (kxCreatUser heap (kxCreatNode mem ifaddrs address machineId) name pwd).key.len

/-- Two runs that find 0 and 1 behind a short key. -/
theorem keyStable_iff {machineId : Option (List UInt8)} {name : CStr} :
    KeyStable machineId name ↔ 16 ≤ (sysuuid machineId).strlen + name.strlen := by
  constructor
  · intro h
    by_contra hshort
    have heq := h (Vector.replicate 68 0) (Vector.replicate 68 0) none none none none
      (heapWith []) ⟨Vector.replicate 101 0, fun _ => 1⟩ name name
    have hbyte := congrArg (fun k : Aes.Key => k[15]) heq
    have hnone : ((sysuuid machineId).bytes ++ name.bytes)[15]? = none := by
      apply List.getElem?_eq_none
      rw [List.length_append]
      change (sysuuid machineId).strlen + name.strlen ≤ 15
      omega
    simp only [bytes_kxCreatUser _ _ _ _ (by decide : 15 < 16), kxCreatNode_uuid, hnone] at hbyte
    exact absurd hbyte (by decide)
  · intro hlen mem mem' ifaddrs ifaddrs' address address' heap heap' pwd pwd'
    apply key_ext
    intro i hi
    have hin : i < ((sysuuid machineId).bytes ++ name.bytes).length := by
      rw [List.length_append]
      change i < (sysuuid machineId).strlen + name.strlen
      omega
    rw [bytes_kxCreatUser _ _ _ _ hi, bytes_kxCreatUser _ _ _ _ hi, kxCreatNode_uuid,
      kxCreatNode_uuid, List.getElem?_eq_getElem hin, Option.getD_some, Option.getD_some]

theorem keyWritten_iff {machineId : Option (List UInt8)} {name : CStr} :
    KeyWritten machineId name ↔ 16 ≤ (sysuuid machineId).strlen + name.strlen := by
  constructor
  · intro h
    have h15 := h (Vector.replicate 68 0) none none (heapWith []) name 15 (by decide)
    have hlen := (sixteen_le_len_kxCreatUser _ _ _ _).1 h15
    rwa [kxCreatNode_uuid] at hlen
  · intro hlen mem ifaddrs address heap pwd i hi
    refine Nat.lt_of_lt_of_le hi ((sixteen_le_len_kxCreatUser _ _ _ _).2 ?_)
    rwa [kxCreatNode_uuid]

/-- **The key is stable** exactly if uuid and name fill the sixteen bytes, and exactly then are all
    of these written. -/
theorem key_stable_iff (machineId : Option (List UInt8)) (name : CStr) :
    (KeyStable machineId name ↔ 16 ≤ (sysuuid machineId).strlen + name.strlen) ∧
      (KeyWritten machineId name ↔ 16 ≤ (sysuuid machineId).strlen + name.strlen) :=
  ⟨keyStable_iff, keyWritten_iff⟩

/-- Without a machine id the key of bob depends on the memory behind it. -/
theorem key_unstable : bob.bytes ≠ [] ∧ ¬ KeyStable none bob ∧ ¬ KeyWritten none bob := by
  have hshort : ¬ 16 ≤ (sysuuid none).strlen + bob.strlen := by decide
  exact ⟨by decide, mt keyStable_iff.1 hshort, mt keyWritten_iff.1 hshort⟩

end Rkx
