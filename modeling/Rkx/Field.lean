import Rkx.Lib.CString
import Rkx.Lib.Stdio

/-!
# String fields of the records

`node.c`, `user.c` and `db.c` fill a field `char p[size]` with

    strncpy(p, s, sizeof(p) - 1);
    p[sizeof(p)] = '\0';

The last byte of the field is not written; the byte behind the field is.

* `copyField`: the two writes at an offset of the object's memory;
* `copyField_field`: what the field holds but for its last byte;
* `ofMem_copyField`: a string shorter than `size - 1` reads back as it is;
* `copyField_eq`: the memory behind the two writes.
-/

set_option autoImplicit false

namespace Rkx

open Lib.CString Lib.Stdio

/-- `strncpy(p, s, size - 1); p[size] = '\0'` for the field at offset `off`. -/
def copyField (mem : List UInt8) (off size : Nat) (s : CStr) : List UInt8 :=
  overwrite (overwrite mem off (strncpyBytes s (size - 1))) (off + size) [0]

variable {mem : List UInt8} {off size : Nat} {s : CStr}

theorem length_copyField (h : off + size < mem.length) :
    (copyField mem off size s).length = mem.length := by
  have h1 : (overwrite mem off (strncpyBytes s (size - 1))).length = mem.length := by
    rw [length_overwrite _ _ _ (by omega), length_strncpyBytes]
    omega
  rw [copyField, length_overwrite _ _ _ (by omega), h1, List.length_singleton]
  omega

/-- The bytes before the field are unchanged. -/
theorem take_copyField {n : Nat} (h : off + size < mem.length) (hn : n ≤ off) :
    (copyField mem off size s).take n = mem.take n := by
  have h1 : mem.length ≤ (overwrite mem off (strncpyBytes s (size - 1))).length :=
    length_overwrite_ge _ _ (by omega)
  rw [copyField, take_overwrite (by omega) (by omega), take_overwrite (by omega) hn]

/-- The field but for its last byte. -/
theorem copyField_field (h : off + size < mem.length) (hsize : 0 < size) :
    ((copyField mem off size s).drop off).take (size - 1) = strncpyBytes s (size - 1) := by
  have h1 : mem.length ≤ (overwrite mem off (strncpyBytes s (size - 1))).length :=
    length_overwrite_ge _ _ (by omega)
  have hswap : ((copyField mem off size s).drop off).take (size - 1) =
      ((copyField mem off size s).take (off + (size - 1))).drop off := by
    rw [List.drop_take, Nat.add_sub_cancel_left]
  rw [hswap, copyField, take_overwrite (by omega) (by omega), List.drop_take, Nat.add_sub_cancel_left,
    drop_overwrite (by omega), List.take_left' (length_strncpyBytes _ _)]

/-- The byte behind the field is the terminator. -/
theorem getElem?_copyField_end (h : off + size < mem.length) :
    (copyField mem off size s)[off + size]? = some 0 := by
  have h1 : mem.length ≤ (overwrite mem off (strncpyBytes s (size - 1))).length :=
    length_overwrite_ge _ _ (by omega)
  exact getElem?_overwrite_run (d := [0]) (i := 0) (by omega) (by decide)

/-- The bytes behind the terminator are unchanged. -/
theorem getElem?_copyField_behind {i : Nat} (h : off + size < mem.length) (hi : off + size < i) :
    (copyField mem off size s)[i]? = mem[i]? := by
  have h1 : mem.length ≤ (overwrite mem off (strncpyBytes s (size - 1))).length :=
    length_overwrite_ge _ _ (by omega)
  have hlen := length_strncpyBytes s (size - 1)
  rw [copyField, getElem?_overwrite_ge (by omega) (by rw [List.length_singleton]; omega),
    getElem?_overwrite_ge (by omega) (by omega)]

/-- **A short string reads back.** -/
theorem ofMem_copyField (h : off + size < mem.length) (hs : s.strlen < size - 1) :
    CStr.ofMem ((copyField mem off size s).drop off) = s := by
  apply CStr.ofMem_of_prefix
  have hp := strncpyBytes_prefix hs
  rw [← copyField_field h (by omega)] at hp
  exact hp.trans (List.take_prefix _ _)

/-- The two writes leave the last byte of the field between them. -/
theorem copyField_eq {last : UInt8} (h : off + size < mem.length) (hsize : 0 < size)
    (hlast : mem[off + (size - 1)]? = some last) :
    copyField mem off size s =
      mem.take off ++ strncpyBytes s (size - 1) ++ last :: 0 :: mem.drop (off + size + 1) := by
  have hbytes : (mem.take off ++ strncpyBytes s (size - 1) ++ [last]).length = off + size := by
    simp only [List.length_append, List.length_take, length_strncpyBytes, List.length_singleton]
    omega
  have hdrop : mem.drop (off + (size - 1)) = last :: mem.drop (off + size) := by
    obtain ⟨hi, rfl⟩ := List.getElem?_eq_some_iff.1 hlast
    rw [List.drop_eq_getElem_cons hi, show off + (size - 1) + 1 = off + size by omega]
  have hinner : overwrite mem off (strncpyBytes s (size - 1)) =
      (mem.take off ++ strncpyBytes s (size - 1) ++ [last]) ++ mem.drop (off + size) := by
    simp only [overwrite, Nat.sub_eq_zero_of_le (show off ≤ mem.length by omega), List.replicate_zero,
      List.append_nil, length_strncpyBytes, hdrop, List.append_assoc, List.singleton_append]
  have hover := overwrite_append (mem.take off ++ strncpyBytes s (size - 1) ++ [last])
    (mem.drop (off + size)) [0]
  rw [hbytes] at hover
  rw [copyField, hinner, hover, List.length_singleton, List.drop_drop]
  simp only [List.append_assoc, List.singleton_append]
  rfl

end Rkx
