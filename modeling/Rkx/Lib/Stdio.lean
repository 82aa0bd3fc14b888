import Mathlib.Data.List.Basic

/-!
# Byte buffers and files with one cursor

* `overwrite`: a run of elements stored over a list from an index on, past the end if need be;
* `File`: bytes and the single cursor that reads and writes share (`fread`, `fwrite`, `fseek`).

`fread` and `fwrite` take the largest number of bytes that the call transfers, so that a full,
a short and a failed transfer are values of one argument.
-/

set_option autoImplicit false

namespace Lib.Stdio

/-- `d` stored over `l` from index `off`; a gap past the end of `l` is filled with zeros. -/
def overwrite (l : List UInt8) (off : Nat) (d : List UInt8) : List UInt8 :=
  l.take off ++ List.replicate (off - l.length) 0 ++ d ++ l.drop (off + d.length)

theorem length_overwrite (l : List UInt8) (off : Nat) (d : List UInt8) (h : off ≤ l.length) :
    (overwrite l off d).length = max l.length (off + d.length) := by
  simp only [overwrite, List.length_append, List.length_take, List.length_replicate,
    List.length_drop]
  omega

theorem length_overwrite_ge (l : List UInt8) {off : Nat} (d : List UInt8) (h : off ≤ l.length) :
    l.length ≤ (overwrite l off d).length := by
  rw [length_overwrite l off d h]
  exact Nat.le_max_left _ _

@[simp] theorem overwrite_nil {l : List UInt8} {off : Nat} (h : off ≤ l.length) :
    overwrite l off [] = l := by
  simp [overwrite, Nat.sub_eq_zero_of_le h]

/-- Storing at the end of a prefix replaces what follows the prefix. -/
theorem overwrite_append (p rest d : List UInt8) :
    overwrite (p ++ rest) p.length d = p ++ d ++ rest.drop d.length := by
  simp only [overwrite, List.take_left, List.length_append]
  rw [Nat.sub_eq_zero_of_le (by omega), List.replicate_zero, List.append_nil, ← List.drop_drop,
    List.drop_left]

/-- Bytes before the stored run keep their values. -/
theorem getElem?_overwrite_lt {l d : List UInt8} {off i : Nat} (hoff : off ≤ l.length)
    (hi : i < off) : (overwrite l off d)[i]? = l[i]? := by
  simp only [overwrite, List.append_assoc]
  rw [List.getElem?_append_left (by rw [List.length_take]; omega), List.getElem?_take_of_lt hi]

/-- Bytes of the stored run. -/
theorem getElem?_overwrite_run {l d : List UInt8} {off i : Nat} (hoff : off ≤ l.length)
    (hi : i < d.length) : (overwrite l off d)[off + i]? = d[i]? := by
  simp only [overwrite, Nat.sub_eq_zero_of_le hoff, List.replicate_zero, List.append_nil,
    List.append_assoc]
  rw [List.getElem?_append_right (by rw [List.length_take]; omega), List.length_take,
    Nat.min_eq_left hoff, Nat.add_sub_cancel_left, List.getElem?_append_left hi]

/-- Bytes behind the stored run keep their values. -/
theorem getElem?_overwrite_ge {l d : List UInt8} {off i : Nat} (hoff : off ≤ l.length)
    (hi : off + d.length ≤ i) : (overwrite l off d)[i]? = l[i]? := by
  simp only [overwrite, Nat.sub_eq_zero_of_le hoff, List.replicate_zero, List.append_nil,
    List.append_assoc]
  rw [List.getElem?_append_right (by rw [List.length_take]; omega), List.length_take,
    Nat.min_eq_left hoff, List.getElem?_append_right (by omega), List.getElem?_drop]
  congr 1
  omega

/-- A prefix that ends before the stored run is unchanged. -/
theorem take_overwrite {l d : List UInt8} {off n : Nat} (hoff : off ≤ l.length) (hn : n ≤ off) :
    (overwrite l off d).take n = l.take n := by
  simp only [overwrite, List.append_assoc]
  rw [List.take_append_of_le_length (by rw [List.length_take]; omega), List.take_take,
    Nat.min_eq_left hn]

/-- From the stored run on, the list is the run and what follows it. -/
theorem drop_overwrite {l d : List UInt8} {off : Nat} (hoff : off ≤ l.length) :
    (overwrite l off d).drop off = d ++ l.drop (off + d.length) := by
  simp only [overwrite, Nat.sub_eq_zero_of_le hoff, List.replicate_zero, List.append_nil,
    List.append_assoc]
  rw [List.drop_left' (by rw [List.length_take]; omega)]

/-- A run stored behind another one. -/
theorem overwrite_overwrite_append {l d e : List UInt8} {off : Nat} (hoff : off ≤ l.length) :
    overwrite (overwrite l off d) (off + d.length) e = overwrite l off (d ++ e) := by
  have hlen : (l.take off ++ d).length = off + d.length := by
    rw [List.length_append, List.length_take, Nat.min_eq_left hoff]
  have hinner : overwrite l off d = (l.take off ++ d) ++ l.drop (off + d.length) := by
    simp only [overwrite, Nat.sub_eq_zero_of_le hoff, List.replicate_zero, List.append_nil]
  rw [hinner, ← hlen, overwrite_append, List.drop_drop, hlen]
  simp only [overwrite, Nat.sub_eq_zero_of_le hoff, List.replicate_zero, List.append_nil,
    List.append_assoc, List.length_append, Nat.add_assoc]

/-- A stream opened for update. -/
structure File where
  data : List UInt8
  pos : Nat
  deriving DecidableEq, Repr

namespace File

/-- `fopen` in a mode that keeps the contents. -/
def opened (data : List UInt8) : File := ⟨data, 0⟩

/-- `fseek` from the start of the file. -/
def fseek (fp : File) (off : Nat) : File := { fp with pos := off }

/-- `fread` of `n` bytes when the call delivers at most `most` of them. -/
def fread (fp : File) (n most : Nat) : List UInt8 × File :=
  let got := (fp.data.drop fp.pos).take (min n most)
  (got, { fp with pos := fp.pos + got.length })

/-- `fwrite` of `buf` when the call stores at most `most` of its bytes. -/
def fwrite (fp : File) (buf : List UInt8) (most : Nat) : File :=
  let d := buf.take most
  ⟨overwrite fp.data fp.pos d, fp.pos + d.length⟩

@[simp] theorem fseek_data (fp : File) (off : Nat) : (fp.fseek off).data = fp.data := rfl

@[simp] theorem fseek_pos (fp : File) (off : Nat) : (fp.fseek off).pos = off := rfl

@[simp] theorem fread_data (fp : File) (n most : Nat) : (fp.fread n most).2.data = fp.data := rfl

@[simp] theorem fwrite_data (fp : File) (buf : List UInt8) (most : Nat) :
    (fp.fwrite buf most).data = overwrite fp.data fp.pos (buf.take most) := rfl

end File

end Lib.Stdio
