import Rkx.Encrypting

/-!
# What a file record says of its file (`file.c`, `file.h`)

`kx_crypt_file` copies the last component of the path into `char fname[NAME_MAX]` and the path into
`char fullname[PATH_MAX]` with `strncpy` of the full size.  A path ends inside its field, since the
system counts the terminator into `PATH_MAX`; a component does not, since it does not count it into
`NAME_MAX`.

* `StatPath`: the paths that `stat` accepts;
* `str_fname_iff`: the name reads back exactly if it is shorter than its field;
* `record_describes_iff`: the records that describe their file.
-/

set_option autoImplicit false

namespace Rkx

open Lib.CString Lib.Words

/-! ## Paths -/

/-- A path that `stat` accepts: with its terminator it fits into `PATH_MAX`, and each of its components
    without one into `NAME_MAX`. -/
structure StatPath (path : CStr) : Prop where
  nonempty : path.bytes ≠ []
  short : path.strlen ≤ 4095
  components : ∀ w ∈ words (· == slash) path.bytes, w.length ≤ 255

theorem length_lastName_le {path : CStr} (hpath : StatPath path) : (lastName path).length ≤ 255 := by
  rcases lastName_cases path with hmem | ⟨-, hslash⟩
  · exact hpath.components _ hmem
  · simp [hslash]

/-! ## The record -/

/-- The record describes the file at the path with this content. -/
structure Describes (XXH64 : List UInt8 → UInt64 → UInt64) (o : FileObject) (path : CStr)
    (content : List UInt8) : Prop where
  fullname : o.str 255 = path
  fname : (o.str 0).bytes = lastName path
  uuid : o.file.uuid = XXH64 content 0

section Record

variable {XXH64 : List UInt8 → UInt64 → UInt64} (o : FileObject) {path : CStr}

/-- The name reads back exactly if it is shorter than its field: the path behind it is longer than what
    would be left of the name. -/
theorem str_fname_iff (hpath : path.bytes ≠ []) (hname : o.file.fname = strncpyField 255 (basename path))
    (hread : o.str 255 = path) : o.str 0 = basename path ↔ (basename path).strlen < 255 := by
  refine ⟨?_, str_fname_of_lt o hname⟩
  intro hfname
  by_contra hlong
  have hlen := congrArg List.length (str_fname_of_le o hname (Nat.le_of_not_lt hlong))
  rw [hfname, hread, List.length_append, List.length_take] at hlen
  have hle := (basename_sublist hpath).length_le
  have hpos := List.length_pos_iff.2 hpath
  unfold CStr.strlen at hlong
  omega

/-- **The record describes its file** exactly if the last component of the path does not fill its field. -/
theorem record_describes_iff {io : CryptCalls} {userKey : Option Aes.Key} {x y : List UInt8}
    (hpath : StatPath path) (h : kxCryptFile XXH64 io path userKey x = (.ok (some o.file), y)) :
    Describes XXH64 o path y ↔ (lastName path).length ≠ 255 := by
  obtain ⟨key, -, hfile, rfl⟩ := kxCryptFile_record h
  have hread : o.str 255 = path :=
    str_fullname o (by rw [hfile]; rfl) (Nat.lt_succ_of_le hpath.short)
  have hname := str_fname_iff o hpath.nonempty (by rw [hfile]; rfl) hread
  have hle := length_lastName_le hpath
  have hlen : (basename path).strlen = (lastName path).length := by
    rw [CStr.strlen, basename_bytes hpath.nonempty]
  rw [hlen, CStr.ext_iff, basename_bytes hpath.nonempty] at hname
  constructor
  · intro hdescribes
    have hlt := hname.1 hdescribes.fname
    omega
  · intro hne
    have hlt : (lastName path).length < 255 := by omega
    exact ⟨hread, hname.2 hlt, by rw [hfile]; rfl⟩

end Record

/-! ## Samples -/

/-- A name of `n` letters. -/
def letters (n : Nat) : CStr := ⟨List.replicate n 97, fun h => absurd (List.eq_of_mem_replicate h) (by decide)⟩

theorem strlen_letters (n : Nat) : (letters n).strlen = n := List.length_replicate

section Letters

variable {n : Nat} (hpos : 0 < n) (hle : n ≤ 255)

include hpos in
theorem words_letters : words (· == slash) (letters n).bytes = [(letters n).bytes] := by
  apply words_eq_singleton
  · intro a ha
    rw [List.eq_of_mem_replicate ha]
    rfl
  · exact List.length_pos_iff.1 (by rwa [← CStr.strlen, strlen_letters])

include hpos hle in
theorem statPath_letters : StatPath (letters n) where
  nonempty := List.length_pos_iff.1 (by rwa [← CStr.strlen, strlen_letters])
  short := by rw [strlen_letters]; omega
  components := by
    intro w hw
    rw [words_letters hpos, List.mem_singleton] at hw
    rwa [hw, ← CStr.strlen, strlen_letters]

include hpos in
theorem lastName_letters : lastName (letters n) = (letters n).bytes := by
  rw [lastName, words_letters hpos]
  rfl

end Letters

/-- An empty file is encrypted without a block. -/
theorem kxCryptFile_empty (path : CStr) (key : Aes.Key) :
    kxCryptFile lengthHash fileCallsSample.crypt path (some key) [] =
      (.ok (some (recordOf lengthHash BlockCalls.full key path [])), []) := by
  rfl

/-- A name of 255 letters reads back with the path behind it. -/
theorem name_reads_on : ∃ o : FileObject,
    kxCryptFile lengthHash fileCallsSample.crypt (letters 255) (some userSample.key.bytes) [] =
      (.ok (some o.file), []) ∧
    StatPath (letters 255) ∧ ¬ Describes lengthHash o (letters 255) [] ∧ o.str 0 = letters 510 := by
  have hstat := @statPath_letters 255 (by decide) (by decide)
  have hbase : (basename (letters 255)).bytes = (letters 255).bytes := by
    rw [basename_bytes hstat.nonempty, lastName_letters (by decide)]
  have hread : ∀ o : FileObject,
      o.file = recordOf lengthHash BlockCalls.full userSample.key.bytes (letters 255) [] →
      o.str 0 = letters 510 := by
    intro o ho
    apply CStr.ext
    rw [str_fname_of_le o (by rw [ho]; rfl) (by rw [CStr.strlen, hbase, ← CStr.strlen, strlen_letters]),
      hbase, str_fullname o (by rw [ho]; rfl) (Nat.lt_succ_of_le hstat.short),
      List.take_of_length_le (Nat.le_of_eq (strlen_letters 255))]
    exact List.replicate_append_replicate
  refine ⟨⟨_, fileCallsSample.pad, fileCallsSample.behind⟩, kxCryptFile_empty _ _, hstat, ?_, hread _ rfl⟩
  intro hdescribes
  have hlen := congrArg List.length hdescribes.fname
  rw [hread _ rfl, lastName_letters (by decide), ← CStr.strlen, ← CStr.strlen, strlen_letters,
    strlen_letters] at hlen
  exact absurd hlen (by decide)

/-- One letter less, and the record describes its file. -/
theorem name_read_back : ∃ o : FileObject,
    kxCryptFile lengthHash fileCallsSample.crypt (letters 254) (some userSample.key.bytes) [] =
      (.ok (some o.file), []) ∧ Describes lengthHash o (letters 254) [] := by
  have hrecord := kxCryptFile_empty (letters 254) userSample.key.bytes
  refine ⟨⟨_, fileCallsSample.pad, fileCallsSample.behind⟩, hrecord, ?_⟩
  refine (record_describes_iff ⟨_, fileCallsSample.pad, fileCallsSample.behind⟩
    (statPath_letters (by decide) (by decide)) hrecord).2 ?_
  rw [lastName_letters (by decide), ← CStr.strlen, strlen_letters]
  decide

end Rkx
