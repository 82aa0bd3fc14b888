import Mathlib.Data.List.TakeWhile

/-!
# C strings

A C string as a value is a list of bytes without NUL (`CStr`); in memory it is the bytes up to
the first NUL (`CStr.ofMem`).

* `strncpyBytes`: what `strncpy` writes, `n` bytes exactly;
* `CStr.snprintf`: what a buffer of `size` bytes holds after `snprintf` of a text;
* `CStr.ofMem_of_prefix`: memory that begins with a terminated string reads back as it.
-/

set_option autoImplicit false

namespace Lib.CString

/-- The value of a C string: bytes without the terminating NUL. -/
@[ext] structure CStr where
  bytes : List UInt8
  noNul : (0 : UInt8) ∉ bytes
  deriving DecidableEq

namespace CStr

def strlen (s : CStr) : Nat := s.bytes.length

/-- The string that a pointer to the start of `m` denotes. -/
def ofMem (m : List UInt8) : CStr :=
  ⟨m.takeWhile (· ≠ 0), fun h => by simpa using List.mem_takeWhile_imp h⟩

/-- A string literal of ASCII characters. -/
def lit (s : String) : CStr := ofMem (s.toList.map fun c => UInt8.ofNat c.toNat)

def append (s t : CStr) : CStr :=
  ⟨s.bytes ++ t.bytes, fun h => (List.mem_append.1 h).elim s.noNul t.noNul⟩

def take (s : CStr) (n : Nat) : CStr := ⟨s.bytes.take n, fun h => s.noNul (List.mem_of_mem_take h)⟩

/-- `snprintf` of the text `s` into a buffer of `size` bytes, read back as a string. -/
def snprintf (size : Nat) (s : CStr) : CStr := s.take (size - 1)

@[simp] theorem append_bytes (s t : CStr) : (s.append t).bytes = s.bytes ++ t.bytes := rfl

@[simp] theorem take_bytes (s : CStr) (n : Nat) : (s.take n).bytes = s.bytes.take n := rfl

@[simp] theorem snprintf_bytes (size : Nat) (s : CStr) :
    (snprintf size s).bytes = s.bytes.take (size - 1) := rfl

theorem ne_zero (s : CStr) {b : UInt8} (h : b ∈ s.bytes) : b ≠ 0 := fun e => s.noNul (e ▸ h)

/-- A string passed through `s` continues in what follows `s`. -/
theorem ofMem_append_bytes (s : CStr) (m : List UInt8) :
    (ofMem (s.bytes ++ m)).bytes = s.bytes ++ (ofMem m).bytes := by
  unfold ofMem
  exact List.takeWhile_append_of_pos (fun b hb => by simpa using s.ne_zero hb)

theorem ofMem_bytes_of_noNul {m : List UInt8} (h : (0 : UInt8) ∉ m) : (ofMem m).bytes = m := by
  unfold ofMem
  rw [List.takeWhile_eq_self_iff]
  intro b hb
  have hne : b ≠ 0 := ne_of_mem_of_not_mem hb h
  simpa using hne

/-- A NUL ends the string that the memory before it denotes. -/
theorem ofMem_append_nul (rest : List UInt8) :
    ∀ m : List UInt8, ofMem (m ++ 0 :: rest) = ofMem m
  | [] => rfl
  | b :: m => by
    have ih := congrArg CStr.bytes (ofMem_append_nul rest m)
    apply CStr.ext
    simp only [ofMem] at ih
    simp only [ofMem, List.cons_append, List.takeWhile_cons, ih]

/-- Memory that begins with `n` bytes of a string reads back as a string that begins with them. -/
theorem ofMem_take {s : CStr} {m : List UInt8} {n : Nat} (h : m.take n = s.bytes.take n) :
    (ofMem m).bytes = s.bytes.take n ++ (ofMem (m.drop n)).bytes := by
  rw [← take_bytes, ← ofMem_append_bytes, take_bytes, ← h, List.take_append_drop]

/-- Memory that begins with `s` and a NUL reads back as `s`. -/
theorem ofMem_of_prefix {s : CStr} {m : List UInt8} (h : s.bytes ++ [0] <+: m) : ofMem m = s := by
  obtain ⟨rest, rfl⟩ := h
  apply CStr.ext
  rw [List.append_assoc, ofMem_append_bytes]
  simp [ofMem]

end CStr

/-- The `n` bytes that `strncpy(dst, s, n)` writes. -/
def strncpyBytes (s : CStr) (n : Nat) : List UInt8 :=
  s.bytes.take n ++ List.replicate (n - s.strlen) 0

@[simp] theorem length_strncpyBytes (s : CStr) (n : Nat) : (strncpyBytes s n).length = n := by
  simp only [strncpyBytes, CStr.strlen, List.length_append, List.length_take, List.length_replicate]
  omega

/-- A string shorter than the field is stored with a NUL behind it. -/
theorem strncpyBytes_prefix {s : CStr} {n : Nat} (h : s.strlen < n) :
    s.bytes ++ [0] <+: strncpyBytes s n := by
  refine ⟨List.replicate (n - s.strlen - 1) 0, ?_⟩
  have hsucc : n - s.strlen = n - s.strlen - 1 + 1 := by omega
  rw [strncpyBytes, List.take_of_length_le (Nat.le_of_lt h), hsucc, List.replicate_succ,
    List.append_assoc, List.singleton_append]
  rfl

theorem strncpyBytes_of_le {s : CStr} {n : Nat} (h : n ≤ s.strlen) :
    strncpyBytes s n = s.bytes.take n := by
  rw [strncpyBytes, Nat.sub_eq_zero_of_le h, List.replicate_zero, List.append_nil]

/-- Memory that begins as `strncpy` leaves it denotes the string exactly if the string is shorter, or
    goes on as the memory does. -/
theorem ofMem_strncpyBytes_iff {s : CStr} {m : List UInt8} {n : Nat} :
    CStr.ofMem (strncpyBytes s n ++ m) = s ↔
      s.strlen < n ∨ n ≤ s.strlen ∧ (CStr.ofMem m).bytes = s.bytes.drop n := by
  rcases Nat.lt_or_ge s.strlen n with h | h
  · have hp := strncpyBytes_prefix h
    have hread : CStr.ofMem (strncpyBytes s n ++ m) = s :=
      CStr.ofMem_of_prefix (hp.trans (List.prefix_append _ _))
    exact iff_of_true hread (Or.inl h)
  · have hread : (CStr.ofMem (strncpyBytes s n ++ m)).bytes = s.bytes.take n ++ (CStr.ofMem m).bytes := by
      rw [strncpyBytes_of_le h, ← CStr.take_bytes, CStr.ofMem_append_bytes]
    rw [CStr.ext_iff, hread, or_iff_right (Nat.not_lt.2 h), and_iff_right h]
    constructor
    · intro heq
      exact List.append_cancel_left (heq.trans (List.take_append_drop n s.bytes).symm)
    · intro heq
      rw [heq, List.take_append_drop]

/-- Memory that begins as `strncpy` leaves it denotes what was copied exactly if the string is shorter,
    or the byte behind is a NUL. -/
theorem ofMem_strncpyBytes_take_iff {s : CStr} {last : UInt8} {m : List UInt8} {n : Nat} :
    CStr.ofMem (strncpyBytes s n ++ last :: m) = s.take n ↔ s.strlen < n ∨ last = 0 := by
  rcases Nat.lt_or_ge s.strlen n with h | h
  · have hread := (ofMem_strncpyBytes_iff (m := last :: m)).2 (Or.inl h)
    have htake : s.take n = s := CStr.ext (List.take_of_length_le (Nat.le_of_lt h))
    rw [hread, htake]
    exact iff_of_true rfl (Or.inl h)
  · have hread : (CStr.ofMem (strncpyBytes s n ++ last :: m)).bytes =
        (s.take n).bytes ++ (CStr.ofMem (last :: m)).bytes := by
      rw [strncpyBytes_of_le h, ← CStr.take_bytes, CStr.ofMem_append_bytes]
    rw [CStr.ext_iff, hread, List.append_right_eq_self, or_iff_right (Nat.not_lt.2 h)]
    by_cases hlast : last = 0 <;> simp [CStr.ofMem, hlast]

/-- The bytes that `snprintf` of the text `s` writes into a buffer of `size` bytes. -/
def snprintfBytes (size : Nat) (s : CStr) : List UInt8 :=
  if size = 0 then [] else s.bytes.take (size - 1) ++ [0]

/-- A text shorter than the buffer is written with a NUL behind it. -/
theorem snprintfBytes_of_lt {s : CStr} {size : Nat} (h : s.strlen < size) :
    snprintfBytes size s = s.bytes ++ [0] := by
  rw [snprintfBytes, if_neg (Nat.ne_zero_of_lt h), List.take_of_length_le (Nat.le_sub_one_of_lt h)]

/-- The characters of a decimal number are digits. -/
theorem digit_of_mem_toDigits {n : Nat} {b : UInt8}
    (h : b ∈ (Nat.toDigits 10 n).map fun c => UInt8.ofNat c.toNat) : 48 ≤ b.toNat ∧ b.toNat ≤ 57 := by
  obtain ⟨c, hc, rfl⟩ := List.mem_map.1 h
  have hd := Nat.isDigit_of_mem_toDigits (by omega) (by omega) hc
  obtain ⟨hlo, hhi⟩ : 48 ≤ c.toNat ∧ c.toNat ≤ 57 := Char.isDigit_iff_toNat.1 hd
  rw [UInt8.toNat_ofNat', Nat.mod_eq_of_lt (by omega)]
  exact ⟨hlo, hhi⟩

/-- `%lu` and `%d` of a natural number. -/
def decimal (n : Nat) : CStr where
  bytes := (Nat.toDigits 10 n).map fun c => UInt8.ofNat c.toNat
  noNul := by
    intro h
    obtain ⟨hlo, -⟩ := digit_of_mem_toDigits h
    rw [UInt8.toNat_zero] at hlo
    omega

theorem decimal_ne_nil (n : Nat) : (decimal n).bytes ≠ [] :=
  mt List.map_eq_nil_iff.1 Nat.toDigits_ne_nil

/-- Different numbers have different texts. -/
theorem decimal_injective {m n : Nat} (h : (decimal m).bytes = (decimal n).bytes) : m = n := by
  have hchars : ∀ k, (decimal k).bytes.map (fun b => Char.ofNat b.toNat) = Nat.toDigits 10 k := by
    intro k
    rw [decimal, List.map_map]
    refine (List.map_congr_left ?_).trans (List.map_id _)
    intro c hc
    have hd := Nat.isDigit_of_mem_toDigits (by omega) (by omega) hc
    obtain ⟨-, hhi⟩ : 48 ≤ c.toNat ∧ c.toNat ≤ 57 := Char.isDigit_iff_toNat.1 hd
    show Char.ofNat (UInt8.ofNat c.toNat).toNat = c
    rw [UInt8.toNat_ofNat', Nat.mod_eq_of_lt (by omega), Char.ofNat_toNat]
  have hdigits := congrArg (List.map fun b : UInt8 => Char.ofNat b.toNat) h
  rw [hchars, hchars] at hdigits
  rw [← @Nat.ofDigitChars_ten_toDigits m, hdigits, Nat.ofDigitChars_ten_toDigits]

end Lib.CString
