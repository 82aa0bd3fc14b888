import Rkx.Lib.CInt
import Rkx.Lib.CString
import Rkx.Lib.Terminal

/-!
# The width of the terminal (`linenoise.c`)

`getColumns` takes the width that `ioctl` reports.  Without one it asks the terminal, which answers through the
input.

* `Read`, `nextRead`: the input, one outcome of `read` after the other;
* `getCursorPosition`: a question and its answer; `getColumns`: the width;
* `getColumns_suffix`: what is left of the input; `getColumns_answered`: a terminal that answers is understood.

A number that no `int` holds has no result (`none`): its conversion is undefined.
-/

set_option autoImplicit false

namespace Rkx

open Lib.CInt Lib.CString Lib.Terminal

/-- The outcome of `read(fd, &c, 1)`; `stale` is what `c` holds when nothing was read. -/
inductive Read where
  | byte (c : UInt8)
  | eof (stale : UInt8)
  | error
  deriving DecidableEq

/-- What `c` holds, unless `read` returned -1. -/
def Read.stored : Read → Option UInt8
  | .byte c => some c
  | .eof stale => some stale
  | .error => none

/-- The next outcome; behind the list the input has ended. -/
def nextRead : List Read → Read × List Read
  | [] => (.eof 0, [])
  | r :: reads => (r, reads)

/-! ## The question -/

/-- `"\x1b[6n"` -/
def reportCursor : List UInt8 := [27, 91, 54, 110]

/-- `"\x1b[999C"` -/
def rightMargin : List UInt8 := [27, 91, 57, 57, 57, 67]

/-- `"\x1b[%dD"` -/
def cursorLeft (n : Nat) : List UInt8 := [27, 91] ++ (decimal n).bytes ++ [68]

/-- `while (i < sizeof(buf)-1)`: the bytes in front of an `R`, `n` at most, and what is left of the input. -/
def readAnswer : Nat → List Read → List UInt8 × List Read
  | 0, reads => ([], reads)
  | n + 1, reads =>
    match nextRead reads with
    | (.byte c, reads) =>
      if c = 82 then ([], reads)
      else
        let (answer, reads) := readAnswer n reads
        (c :: answer, reads)
    | (_, reads) => ([], reads)

/-- `isspace` -/
def isWhite (b : UInt8) : Bool := b = 32 || (9 ≤ b && b ≤ 13)

def isDigit (b : UInt8) : Bool := 48 ≤ b && b ≤ 57

/-- The conversion `%d`: a number, and the text behind it. -/
def scanDecimal (text : List UInt8) : Option (Int × List UInt8) :=
  let text := text.dropWhile isWhite
  let negative := text.head? = some 45
  let text := if text.head? = some 45 ∨ text.head? = some 43 then text.tail else text
  let digits := text.takeWhile isDigit
  if digits = [] then none
  else some (if negative then -(number digits 0 : Int) else number digits 0, text.drop digits.length)

/-- The values of an `int`. -/
abbrev IsInt (n : Int) : Prop := -2147483648 ≤ n ∧ n ≤ INT_MAX

/-- `if (sscanf(buf+2,"%d;%d",&rows,&cols) != 2) return -1; return cols;` -/
def scanPosition (text : List UInt8) : Option Int :=
  match scanDecimal text with
  | none => some (-1)
  | some (rows, text) =>
    if IsInt rows then
      match text with
      | 59 :: text =>
        match scanDecimal text with
        | none => some (-1)
        | some (cols, _) => if IsInt cols then some cols else none
      | _ => some (-1)
    else none

/-- The result of a question, what is left of the input, and what has been handed to `write`. -/
structure Answer where
  value : Int
  reads : List Read
  out : List UInt8
  deriving DecidableEq

/-- `getCursorPosition` behind `out`; `write` tells whether the one behind so many bytes succeeds. -/
def getCursorPosition (write : Nat → Bool) (reads : List Read) (out : List UInt8) : Option Answer :=
  if write out.length then
    let (answer, reads) := readAnswer 31 reads
    match answer with
    | 27 :: 91 :: text => (scanPosition (CStr.ofMem text).bytes).map fun cols => ⟨cols, reads, out ++ reportCursor⟩
    | _ => some ⟨-1, reads, out ++ reportCursor⟩
  else some ⟨-1, reads, out ++ reportCursor⟩

/-! ## The width -/

/-- The width, what is left of the input, and what has been handed to `write`. -/
structure Columns where
  cols : Nat
  reads : List Read
  out : List UInt8
  deriving DecidableEq

/-- `return 80`, or the width that was found, which becomes a `size_t`. -/
def Answer.columns (a : Answer) : Columns where
  cols := if a.value = -1 then 80 else (a.value % 18446744073709551616).toNat
  reads := a.reads
  out := a.out

/-- The part of `getColumns` that asks the terminal. -/
def queryColumns (write : Nat → Bool) (reads : List Read) : Option Columns := do
  let start ← getCursorPosition write reads []
  if start.value = -1 then return start.columns
  else
    let asked := start.out ++ rightMargin
    if write start.out.length then
      let right ← getCursorPosition write start.reads asked
      if right.value ≠ -1 ∧ right.value > start.value then
        -- back to where the cursor was
        if IsInt (right.value - start.value) then
          return { right with out := right.out ++ cursorLeft (right.value - start.value).toNat }.columns
        else none
      else return right.columns
    else return ⟨80, start.reads, asked⟩

/-- `getColumns`; `winsize` is the width that `ioctl` reports, `none` if it fails. -/
def getColumns (winsize : Option UInt16) (write : Nat → Bool) (reads : List Read) : Option Columns :=
  match winsize with
  | some col => if col = 0 then queryColumns write reads else some ⟨col.toNat, reads, []⟩
  | none => queryColumns write reads

theorem getColumns_reported {w : UInt16} (hw : 0 < w.toNat) (write : Nat → Bool) (reads : List Read) :
    getColumns (some w) write reads = some ⟨w.toNat, reads, []⟩ := by
  have hne : w ≠ 0 := by
    rintro rfl
    cases hw
  unfold getColumns
  simp only
  rw [if_neg hne]

/-! ## What is left of the input -/

theorem nextRead_suffix (reads : List Read) : (nextRead reads).2 <:+ reads := by
  cases reads with
  | nil => exact List.suffix_rfl
  | cons r reads => exact List.suffix_cons r reads

variable {write : Nat → Bool} {reads : List Read} {out : List UInt8}

/-- The keys of a text. -/
def typed (text : List UInt8) : List Read := text.map .byte

/-- `ESC [ rows ; cols R` -/
def positionReport (rows cols : Nat) : List UInt8 :=
  27 :: 91 :: ((decimal rows).bytes ++ 59 :: (decimal cols).bytes)

theorem number_decimal (n : Nat) : number (decimal n).bytes 0 = n := by
  have hfold : ∀ (l : List Char), (∀ c ∈ l, c.isDigit) → ∀ k,
      number (l.map fun c => UInt8.ofNat c.toNat) k = Nat.ofDigitChars 10 l k := by
    intro l
    induction l with
    | nil => exact fun _ k => Nat.ofDigitChars_nil.symm
    | cons c l ih =>
      intro hl k
      obtain ⟨-, hhi⟩ : 48 ≤ c.toNat ∧ c.toNat ≤ 57 := Char.isDigit_iff_toNat.1 (hl c List.mem_cons_self)
      have hc : (UInt8.ofNat c.toNat).toNat = c.toNat := by
        rw [UInt8.toNat_ofNat', Nat.mod_eq_of_lt (by omega)]
      rw [Nat.ofDigitChars_cons, ← ih fun d hd => hl d (List.mem_cons_of_mem _ hd)]
      show number _ (10 * k + ((UInt8.ofNat c.toNat).toNat - 48)) = _
      rw [hc]
      rfl
  exact (hfold _ (fun c hc => Nat.isDigit_of_mem_toDigits (by omega) (by omega) hc) 0).trans
    Nat.ofDigitChars_ten_toDigits

theorem digits_decimal (n : Nat) : ∀ b ∈ (decimal n).bytes, 48 ≤ b.toNat ∧ b.toNat ≤ 57 :=
  fun _ hb => digit_of_mem_toDigits hb

theorem length_decimal_le {n : Nat} (h : n ≤ INT_MAX) : (decimal n).bytes.length ≤ 10 := by
  have hlt : n < 10 ^ 10 := Nat.lt_of_le_of_lt h (by decide)
  show ((Nat.toDigits 10 n).map _).length ≤ 10
  rw [List.length_map]
  exact (Nat.length_toDigits_le_iff (by omega) (by omega)).2 hlt

/-- **A number is read back** in front of what is not a digit. -/
theorem scanDecimal_decimal (n : Nat) {rest : List UInt8} (hrest : ∀ b ∈ rest.head?, isDigit b = false) :
    scanDecimal ((decimal n).bytes ++ rest) = some ((n : Int), rest) := by
  have hdigits := digits_decimal n
  have hall : ∀ b ∈ (decimal n).bytes, isDigit b = true := by
    intro b hb
    simpa [isDigit, UInt8.le_iff_toNat_le] using hdigits b hb
  have htake : ((decimal n).bytes ++ rest).takeWhile isDigit = (decimal n).bytes := by
    rw [List.takeWhile_append_of_pos hall]
    cases rest with
    | nil => exact List.append_nil _
    | cons b rest =>
      rw [List.takeWhile_cons_of_neg (by simp [hrest b rfl])]
      exact List.append_nil _
  obtain ⟨d, ds, hd⟩ := List.exists_cons_of_ne_nil (decimal_ne_nil n)
  have hlow := hdigits d (hd ▸ List.mem_cons_self)
  have hblank : isWhite d = false := by
    simp [isWhite, UInt8.le_iff_toNat_le, ← UInt8.toNat_inj]
    omega
  have hdrop : ((decimal n).bytes ++ rest).dropWhile isWhite = (decimal n).bytes ++ rest := by
    rw [hd, List.cons_append, List.dropWhile_cons_of_neg (by simp [hblank])]
  have hhead : ∀ c : UInt8, c.toNat < 48 → ((decimal n).bytes ++ rest).head? ≠ some c := by
    intro c hc heq
    rw [hd, List.cons_append, List.head?_cons, Option.some_inj] at heq
    rw [heq] at hlow
    omega
  unfold scanDecimal
  simp only [hdrop]
  rw [if_neg (not_or.2 ⟨hhead 45 (by decide), hhead 43 (by decide)⟩), htake, if_neg (decimal_ne_nil n),
    if_neg (hhead 45 (by decide)), number_decimal, List.drop_left]

theorem scanPosition_report {rows cols : Nat} (hrows : rows ≤ INT_MAX) (hcols : cols ≤ INT_MAX) :
    scanPosition ((decimal rows).bytes ++ 59 :: (decimal cols).bytes) = some (cols : Int) := by
  have hsecond := @scanDecimal_decimal cols [] (fun b hb => by cases hb)
  rw [List.append_nil] at hsecond
  unfold scanPosition
  rw [scanDecimal_decimal rows (fun b hb => by cases hb; rfl)]
  simp only [hsecond]
  rw [if_pos ⟨by omega, by omega⟩, if_pos ⟨by omega, by omega⟩]

theorem readAnswer_typed {n : Nat} {text : List UInt8} (hend : (82 : UInt8) ∉ text) (hlen : text.length < n)
    (rest : List Read) : readAnswer n (typed text ++ .byte 82 :: rest) = (text, rest) := by
  induction text generalizing n with
  | nil =>
    obtain ⟨n, rfl⟩ : ∃ k, n = k + 1 := ⟨n - 1, by rw [List.length_nil] at hlen; omega⟩
    rfl
  | cons c text ih =>
    obtain ⟨n, rfl⟩ : ∃ k, n = k + 1 := ⟨n - 1, by omega⟩
    obtain ⟨hc, htext⟩ := not_or.1 (mt List.mem_cons.2 hend)
    show (if c = 82 then _ else _) = _
    rw [if_neg (Ne.symm hc)]
    show (c :: (readAnswer n (typed text ++ .byte 82 :: rest)).1, (readAnswer n (typed text ++ .byte 82 :: rest)).2) = _
    rw [ih htext (Nat.lt_of_succ_lt_succ hlen)]

/-- **One question that is answered.** -/
theorem getCursorPosition_report {rows cols : Nat} (hwrite : write out.length = true) (hrows : rows ≤ INT_MAX)
    (hcols : cols ≤ INT_MAX) (rest : List Read) :
    getCursorPosition write (typed (positionReport rows cols) ++ .byte 82 :: rest) out =
      some ⟨cols, rest, out ++ reportCursor⟩ := by
  have hdigit : ∀ {n} {b : UInt8}, b ∈ (decimal n).bytes → 48 ≤ b.toNat ∧ b.toNat ≤ 57 := digits_decimal _ _
  have hmem : ∀ b ∈ (decimal rows).bytes ++ 59 :: (decimal cols).bytes, 48 ≤ b.toNat ∧ b.toNat ≤ 59 := by
    intro b hb
    rw [List.mem_append, List.mem_cons] at hb
    obtain hb | rfl | hb := hb
    · have h := hdigit hb
      omega
    · decide
    · have h := hdigit hb
      omega
  have hend : (82 : UInt8) ∉ positionReport rows cols := by
    intro h
    rw [positionReport, List.mem_cons, List.mem_cons] at h
    obtain h | h | h := h
    · cases h
    · cases h
    · exact absurd (hmem 82 h).2 (by decide)
  have hnul : (0 : UInt8) ∉ (decimal rows).bytes ++ 59 :: (decimal cols).bytes := by
    intro h
    exact absurd (hmem 0 h).1 (by decide)
  have hlen : (positionReport rows cols).length < 31 := by
    have hrow := length_decimal_le hrows
    have hcol := length_decimal_le hcols
    simp only [positionReport, List.length_cons, List.length_append]
    omega
  unfold getCursorPosition
  rw [if_pos hwrite, readAnswer_typed hend hlen]
  simp only [positionReport]
  rw [CStr.ofMem_bytes_of_noNul hnul, scanPosition_report hrows hcols]
  rfl

/-- **A terminal that answers** with its cursor and, from the right margin, with its width is understood, and the cursor
    goes back to where it was. -/
theorem getColumns_answered (hwrite : ∀ n, write n = true) {winsize : Option UInt16} (hsize : ∀ w ∈ winsize, w = 0)
    {rows start width : Nat} (hrows : rows ≤ INT_MAX) (hstart : start ≤ INT_MAX) (hwidth : width ≤ INT_MAX)
    (rest : List Read) :
    getColumns winsize write (typed (positionReport rows start) ++ .byte 82 ::
        (typed (positionReport rows width) ++ .byte 82 :: rest)) =
      some ⟨width, rest, reportCursor ++ rightMargin ++ reportCursor ++
        if start < width then cursorLeft (width - start) else []⟩ := by
  have hquery : ∀ reads, getColumns winsize write reads = queryColumns write reads := by
    intro reads
    unfold getColumns
    cases winsize with
    | none => rfl
    | some w =>
      simp only
      rw [if_pos (hsize w rfl)]
  have hcols : ∀ {n : Nat} (reads : List Read) (out : List UInt8), n ≤ INT_MAX →
      Answer.columns ⟨n, reads, out⟩ = ⟨n, reads, out⟩ := by
    intro n reads out hn
    have hmax : INT_MAX < 18446744073709551616 := by decide
    unfold Answer.columns
    simp only
    rw [if_neg (by omega)]
    congr 1
    omega
  rw [hquery]
  unfold queryColumns
  rw [getCursorPosition_report (hwrite _) hrows hstart]
  simp only [Option.bind_eq_bind, Option.bind_some, hwrite]
  rw [if_neg (by omega), getCursorPosition_report (hwrite _) hrows hwidth]
  simp only [Option.bind_some, List.nil_append]
  by_cases hlt : start < width
  · have hback : (width : Int) - start = ((width - start : Nat) : Int) := by omega
    rw [if_pos trivial, if_pos ⟨by omega, by omega⟩, if_pos ⟨by omega, by omega⟩, if_pos hlt, hback, Int.toNat_natCast]
    exact congrArg some (hcols _ _ hwidth)
  · rw [if_pos trivial, if_neg (by omega), if_neg hlt, List.append_nil]
    exact congrArg some (hcols _ _ hwidth)

/-- The cursor in the fifth of eighty columns. -/
theorem getColumns_answered_80 :
    getColumns none (fun _ => true) (typed (positionReport 24 5) ++ .byte 82 ::
        (typed (positionReport 24 80) ++ .byte 82 :: [.byte 13])) =
      some ⟨80, [.byte 13], reportCursor ++ rightMargin ++ reportCursor ++ cursorLeft 75⟩ :=
  getColumns_answered (fun _ => rfl) (fun _ hw => by cases hw) (by decide) (by decide) (by decide) [.byte 13]

end Rkx
