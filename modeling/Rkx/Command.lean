import Mathlib.Data.List.Induction
import Rkx.Lib.Stdio
import Rkx.SplitStr

/-!
# The shell command (`kx_command.c`)

`do_command` prints its arguments twice, each with a space behind it: first to measure how long the text
is, and then into an array of that size, from a running offset on; the last space becomes the NUL.

* `doCommand`: the two passes, the text for `system`, and the elements of `argv` that are read;
* `Wrote`: what the second pass has done after some of the arguments, `Wrote.put` for one more;
* `splits_spaced`: arguments with single spaces between them are split into the same arguments;
* `command_keeps`: the text for `system` is the arguments with single spaces between them, whole.
-/

set_option autoImplicit false

namespace Rkx.Command

open Lib.CInt Lib.CString Lib.Stdio Lib.Words

/-- `"%s "` -/
def argText (arg : CStr) : CStr := arg.append (.lit " ")

/-- An `int` as a `size_t`. -/
def toSize (n : Int32) : UInt64 := n.toInt64.toUInt64

/-- A call of `snprintf` with the offset in `command`, the size that is left and the text. -/
structure Put where
  offset : Int32
  size : UInt64
  text : CStr

/-- The second pass: `offset`, the array `command`, and the calls of `snprintf` so far. -/
structure Writing where
  offset : Int32
  command : List UInt8
  puts : List Put

/-- `offset += snprintf(command + offset, sizeof(command) - offset, "%s ", arg)` -/
def Writing.put (size : UInt64) (w : Writing) (arg : CStr) : Writing :=
  let put : Put := { offset := w.offset, size := size - toSize w.offset, text := argText arg }
  { offset := w.offset + Int32.ofNat put.text.strlen
    command := overwrite w.command w.offset.toInt.toNat (snprintfBytes put.size.toNat put.text)
    puts := w.puts ++ [put] }

/-- What `do_command` does: the length that the first pass measures, the second pass, the array
    `command` as `system` gets it, the path for `chdir`, and the elements of `argv` that are read, in
    order. -/
structure CommandRun where
  totalLength : Int32
  second : Writing
  command : List UInt8
  chdir : Option CStr
  reads : List Nat

/-- `do_command`; `argv i` is the string that element `i` points to, and `stack` are the bytes of the
    array before it is written. -/
def doCommand (stack : Nat → UInt8) (argc : Int32) (argv : Nat → CStr) : CommandRun :=
  let indices := List.range argc.toInt.toNat
  let args := indices.map argv
  let totalLength := args.foldl (fun total arg => total + Int32.ofNat (argText arg).strlen) 0
  let size := toSize (totalLength + 1)
  let second := args.foldl (Writing.put size)
    { offset := 0, command := (List.range size.toNat).map stack, puts := [] }
  let cd := argv 0 = .lit "cd"
  { totalLength
    second
    command := second.command.set (second.offset - 1).toInt.toNat 0
    chdir := if cd then some (argv 1) else none
    reads := indices ++ indices ++ 0 :: if cd then [1] else [] }

/-! ## The two passes -/

/-- The text of the arguments, each with a space behind it. -/
def commandText (args : List CStr) : List UInt8 := args.flatMap fun arg => (argText arg).bytes

theorem commandText_append_singleton (args : List CStr) (arg : CStr) :
    commandText (args ++ [arg]) = commandText args ++ (argText arg).bytes := by
  rw [commandText, List.flatMap_append, List.flatMap_singleton]
  rfl

/-- The first pass measures the text. -/
theorem foldl_strlen (args : List CStr) :
    args.foldl (fun total arg => total + Int32.ofNat (argText arg).strlen) 0 =
      Int32.ofNat (commandText args).length := by
  induction args using List.reverseRecOn with
  | nil => rfl
  | append_singleton args arg ih =>
    rw [List.foldl_append, ih, commandText_append_singleton, List.length_append, Int32.ofNat_add]
    rfl

/-- The whole text and its NUL fit into the size that is left, and into an array of `size` bytes. -/
structure Put.Fits (size : Nat) (put : Put) : Prop where
  whole : put.text.strlen < put.size.toNat
  start : 0 ≤ put.offset.toInt
  inside : put.offset.toInt + put.text.strlen < size

/-- The second pass has written the text of `args` into `size` bytes. -/
structure Wrote (size : Nat) (args : List CStr) (w : Writing) : Prop where
  offset : w.offset = Int32.ofNat (commandText args).length
  length : w.command.length = size
  text : commandText args <+: w.command
  puts : w.puts.map Put.text = args.map argText
  fits : ∀ put ∈ w.puts, put.Fits size

theorem toNat_toSize {n : Nat} (h : n ≤ INT_MAX) : (toSize (Int32.ofNat n)).toNat = n := by
  rw [toSize, toUInt64_ofNat h, UInt64.toNat_ofNat', Nat.mod_eq_of_lt (Nat.lt_of_le_of_lt h (by decide))]

/-- The size that is left behind `n` bytes. -/
theorem toNat_left {n size : Nat} (h : n ≤ size) (hmax : size ≤ INT_MAX) :
    (toSize (Int32.ofNat size) - toSize (Int32.ofNat n)).toNat = size - n := by
  have hn := toNat_toSize (Nat.le_trans h hmax)
  have hsize := toNat_toSize hmax
  rw [UInt64.toNat_sub_of_le _ _ (UInt64.le_iff_toNat_le.2 (by rw [hn, hsize]; exact h)), hn, hsize]

section Put

variable {size : Nat} {args : List CStr} {w : Writing} {arg : CStr}

theorem Wrote.toInt_offset (h : Wrote size args w) (hle : (commandText args).length ≤ INT_MAX) :
    w.offset.toInt = (commandText args).length := by
  rw [h.offset, toInt_ofNat_of_le hle]

/-- The call for the next argument has the size that is left. -/
theorem Wrote.fits_put (h : Wrote size args w) (hlen : (commandText args).length + (argText arg).strlen < size)
    (hmax : size ≤ INT_MAX) :
    Put.Fits size { offset := w.offset, size := toSize (Int32.ofNat size) - toSize w.offset, text := argText arg } := by
  have hoff := h.toInt_offset (by omega)
  have hleft := toNat_left (show (commandText args).length ≤ size by omega) hmax
  rw [← h.offset] at hleft
  constructor
  · show (argText arg).strlen < (toSize (Int32.ofNat size) - toSize w.offset).toNat
    omega
  · show 0 ≤ w.offset.toInt
    omega
  · show w.offset.toInt + (argText arg).strlen < size
    omega

/-- It writes the text and a NUL behind the text so far. -/
theorem Wrote.command_put (h : Wrote size args w) (hlen : (commandText args).length + (argText arg).strlen < size)
    (hmax : size ≤ INT_MAX) {rest : List UInt8} (hrest : commandText args ++ rest = w.command) :
    (w.put (toSize (Int32.ofNat size)) arg).command =
      commandText args ++ ((argText arg).bytes ++ [0]) ++ rest.drop ((argText arg).strlen + 1) := by
  have hfits := (h.fits_put hlen hmax).whole
  unfold Writing.put
  simp only [h.toInt_offset (by omega), Int.toNat_natCast]
  rw [snprintfBytes_of_lt hfits, ← hrest, overwrite_append, List.length_append]
  rfl

/-- **One argument more.** -/
theorem Wrote.put (h : Wrote size args w) (hroom : (commandText (args ++ [arg])).length < size)
    (hmax : size ≤ INT_MAX) : Wrote size (args ++ [arg]) (w.put (toSize (Int32.ofNat size)) arg) := by
  have htext : commandText (args ++ [arg]) = commandText args ++ (argText arg).bytes :=
    commandText_append_singleton args arg
  have hlen : (commandText args).length + (argText arg).strlen < size := by
    rw [htext, List.length_append] at hroom
    exact hroom
  obtain ⟨rest, hrest⟩ := h.text
  have hcommand := h.command_put hlen hmax hrest
  refine ⟨?_, ?_, ?_, ?_, ?_⟩
  · show w.offset + Int32.ofNat (argText arg).strlen = _
    rw [h.offset, htext, List.length_append, Int32.ofNat_add]
    rfl
  · have hl := h.length
    rw [← hrest, List.length_append] at hl
    rw [hcommand]
    simp only [List.length_append, List.length_drop, List.length_singleton]
    change _ + ((argText arg).strlen + 1) + _ = _
    omega
  · rw [hcommand, htext]
    simp only [List.append_assoc, List.prefix_append_right_inj, List.prefix_append]
  · show (w.puts ++ [_]).map Put.text = _
    rw [List.map_append, h.puts, List.map_append]
    rfl
  · intro put hput
    rcases List.mem_append.1 hput with hput | hput
    · exact h.fits put hput
    · rw [List.mem_singleton.1 hput]
      exact h.fits_put hlen hmax

end Put

/-- **The second pass writes the text of all arguments.** -/
theorem wrote_foldl {size : Nat} {command : List UInt8} (hcommand : command.length = size)
    (hmax : size ≤ INT_MAX) (args : List CStr) (hroom : (commandText args).length < size) :
    Wrote size args (args.foldl (Writing.put (toSize (Int32.ofNat size)))
      { offset := 0, command, puts := [] }) := by
  induction args using List.reverseRecOn with
  | nil =>
    exact ⟨rfl, hcommand, List.nil_prefix, rfl, fun put hput => absurd hput List.not_mem_nil⟩
  | append_singleton args arg ih =>
    have hle : (commandText args).length ≤ (commandText (args ++ [arg])).length := by
      rw [commandText_append_singleton, List.length_append]
      exact Nat.le_add_right _ _
    rw [List.foldl_append]
    exact (ih (by omega)).put hroom hmax

/-! ## The text for `system` -/

/-- The arguments with single spaces between them. -/
def spaced (args : List CStr) : List UInt8 := List.intercalate [space] (args.map CStr.bytes)

theorem commandText_eq {args : List CStr} (h : args ≠ []) : commandText args = spaced args ++ [space] := by
  rw [spaced, ← flatMap_append_singleton (mt List.map_eq_nil_iff.1 h), List.flatMap_map]
  rfl

theorem mem_spaced {args : List CStr} (hne : args ≠ []) {b : UInt8} (h : b ∈ spaced args) (hb : b ≠ space) :
    ∃ arg ∈ args, b ∈ arg.bytes := by
  have hmem := List.mem_append_left [space] h
  rw [← commandText_eq hne] at hmem
  obtain ⟨arg, harg, hbyte⟩ := List.mem_flatMap.1 hmem
  exact ⟨arg, harg, (List.mem_append.1 hbyte).resolve_right fun hs => hb (List.mem_singleton.1 hs)⟩

section Run

variable (stack : Nat → UInt8) {argc : Int32} {argv : Nat → CStr} {args : List CStr}

/-- The first pass of `do_command`. -/
theorem doCommand_totalLength (hargs : (List.range argc.toInt.toNat).map argv = args) :
    (doCommand stack argc argv).totalLength = Int32.ofNat (commandText args).length := by
  rw [← foldl_strlen, ← hargs]
  rfl

/-- **The second pass** writes the text into an array of its size, when an `int` can measure it. -/
theorem doCommand_wrote (hargs : (List.range argc.toInt.toNat).map argv = args)
    (hmax : (commandText args).length < INT_MAX) :
    Wrote ((commandText args).length + 1) args (doCommand stack argc argv).second := by
  have hsize : toSize ((doCommand stack argc argv).totalLength + 1) =
      toSize (Int32.ofNat ((commandText args).length + 1)) := by
    rw [doCommand_totalLength stack hargs, Int32.ofNat_add]
    rfl
  have hstack : ((List.range (toSize ((doCommand stack argc argv).totalLength + 1)).toNat).map stack).length =
      (commandText args).length + 1 := by
    rw [List.length_map, List.length_range, hsize, toNat_toSize hmax]
  have hwrote := wrote_foldl hstack hmax args (Nat.lt_succ_self _)
  rw [← hsize, ← hargs] at hwrote
  rw [← hargs]
  exact hwrote

/-- **What `system` gets** are the arguments with single spaces between them. -/
theorem doCommand_text (hargs : (List.range argc.toInt.toNat).map argv = args) (hne : args ≠ [])
    (hmax : (commandText args).length < INT_MAX) :
    (CStr.ofMem (doCommand stack argc argv).command).bytes = spaced args := by
  have hwrote := doCommand_wrote stack hargs hmax
  obtain ⟨rest, hrest⟩ := hwrote.text
  have htext := commandText_eq hne
  have hoff : ((doCommand stack argc argv).second.offset - 1).toInt.toNat = (spaced args).length := by
    rw [hwrote.offset, htext, List.length_append, List.length_singleton, Int32.ofNat_add]
    have hcancel : Int32.ofNat (spaced args).length + Int32.ofNat 1 - 1 = Int32.ofNat (spaced args).length :=
      Int32.add_sub_cancel _ _
    rw [hcancel, toInt_ofNat_of_le, Int.toNat_natCast]
    rw [htext, List.length_append] at hmax
    omega
  -- the NUL takes the place of the last space
  have hcommand : (doCommand stack argc argv).command = spaced args ++ 0 :: rest := by
    show (doCommand stack argc argv).second.command.set
      ((doCommand stack argc argv).second.offset - 1).toInt.toNat 0 = _
    rw [hoff, ← hrest, htext, List.append_assoc, List.set_append_right _ _ (Nat.le_refl _), Nat.sub_self]
    rfl
  have hnul : (0 : UInt8) ∉ spaced args := by
    intro h
    obtain ⟨arg, -, hbyte⟩ := mem_spaced hne h (by decide)
    exact arg.noNul hbyte
  rw [hcommand, CStr.ofMem_append_nul, CStr.ofMem_bytes_of_noNul hnul]

end Run

/-! ## The tokens survive -/

/-- `argv[i]` of an array with the elements `args`; `behind` is what lies behind it. -/
def elem (args : List CStr) (behind : Nat → CStr) (i : Nat) : CStr := args[i]?.getD (behind i)

/-- `do_command` keeps the tokens: the passes agree, nothing is cut, the text is the tokens with single
    spaces between them, and `split_str` finds the same tokens in it. -/
structure KeepsTokens (r : Split) (run : CommandRun) : Prop where
  measured : run.totalLength.toInt = (commandText r.args).length
  agree : run.second.offset = run.totalLength
  size : (run.second.command.length : Int) = run.totalLength.toInt + 1
  puts : run.second.puts.map Put.text = r.args.map argText
  fits : ∀ put ∈ run.second.puts, put.Fits run.second.command.length
  text : (CStr.ofMem run.command).bytes = spaced r.args
  again : ∀ malloc : UInt64 → Bool, malloc (argvSize r.argc) = true →
    ∃ r', Splits malloc (.ofMem run.command) r' ∧ r'.argc = r.argc ∧ r'.args = r.args

theorem map_elem (args : List CStr) (behind : Nat → CStr) :
    (List.range args.length).map (elem args behind) = args := by
  apply List.ext_getElem?
  intro i
  rw [List.getElem?_map]
  rcases Nat.lt_or_ge i args.length with hi | hi
  · rw [List.getElem?_range hi, Option.map_some, elem, List.getElem?_eq_getElem hi]
    rfl
  · rw [List.getElem?_eq_none hi, List.getElem?_eq_none (by rw [List.length_range]; exact hi)]
    rfl

/-- **The tokens with single spaces between them** are split into the same tokens. -/
theorem splits_spaced {malloc : UInt64 → Bool} {line text : CStr} {r : Split} (h : Splits malloc line r)
    (hargv : r.argv.isSome) (hargc : 1 ≤ r.argc.toInt) (htext : text.bytes = spaced r.args)
    {malloc' : UInt64 → Bool} (hmalloc : malloc' (argvSize r.argc) = true) :
    ∃ r', Splits malloc' text r' ∧ r'.argc = r.argc ∧ r'.args = r.args := by
  obtain ⟨hl, hinto⟩ := h.splitInto
  have hlen := hinto.length_args hargv (by omega)
  have hne := hinto.args_ne_nil hargv hargc
  have hwords : words isSpace text.bytes = r.args.map CStr.bytes := by
    rw [htext]
    refine words_intercalate (s := space) ?_
    intro w hw
    obtain ⟨arg, harg, rfl⟩ := List.mem_map.1 hw
    obtain ⟨hword, hbytes⟩ := hinto.word hargv harg
    exact ⟨hword, fun hb => absurd (hbytes space hb).2 (by decide)⟩
  have hnewline : newline ∉ text.bytes := by
    rw [htext]
    intro hb
    obtain ⟨arg, harg, hbyte⟩ := mem_spaced hne hb (by decide)
    exact hl ((hinto.word hargv harg).2 newline hbyte).1
  obtain ⟨r', h', hinto'⟩ := exists_splits malloc' hnewline
  have hargc' : r'.argc = r.argc := by
    have hle : r.args.length ≤ INT_MAX := by
      have hlt := Int32.toInt_lt r.argc
      rw [← hlen] at hlt
      exact Nat.le_of_lt_succ (by exact_mod_cast hlt)
    rw [hinto'.argc, hwords, List.length_map, ← Int32.toInt_inj, toInt_ofNat_of_le hle, hlen]
  have hsome : r'.argv.isSome := by rw [hinto'.argv, hargc', hmalloc]
  have hnat : r.argc.toInt.toNat = r.args.length := by omega
  have hsame := hinto'.args hsome
  rw [hwords, hargc', hnat, ← List.length_map (f := CStr.bytes), List.take_length] at hsame
  exact ⟨r', h', hargc', List.map_injective_iff.2 (fun _ _ => CStr.ext) hsame⟩

/-- **The shell command keeps the tokens**, whatever the array `command` held before and whatever lies
    behind `argv`. -/
theorem command_keeps (stack : Nat → UInt8) (behind : Nat → CStr) {malloc : UInt64 → Bool} {line : CStr}
    {r : Split} (h : Splits malloc line r) (hargv : r.argv.isSome) (hargc : 1 ≤ r.argc.toInt)
    (hmax : (commandText r.args).length < INT_MAX) :
    KeepsTokens r (doCommand stack r.argc (elem r.args behind)) := by
  obtain ⟨-, hinto⟩ := h.splitInto
  have hlen := hinto.length_args hargv (by omega)
  have hne := hinto.args_ne_nil hargv hargc
  have hargs : (List.range r.argc.toInt.toNat).map (elem r.args behind) = r.args := by
    have hnat : r.argc.toInt.toNat = r.args.length := by omega
    rw [hnat, map_elem]
  have htotal := doCommand_totalLength stack hargs
  have hwrote := doCommand_wrote stack hargs hmax
  have htext := doCommand_text stack hargs hne hmax
  have hmeasured : (doCommand stack r.argc (elem r.args behind)).totalLength.toInt =
      (commandText r.args).length := by
    rw [htotal, toInt_ofNat_of_le (Nat.le_of_lt hmax)]
  refine ⟨hmeasured, hwrote.offset.trans htotal.symm, ?_, hwrote.puts, ?_, htext, ?_⟩
  · rw [hmeasured, hwrote.length]
    rfl
  · intro put hput
    rw [hwrote.length]
    exact hwrote.fits put hput
  · intro malloc' hmalloc
    exact splits_spaced h hargv hargc htext hmalloc

/-- `ls -l`, typed with more spaces than needed. -/
def lsLine : CStr := .lit "  ls   -l "

/-- What `split_str` leaves of it. -/
def lsSplit : Split where
  argc := 2
  argv := some [2, 7]
  mem := (CStr.lit "  ls").bytes ++ 0 :: (CStr.lit "  -l").bytes ++ [0, 0]

theorem splits_ls : Splits (fun _ => true) lsLine lsSplit := ⟨4, by rfl⟩

theorem command_keeps_ls :
    KeepsTokens lsSplit (doCommand (fun _ => 0) lsSplit.argc (elem lsSplit.args fun _ => lsLine)) :=
  command_keeps (fun _ => 0) (fun _ => lsLine) splits_ls rfl (by decide) (by decide)

example : CStr.ofMem (doCommand (fun _ => 7) lsSplit.argc (elem lsSplit.args fun _ => lsLine)).command =
    .lit "ls -l" := by decide

end Rkx.Command
