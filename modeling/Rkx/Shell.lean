import Rkx.Command
import Rkx.FileCommand
import Rkx.UserCommand

/-!
# The shell (`rkx.c`)

`kx_loop` splits a line, looks the first argument up among the commands and hands the arguments to the
handler.  (A line that is empty or begins with a slash is not split.)  The array of the arguments has no
NULL at its end, so that an element that is not there is not seen as such.

* `Context`: `argc` and an array with `argc` elements;
* `getCmd`, `turnReads`: the lookup, and which elements it and the handlers read;
* `reads_in_range_iff`: they are in the array, unless the line is `cd` alone.
-/

set_option autoImplicit false

namespace Rkx

open Command Lib.CString Lib.OptionLoop Lib.Words

/-- `struct context`, with the strings that the elements of `argv` point to. -/
structure Context where
  argc : Int32
  argv : List CStr
  size : (argv.length : Int) = argc.toInt
  named : argv ≠ []

/-- The handlers of `cmds`. -/
inductive Execute where
  | doUser
  | doFile
  | doCommand
  | shellUsage
  deriving DecidableEq

def cmds : List (CStr × Execute) :=
  [(.lit "user", .doUser), (.lit "file", .doFile), (.lit "ls", .doCommand), (.lit "cd", .doCommand),
    (.lit "help", .shellUsage)]

/-- `get_cmd` -/
def getCmd (name : CStr) : Option Execute := (cmds.find? fun cmd => name = cmd.1).map (·.2)

/-- `getopt_long` with the options of a command: what it yields for an array before it returns -1, and
    the elements that it reads, which are in the array. -/
structure Getopt (ω : Type) where
  opts : List CStr → List ω
  reads : List CStr → List Nat
  room : ∀ argv, opts argv ≠ [] → 2 ≤ argv.length
  bound : ∀ argv, ∀ i ∈ reads argv, i < argv.length

/-- What `parse_options` gets. -/
def Context.commandLine {ω : Type} (ctx : Context) (getopt : Getopt ω) : CommandLine ω where
  argv := ctx.argv
  opts := getopt.opts ctx.argv
  named := ctx.named
  room := getopt.room ctx.argv

section Options

variable {ω σ ρ : Type} (turn : σ → ω → Turn σ ρ) (version : ω → Bool)

/-- `argv[0]` is printed at `-v`, if the loop comes to it. -/
def versionReads : σ → List ω → List Nat
  | _, [] => []
  | s, o :: opts =>
    (if version o then [0] else []) ++
      match turn s o with
      | .next s' => versionReads s' opts
      | .leave _ => []

theorem eq_zero_of_mem_versionReads {i : Nat} {opts : List ω} {s : σ}
    (h : i ∈ versionReads turn version s opts) : i = 0 := by
  induction opts generalizing s with
  | nil => cases h
  | cons o opts ih =>
    rw [versionReads, List.mem_append] at h
    rcases h with h | h
    · split at h
      · exact List.mem_singleton.1 h
      · cases h
    · split at h
      · exact ih h
      · cases h

/-- The elements that `parse_options` reads: the last one, and, unless that is empty, those that the loop
    over the options reads. -/
def parseReads (s : σ) (getopt : Getopt ω) (ctx : Context) : List Nat :=
  (ctx.argc - 1).toInt.toNat ::
    if (ctx.commandLine getopt).lastArgEmpty then []
    else getopt.reads ctx.argv ++ versionReads turn version s (ctx.commandLine getopt).opts

end Options

/-- The elements that one turn of `kx_loop` reads: the one that is looked up, and those of the handler. -/
def turnReads (user : Getopt UserOpt) (file : Getopt FileOpt) (stack : Nat → UInt8) (behind : Nat → CStr)
    (ctx : Context) : List Nat :=
  0 ::
    match getCmd (elem ctx.argv behind 0) with
    | some .doUser => parseReads userTurn (· == .v) (UserState.init, -1) user ctx
    | some .doFile => parseReads fileTurn (· == .v) (FileState.init, -1) file ctx
    | some .doCommand => (Command.doCommand stack ctx.argc (elem ctx.argv behind)).reads
    | some .shellUsage => []
    | none => []

/-! ## Elements that are there -/

theorem Context.argc_pos (ctx : Context) : 0 < ctx.argv.length := List.length_pos_iff.2 ctx.named

theorem Context.toNat_last (ctx : Context) : (ctx.argc - 1).toInt.toNat < ctx.argv.length := by
  have hpos := ctx.argc_pos
  have hsize := ctx.size
  have hlt := ctx.argc.toInt_lt
  have hone : (1 : Int32).toInt = 1 := by decide
  rw [Int32.toInt_sub, hone, Int.bmod_eq_of_le (by omega) (by omega)]
  omega

theorem parseReads_lt {ω σ ρ : Type} (turn : σ → ω → Turn σ ρ) (version : ω → Bool) (s : σ)
    (getopt : Getopt ω) (ctx : Context) {i : Nat} (h : i ∈ parseReads turn version s getopt ctx) :
    i < ctx.argv.length := by
  rcases List.mem_cons.1 h with rfl | h
  · exact ctx.toNat_last
  · split at h
    · cases h
    · rcases List.mem_append.1 h with h | h
      · exact getopt.bound ctx.argv i h
      · rw [eq_zero_of_mem_versionReads turn version h]
        exact ctx.argc_pos

/-- `do_command` reads `argv[1]` when the command is `cd`. -/
theorem doCommand_reads_lt (stack : Nat → UInt8) (ctx : Context) (argv : Nat → CStr)
    (hcd : argv 0 = .lit "cd" → ctx.argv.length ≠ 1) {i : Nat}
    (h : i ∈ (Command.doCommand stack ctx.argc argv).reads) : i < ctx.argv.length := by
  have hpos := ctx.argc_pos
  have hsize := ctx.size
  have hindex : i ∈ List.range ctx.argc.toInt.toNat → i < ctx.argv.length := by
    rw [List.mem_range]
    omega
  simp only [Command.doCommand, List.append_assoc, List.mem_append, List.mem_cons] at h
  rcases h with h | h | rfl | h
  · exact hindex h
  · exact hindex h
  · exact hpos
  · split at h
    · next hname =>
      have hne := hcd hname
      rw [List.mem_singleton.1 h]
      omega
    · cases h

/-- **The elements that a turn reads** are in the array, unless `cd` is the only one. -/
theorem turnReads_lt_iff (user : Getopt UserOpt) (file : Getopt FileOpt) (stack : Nat → UInt8)
    (behind : Nat → CStr) (ctx : Context) :
    (∀ i ∈ turnReads user file stack behind ctx, i < ctx.argv.length) ↔
      ¬ (ctx.argc = 1 ∧ ctx.argv.head? = some (.lit "cd")) := by
  have hsize := ctx.size
  have hpos := ctx.argc_pos
  have hfirst : some (elem ctx.argv behind 0) = ctx.argv.head? := by
    rw [elem, List.head?_eq_getElem?, List.getElem?_eq_getElem hpos]
    rfl
  rw [← hfirst, Option.some_inj]
  constructor
  · rintro hreads ⟨hargc, hcd⟩
    have hmem : 1 ∈ turnReads user file stack behind ctx := by
      have hcmd : getCmd (.lit "cd") = some .doCommand := by decide
      simp [turnReads, hcd, hcmd, Command.doCommand]
    have hlt := hreads 1 hmem
    rw [hargc] at hsize
    have hone : (1 : Int32).toInt = 1 := by decide
    omega
  · intro hcond i hi
    rcases List.mem_cons.1 hi with rfl | hi
    · exact hpos
    · split at hi
      · exact parseReads_lt _ _ _ _ _ hi
      · exact parseReads_lt _ _ _ _ _ hi
      · refine doCommand_reads_lt stack ctx _ ?_ hi
        intro hcd hlen
        refine hcond ⟨?_, hcd⟩
        rw [← Int32.toInt_inj, ← hsize, hlen]
        rfl
      · cases hi
      · cases hi

/-! ## Lines -/

/-- `gctx` behind `split_str`. -/
def Context.Of (ctx : Context) (r : Split) : Prop := r.argv.isSome ∧ ctx.argc = r.argc ∧ ctx.argv = r.args

/-- **A turn of the shell** on a line with an argument at least reads elements of the array, and there is
    an array, exactly if `malloc` finds it and the line is not `cd` alone. -/
theorem reads_in_range_iff (user : Getopt UserOpt) (file : Getopt FileOpt) (stack : Nat → UInt8)
    (behind : Nat → CStr) {malloc : UInt64 → Bool} {line : CStr} {r : Split} (h : Splits malloc line r)
    (hargc : 1 ≤ r.argc.toInt) :
    (∃ ctx : Context, ctx.Of r ∧ ∀ i ∈ turnReads user file stack behind ctx, i < ctx.argv.length) ↔
      malloc (argvSize (Int32.ofNat (words isSpace line.bytes).length)) = true ∧
        ¬ (Int32.ofNat (words isSpace line.bytes).length = 1 ∧
          (words isSpace line.bytes).head? = some (CStr.lit "cd").bytes) := by
  obtain ⟨-, hinto⟩ := h.splitInto
  have hfirst : r.argv.isSome →
      (r.args.head? = some (.lit "cd") ↔
        (words isSpace line.bytes).head? = some (CStr.lit "cd").bytes) := by
    intro hargv
    have hpos : r.argc.toInt.toNat ≠ 0 := by omega
    have hhead := congrArg List.head? (hinto.args hargv)
    rw [List.head?_map, List.head?_take, if_neg hpos] at hhead
    rw [← hhead, Option.map_eq_some_iff]
    constructor
    · intro hcd
      exact ⟨_, hcd, rfl⟩
    · rintro ⟨arg, harg, hbytes⟩
      rw [harg, CStr.ext hbytes]
  rw [← hinto.argc, ← hinto.argv]
  constructor
  · rintro ⟨ctx, ⟨hargv, hargceq, hargs⟩, hreads⟩
    have hcond := (turnReads_lt_iff user file stack behind ctx).1 hreads
    rw [hargceq, hargs, hfirst hargv] at hcond
    exact ⟨hargv, hcond⟩
  · rintro ⟨hargv, hcond⟩
    rw [← hfirst hargv] at hcond
    have hlen := hinto.length_args hargv (by omega)
    have hne := hinto.args_ne_nil hargv hargc
    exact ⟨⟨r.argc, r.args, hlen, hne⟩, ⟨hargv, rfl, rfl⟩,
      (turnReads_lt_iff user file stack behind ⟨r.argc, r.args, hlen, hne⟩).2 hcond⟩

/-- `getopt_long` of the user command where `-g` is the only option. -/
def getoptG : Getopt UserOpt where
  opts argv := if argv.drop 1 = [.lit "-g"] then [.g] else []
  reads argv := (List.range argv.length).drop 1
  room argv h := by
    by_cases hg : argv.drop 1 = [.lit "-g"]
    · have hlen := congrArg List.length hg
      rw [List.length_drop, List.length_singleton] at hlen
      omega
    · exact absurd (if_neg hg) h
  bound argv i h := List.mem_range.1 (List.mem_of_mem_drop h)

/-- `getopt_long` where there are no options. -/
def getoptNone (ω : Type) : Getopt ω where
  opts _ := []
  reads _ := []
  room _ h := absurd rfl h
  bound _ _ h := absurd h List.not_mem_nil

/-- What `split_str` leaves of `user -g`. -/
def userSplit : Split where
  argc := 2
  argv := some [0, 5]
  mem := (CStr.lit "user").bytes ++ 0 :: (CStr.lit "-g").bytes ++ [0]

theorem splits_user : Splits (fun _ => true) (.lit "user -g") userSplit := ⟨3, by rfl⟩

theorem reads_in_range_user :
    ∃ ctx : Context, ctx.Of userSplit ∧
      ∀ i ∈ turnReads getoptG (getoptNone FileOpt) (fun _ => 0) (fun _ => .lit "") ctx, i < ctx.argv.length :=
  (reads_in_range_iff getoptG (getoptNone FileOpt) (fun _ => 0) (fun _ => .lit "") splits_user
    (by decide)).2 ⟨rfl, by decide⟩

/-- What `split_str` leaves of `cd`. -/
def cdSplit : Split where
  argc := 1
  argv := some [0]
  mem := (CStr.lit "cd").bytes ++ [0]

theorem splits_cd : Splits (fun _ => true) (.lit "cd") cdSplit := ⟨2, by rfl⟩

/-- **`cd` alone** makes `do_command` read behind the array. -/
theorem cd_reads_behind :
    Splits (fun _ => true) (.lit "cd") cdSplit ∧ 1 ≤ cdSplit.argc.toInt ∧
      ¬ ∃ ctx : Context, ctx.Of cdSplit ∧
        ∀ i ∈ turnReads (getoptNone UserOpt) (getoptNone FileOpt) (fun _ => 0) (fun _ => .lit "") ctx,
          i < ctx.argv.length := by
  refine ⟨splits_cd, by decide, ?_⟩
  rintro ⟨ctx, ⟨-, hargc, hargs⟩, hreads⟩
  refine (turnReads_lt_iff _ _ _ _ ctx).1 hreads ⟨hargc, ?_⟩
  rw [hargs]
  decide

end Rkx
