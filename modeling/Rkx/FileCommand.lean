import Rkx.CommandLine

/-!
# The file command (`kx_file.c`)

`parse_options` keeps its return code in a variable that every accepted option sets to 0 and the
error exit returns as it stands; `do_file` gives up only on -1 and -2.

* `parseFileOptions`, `doFile`: the option loop, and which handler is called with which file;
* `parseFileOptions_err_cases`: the command lines that end in the error exit with the code 0;
* `rejected_does_nothing_iff`: a rejected command does nothing, unless its options begin with an
  accepted `-e`, `-d` or `-t` and the one that is rejected comes later.
-/

set_option autoImplicit false

namespace Rkx

open Lib.CString Lib.OptionLoop

inductive FileOpt where
  | e (file : Option CStr)
  | d (file : Option CStr)
  | t (file : Option CStr)
  | l
  | h
  | v
  | invalid
  deriving DecidableEq

/-- `struct state` of the file command. -/
structure FileState where
  isecrypt : Bool
  isdecrypt : Bool
  istrace : Bool
  isgetlist : Bool
  file : Option CStr
  deriving DecidableEq

/-- `init_state` -/
def FileState.init : FileState := ⟨false, false, false, false, none⟩

/-- One turn of the loop of `parse_options`, on the state and the return code. -/
def fileTurn (s : FileState × Int) : FileOpt → Turn (FileState × Int) (Parsed FileState)
  | .e file =>
    if s.1.isdecrypt ∨ s.1.istrace then .leave ⟨s.1, s.2, true⟩
    else .next ({ s.1 with file, isecrypt := true }, 0)
  | .d file =>
    if s.1.isecrypt ∨ s.1.istrace then .leave ⟨s.1, s.2, true⟩
    else .next ({ s.1 with file, isdecrypt := true }, 0)
  | .t file =>
    if s.1.isecrypt ∨ s.1.isdecrypt then .leave ⟨s.1, s.2, true⟩
    else .next ({ s.1 with file, istrace := true }, 0)
  | .l => .leave ⟨{ s.1 with isgetlist := true }, 0, false⟩
  | .v => .leave ⟨s.1, -2, false⟩
  | .h => .leave ⟨s.1, -2, false⟩
  | .invalid => .leave ⟨s.1, s.2, true⟩

/-- `parse_options` of the file command. -/
def parseFileOptions (cl : CommandLine FileOpt) : Parsed FileState :=
  if cl.lastArgEmpty then ⟨FileState.init, -1, true⟩
  else loop fileTurn (fun s => ⟨s.1, s.2, cl.missingOperand⟩) (FileState.init, -1) cl.opts

/-- The handlers of `do_file` with `state->file`. -/
inductive FileCall where
  | fileEncrypt (file : Option CStr)
  | fileDecrypt (file : Option CStr)
  | fileGetfilelist
  deriving DecidableEq

/-- `do_file`: the return code, which no handler changes, and the handler that is called. -/
def doFile (cl : CommandLine FileOpt) : Int × Option FileCall :=
  let p := parseFileOptions cl
  if p.ret = -2 then (0, none)
  else if p.ret = -1 then (-1, none)
  else
    (p.ret,
      if p.state.isecrypt then some (.fileEncrypt p.state.file)
      else if p.state.isgetlist then some .fileGetfilelist
      else if p.state.isdecrypt then some (.fileDecrypt p.state.file)
      else none)

/-! ## The mode of a run of options -/

inductive FileMode where
  | encrypt
  | decrypt
  | trace
  deriving DecidableEq

def FileOpt.mode? : FileOpt → Option FileMode
  | .e _ => some .encrypt
  | .d _ => some .decrypt
  | .t _ => some .trace
  | _ => none

/-- The state after accepted options of mode `m`. -/
structure InMode (m : FileMode) (s : FileState × Int) : Prop where
  isecrypt : s.1.isecrypt = (m == .encrypt)
  isdecrypt : s.1.isdecrypt = (m == .decrypt)
  istrace : s.1.istrace = (m == .trace)
  ret : s.2 = 0

/-- An option that `parse_options` rejects in mode `m`. -/
def FileOpt.RejectedIn (m : FileMode) (o : FileOpt) : Prop :=
  o = .invalid ∨ ∃ m', o.mode? = some m' ∧ m' ≠ m

theorem fileTurn_init {o : FileOpt} {m : FileMode} (h : o.mode? = some m) :
    ∃ s, fileTurn (FileState.init, -1) o = .next s ∧ InMode m s := by
  cases o <;> cases h <;> exact ⟨_, rfl, by constructor <;> rfl⟩

/-- An option of the mode is accepted. -/
theorem fileTurn_mode {o : FileOpt} {m : FileMode} {s : FileState × Int} (hs : InMode m s)
    (h : o.mode? = some m) : ∃ s', fileTurn s o = .next s' ∧ InMode m s' := by
  obtain ⟨he, hd, ht, -⟩ := hs
  cases o <;> cases h
  case e file =>
    refine ⟨({ s.1 with file, isecrypt := true }, 0), if_neg ?_, ⟨rfl, hd, ht, rfl⟩⟩
    simp [hd, ht]
  case d file =>
    refine ⟨({ s.1 with file, isdecrypt := true }, 0), if_neg ?_, ⟨he, rfl, ht, rfl⟩⟩
    simp [he, ht]
  case t file =>
    refine ⟨({ s.1 with file, istrace := true }, 0), if_neg ?_, ⟨he, hd, rfl, rfl⟩⟩
    simp [he, hd]

/-- A rejected one goes to the error exit, with the code of the options before it. -/
theorem fileTurn_rejected {o : FileOpt} {m : FileMode} {s : FileState × Int} (hs : InMode m s)
    (h : o.RejectedIn m) : fileTurn s o = .leave ⟨s.1, 0, true⟩ := by
  obtain ⟨he, hd, ht, hret⟩ := hs
  rcases h with rfl | ⟨m', hm', hne⟩
  · simp [fileTurn, hret]
  · cases o <;> cases hm' <;> cases m <;> simp_all [fileTurn]

/-- Any other option leaves the loop without an error. -/
theorem fileTurn_leave {o : FileOpt} {m : FileMode} {s : FileState × Int} (hmode : o.mode? ≠ some m)
    (h : ¬ o.RejectedIn m) : ∃ p, fileTurn s o = .leave p ∧ p.err = false := by
  cases o with
  | e file => exact absurd (Or.inr ⟨_, rfl, fun heq => hmode (heq ▸ rfl)⟩) h
  | d file => exact absurd (Or.inr ⟨_, rfl, fun heq => hmode (heq ▸ rfl)⟩) h
  | t file => exact absurd (Or.inr ⟨_, rfl, fun heq => hmode (heq ▸ rfl)⟩) h
  | l => exact ⟨_, rfl, rfl⟩
  | h => exact ⟨_, rfl, rfl⟩
  | v => exact ⟨_, rfl, rfl⟩
  | invalid => exact absurd (Or.inl rfl) h

/-- **The loop in mode `m`** ends in the error exit exactly if an option rejected in `m` follows
    options of `m`, and then its code is 0. -/
theorem loop_inMode {m : FileMode} {done : FileState × Int → Parsed FileState}
    (hdone : ∀ s, (done s).err = false) (opts : List FileOpt) {s : FileState × Int}
    (hs : InMode m s) :
    ((loop fileTurn done s opts).err = true ↔ Until (·.mode? = some m) (·.RejectedIn m) opts) ∧
      ((loop fileTurn done s opts).err = true → (loop fileTurn done s opts).ret = 0) := by
  induction opts generalizing s with
  | nil => simp [hdone s]
  | cons o opts ih =>
    rw [until_cons]
    by_cases hmode : o.mode? = some m
    · obtain ⟨s', hnext, hs'⟩ := fileTurn_mode hs hmode
      have hnot : ¬ o.RejectedIn m := by
        rintro (rfl | ⟨m', hm', hne⟩)
        · cases hmode
        · exact hne (Option.some.inj (hm'.symm.trans hmode))
      rw [loop_next opts hnext]
      simpa [hmode, hnot] using ih hs'
    · by_cases hrej : o.RejectedIn m
      · rw [loop_leave opts (fileTurn_rejected hs hrej)]
        simp [hrej]
      · obtain ⟨p, hleave, herr⟩ := fileTurn_leave (s := s) hmode hrej
        rw [loop_leave opts hleave]
        simp [hmode, hrej, herr]

/-! ## Rejected command lines -/

/-- The options begin with an accepted `-e`, `-d` or `-t` and are rejected at a later one. -/
def RejectedAfterMode : List FileOpt → Prop
  | [] => False
  | o :: opts => ∃ m, o.mode? = some m ∧ Until (·.mode? = some m) (·.RejectedIn m) opts

/-- If `parse_options` goes to its error exit, no handler is called and the code is not zero. -/
def RejectedDoesNothing (cl : CommandLine FileOpt) : Prop :=
  (parseFileOptions cl).err = true → (doFile cl).2 = none ∧ (doFile cl).1 ≠ 0

theorem doFile_of_ret_zero {cl : CommandLine FileOpt} (h : (parseFileOptions cl).ret = 0) :
    (doFile cl).1 = 0 := by
  simp [doFile, h]

theorem doFile_of_ret_neg {cl : CommandLine FileOpt} (h : (parseFileOptions cl).ret = -1) :
    doFile cl = (-1, none) := by
  simp [doFile, h]

/-- **The error exit** returns 0 behind an accepted mode and else -1. -/
theorem parseFileOptions_err_cases (cl : CommandLine FileOpt) :
    ((parseFileOptions cl).err = true → (parseFileOptions cl).ret = -1) ∧
        ¬ (cl.lastArgEmpty = false ∧ RejectedAfterMode cl.opts) ∨
      ((parseFileOptions cl).err = true ∧ (parseFileOptions cl).ret = 0) ∧
        cl.lastArgEmpty = false ∧ RejectedAfterMode cl.opts := by
  unfold parseFileOptions
  cases hlast : cl.lastArgEmpty with
  | true => simp
  | false =>
    simp only [Bool.false_eq_true, if_false, true_and]
    cases hopts : cl.opts with
    | nil => simp [RejectedAfterMode]
    | cons o opts =>
      have hdone : ∀ s : FileState × Int, (⟨s.1, s.2, cl.missingOperand⟩ : Parsed FileState).err = false :=
        fun _ => cl.missingOperand_eq_false (hopts ▸ List.mem_cons_self)
      cases hmode : o.mode? with
      | none =>
        have hnot : ¬ RejectedAfterMode (o :: opts) := by simp [RejectedAfterMode, hmode]
        left
        refine ⟨?_, hnot⟩
        cases o <;> simp_all [loop, fileTurn, FileOpt.mode?]
      | some m =>
        obtain ⟨s, hnext, hs⟩ := fileTurn_init hmode
        have hiff : RejectedAfterMode (o :: opts) ↔
            Until (·.mode? = some m) (·.RejectedIn m) opts := by
          simp [RejectedAfterMode, hmode]
        rw [loop_next opts hnext, hiff, ← (loop_inMode hdone opts hs).1]
        have hret := (loop_inMode hdone opts hs).2
        cases herr : (loop fileTurn _ s opts).err with
        | false => simp
        | true => simp [hret herr]

/-- **A rejected file command does nothing**, exactly unless the option that is rejected comes after
    an accepted mode. -/
theorem rejected_does_nothing_iff (cl : CommandLine FileOpt) :
    RejectedDoesNothing cl ↔ ¬ (cl.lastArgEmpty = false ∧ RejectedAfterMode cl.opts) := by
  rcases parseFileOptions_err_cases cl with ⟨herr, hnot⟩ | ⟨⟨herr, hret⟩, hrej⟩
  · refine iff_of_true (fun h => ?_) hnot
    rw [doFile_of_ret_neg (herr h)]
    exact ⟨rfl, by decide⟩
  · exact iff_of_false (fun h => (h herr).2 (doFile_of_ret_zero hret)) (fun h => h hrej)

/-- `file -e f -x` -/
def encryptThenInvalid : CommandLine FileOpt where
  argv := [.lit "file", .lit "-e", .lit "f", .lit "-x"]
  opts := [.e (some (.lit "f")), .invalid]
  named := by simp
  room := by simp

/-- The rejected command `file -e f -x` encrypts `f` and returns 0. -/
theorem encryptThenInvalid_encrypts :
    (parseFileOptions encryptThenInvalid).err = true ∧
      doFile encryptThenInvalid = (0, some (.fileEncrypt (some (.lit "f")))) := by
  decide

end Rkx
