import Rkx.FileCommand

/-!
# The state behind the options of the file command (`kx_file.c`)

Each of `-e`, `-d` and `-t` looks at the flags of the other two, stores a copy of its argument and sets
its own flag.  What the state holds then is an invariant of the option loop and the options that it has
accepted, on every way out of it.

* `acceptedOpts_eq`: the accepted options are the first run of options of one mode;
* `FileOptState`: at most one flag is set, and the file is the argument of its last option;
* `optState_turn`: an accepted option keeps it;
* `optState_doFile`: it holds behind `parse_options`, so that no handler sees a NULL file.
-/

set_option autoImplicit false

namespace Rkx

open Lib.CString Lib.OptionLoop

/-- The flag of a mode. -/
def FileState.flag (s : FileState) : FileMode → Bool
  | .encrypt => s.isecrypt
  | .decrypt => s.isdecrypt
  | .trace => s.istrace

/-- The option of a mode. -/
def FileMode.opt (file : CStr) : FileMode → FileOpt
  | .encrypt => .e (some file)
  | .decrypt => .d (some file)
  | .trace => .t (some file)

/-- `strdup` has copied the argument of the option, if it has one. -/
def FileOpt.Copied : FileOpt → Prop
  | .e file => file.isSome = true
  | .d file => file.isSome = true
  | .t file => file.isSome = true
  | _ => True

/-- The options that are accepted: those whose turn of the loop goes on. -/
def acceptedOpts (cl : CommandLine FileOpt) : List FileOpt :=
  if cl.lastArgEmpty then [] else taken fileTurn (FileState.init, -1) cl.opts

/-- In mode `m` the options of `m` are accepted, up to the first other one. -/
theorem taken_inMode {m : FileMode} (opts : List FileOpt) {s : FileState × Int} (hs : InMode m s) :
    taken fileTurn s opts = opts.takeWhile (·.mode? = some m) := by
  induction opts generalizing s with
  | nil => rfl
  | cons o opts ih =>
    by_cases hmode : o.mode? = some m
    · obtain ⟨s', hnext, hs'⟩ := fileTurn_mode hs hmode
      rw [taken_next opts hnext, ih hs', List.takeWhile_cons_of_pos (by simpa using hmode)]
    · have hleave : ∃ p, fileTurn s o = .leave p := by
        by_cases hrej : o.RejectedIn m
        · exact ⟨_, fileTurn_rejected hs hrej⟩
        · obtain ⟨p, hp, -⟩ := fileTurn_leave (s := s) hmode hrej
          exact ⟨p, hp⟩
      obtain ⟨p, hp⟩ := hleave
      rw [taken_leave opts hp, List.takeWhile_cons_of_neg (by simpa using hmode)]

/-- **The accepted options** are those of the first one's mode, up to the first other one. -/
theorem acceptedOpts_eq {cl : CommandLine FileOpt} {o : FileOpt} {m : FileMode}
    (hlast : cl.lastArgEmpty = false) (hfirst : cl.opts.head? = some o) (hmode : o.mode? = some m) :
    acceptedOpts cl = cl.opts.takeWhile (·.mode? = some m) := by
  obtain ⟨opts, hopts⟩ := List.head?_eq_some_iff.1 hfirst
  obtain ⟨s, hnext, hs⟩ := fileTurn_init hmode
  rw [acceptedOpts, hlast, if_neg Bool.false_ne_true, hopts, taken_next opts hnext, taken_inMode opts hs,
    List.takeWhile_cons_of_pos (by simpa using hmode)]

/-- The state behind accepted options. -/
structure FileOptState (s : FileState) (accepted : List FileOpt) : Prop where
  exclusive : ∀ m m', s.flag m = true → s.flag m' = true → m = m'
  file_iff : s.file.isSome = true ↔ ∃ m, s.flag m = true
  last : ∀ m, s.flag m = true → ∃ file, s.file = some file ∧
    (accepted.filter (·.mode? = some m)).getLast? = some (m.opt file)

theorem optState_init : FileOptState FileState.init [] where
  exclusive m m' h := by cases m <;> cases h
  file_iff := by
    refine iff_of_false Bool.false_ne_true ?_
    rintro ⟨m, h⟩
    cases m <;> cases h
  last m h := by cases m <;> cases h

/-- The state holds the argument of an option of mode `m`, and no other flag. -/
structure Stored (m : FileMode) (file : CStr) (s : FileState) : Prop where
  file_eq : s.file = some file
  flag_iff : ∀ m', s.flag m' = true ↔ m' = m

/-- Only an option with an argument lets the loop go on. -/
theorem exists_opt {s s' : FileState × Int} {o : FileOpt} (ho : o.Copied) (h : fileTurn s o = .next s') :
    ∃ (m : FileMode) (file : CStr), o = m.opt file := by
  cases o
  case e file =>
    obtain ⟨f, rfl⟩ := Option.isSome_iff_exists.1 ho
    exact ⟨.encrypt, f, rfl⟩
  case d file =>
    obtain ⟨f, rfl⟩ := Option.isSome_iff_exists.1 ho
    exact ⟨.decrypt, f, rfl⟩
  case t file =>
    obtain ⟨f, rfl⟩ := Option.isSome_iff_exists.1 ho
    exact ⟨.trace, f, rfl⟩
  all_goals cases h

/-- It is accepted when the flags of the other two are not set. -/
theorem fileTurn_opt {s s' : FileState × Int} {m : FileMode} {file : CStr}
    (h : fileTurn s (m.opt file) = .next s') : Stored m file s'.1 := by
  cases m
  all_goals
    simp only [FileMode.opt, fileTurn] at h
    split at h
    · cases h
    · cases h
      exact ⟨rfl, fun m => by cases m <;> simp_all [FileState.flag]⟩

/-- **An accepted option keeps the invariant.** -/
theorem optState_turn {s s' : FileState × Int} {o : FileOpt} {accepted : List FileOpt} (ho : o.Copied)
    (h : fileTurn s o = .next s') : FileOptState s'.1 (accepted ++ [o]) := by
  obtain ⟨m, file, rfl⟩ := exists_opt ho h
  obtain ⟨hfile, hflag⟩ := fileTurn_opt h
  constructor
  case exclusive =>
    intro m₁ m₂ h₁ h₂
    rw [(hflag m₁).1 h₁, (hflag m₂).1 h₂]
  case file_iff =>
    rw [hfile]
    exact iff_of_true rfl ⟨m, (hflag m).2 rfl⟩
  case last =>
    intro m' hm'
    have hmode : (m'.opt file).mode? = some m' := by cases m' <;> rfl
    cases (hflag m').1 hm'
    refine ⟨file, hfile, ?_⟩
    rw [List.filter_append, List.filter_cons_of_pos (by simpa using hmode), List.filter_nil,
      List.getLast?_append]
    rfl

/-- An option that leaves the loop touches neither the three flags nor the file. -/
theorem fileTurn_leave_state {s : FileState × Int} {o : FileOpt} {p : Parsed FileState}
    (h : fileTurn s o = .leave p) : p.state.file = s.1.file ∧ p.state.flag = s.1.flag := by
  unfold fileTurn at h
  split at h
  case h_4 | h_5 | h_6 | h_7 =>
    cases h
    exact ⟨rfl, rfl⟩
  all_goals
    split at h
    · cases h
      exact ⟨rfl, rfl⟩
    · cases h

theorem FileOptState.congr {s s' : FileState} {accepted : List FileOpt} (h : FileOptState s accepted)
    (hfile : s'.file = s.file) (hflag : s'.flag = s.flag) : FileOptState s' accepted where
  exclusive := by rw [hflag]; exact h.exclusive
  file_iff := by rw [hfile, hflag]; exact h.file_iff
  last := by rw [hfile, hflag]; exact h.last

/-- **The invariant holds behind `parse_options`.** -/
theorem optState_parse {cl : CommandLine FileOpt} (hcopied : ∀ o ∈ cl.opts, o.Copied) :
    FileOptState (parseFileOptions cl).state (acceptedOpts cl) := by
  unfold parseFileOptions acceptedOpts
  split
  · exact optState_init
  · have hinit : FileOptState ((FileState.init, -1) : FileState × Int).1 [] := optState_init
    refine loop_rule (I := fun (s : FileState × Int) accepted => FileOptState s.1 accepted)
      (R := fun (p : Parsed FileState) accepted => FileOptState p.state accepted) (A := FileOpt.Copied)
      ?_ ?_ ?_ cl.opts hcopied hinit
    · intro s accepted o s' ho _ hturn
      exact optState_turn ho hturn
    · intro s accepted o p h hturn
      obtain ⟨hfile, hflag⟩ := fileTurn_leave_state hturn
      exact h.congr hfile hflag
    · intro s accepted h
      exact h

/-- The handler that `do_file` calls has the file of the state, whose flag is set. -/
theorem doFile_handler {cl : CommandLine FileOpt} {call : FileCall} (h : (doFile cl).2 = some call) :
    call = .fileEncrypt (parseFileOptions cl).state.file ∧ (parseFileOptions cl).state.isecrypt = true ∨
      call = .fileGetfilelist ∨
      call = .fileDecrypt (parseFileOptions cl).state.file ∧ (parseFileOptions cl).state.isdecrypt = true := by
  unfold doFile at h
  dsimp only at h
  split at h
  · cases h
  · split at h
    · cases h
    · dsimp only at h
      split at h
      · rename_i hflag
        cases h
        exact Or.inl ⟨rfl, hflag⟩
      · split at h
        · cases h
          exact Or.inr (Or.inl rfl)
        · split at h
          · rename_i hflag
            cases h
            exact Or.inr (Or.inr ⟨rfl, hflag⟩)
          · cases h

/-- The state behind `parse_options`, and the handlers of `do_file` that would see a NULL file. -/
structure FileOptions (cl : CommandLine FileOpt) : Prop where
  state : FileOptState (parseFileOptions cl).state (acceptedOpts cl)
  encrypt : (doFile cl).2 ≠ some (.fileEncrypt none)
  decrypt : (doFile cl).2 ≠ some (.fileDecrypt none)

/-- **No handler sees a NULL file**, whatever the options are and in whatever order they come. -/
theorem file_options {cl : CommandLine FileOpt} (hcopied : ∀ o ∈ cl.opts, o.Copied) : FileOptions cl := by
  have hstate := optState_parse hcopied
  have hfile : ∀ m, (parseFileOptions cl).state.flag m = true → none ≠ (parseFileOptions cl).state.file := by
    intro m hm
    obtain ⟨file, hfile, -⟩ := hstate.last m hm
    rw [hfile]
    exact (Option.some_ne_none file).symm
  constructor
  case state => exact hstate
  case encrypt =>
    intro h
    rcases doFile_handler h with ⟨hcall, hflag⟩ | hcall | ⟨hcall, -⟩
    · exact hfile .encrypt hflag (FileCall.fileEncrypt.inj hcall)
    · cases hcall
    · cases hcall
  case decrypt =>
    intro h
    rcases doFile_handler h with ⟨hcall, -⟩ | hcall | ⟨hcall, hflag⟩
    · cases hcall
    · cases hcall
    · exact hfile .decrypt hflag (FileCall.fileDecrypt.inj hcall)

/-- `file -e f -x` leaves the loop at the second option with the file of the first. -/
theorem encryptThenInvalid_options : FileOptions encryptThenInvalid :=
  file_options (by simp [encryptThenInvalid, FileOpt.Copied])

end Rkx
