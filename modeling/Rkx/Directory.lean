import Rkx.Command
import Rkx.FileList
import Rkx.Lib.Runs

/-!
# The working directory

`do_command` follows a `cd` with `chdir`, and `kx_crypt_file` records the path as it was typed.

* `FileSystem`: the files that paths name from a directory, and where `chdir` leads;
* `ShellStep`: a `cd` command, or a successful `file -e`;
* `Named`: every stored path names the file that was encrypted when its record was made;
* `paths_survive_iff`: in every state of a run, exactly if each `cd` leads to a directory from which
  the relative paths stored so far name the same files.
-/

set_option autoImplicit false

namespace Rkx

open Lib.CString Lib.Runs

variable {Dir : Type}

/-- A path that does not depend on the directory. -/
def IsAbsolute (path : CStr) : Prop := path.bytes.head? = some slash

instance (path : CStr) : Decidable (IsAbsolute path) := inferInstanceAs (Decidable (_ = _))

/-- The directories of a system: the file that a path names from one, and where `chdir` leads, `none`
    when it fails. -/
structure FileSystem (Dir : Type) where
  names : Dir → CStr → Nat
  chdir : Dir → CStr → Option Dir
  absolute : ∀ d d' path, IsAbsolute path → names d path = names d' path

/-- `do_command` with at least one argument: the directory afterwards.  `system` runs the command in
    a shell of its own. -/
def doCommand (fs : FileSystem Dir) (d : Dir) (argv0 argv1 : CStr) : Dir :=
  if argv0 = .lit "cd" then (fs.chdir d argv1).getD d else d

/-- It is where `chdir` leads, when `do_command` calls it. -/
theorem doCommand_eq (fs : FileSystem Dir) (d : Dir) (stack : Nat → UInt8) (argc : Int32) (argv : Nat → CStr) :
    doCommand fs d (argv 0) (argv 1) =
      ((Command.doCommand stack argc argv).chdir.bind (fs.chdir d)).getD d := by
  by_cases hcd : argv 0 = .lit "cd"
  · simp only [doCommand, Command.doCommand, hcd, if_true, Option.bind_some]
  · simp only [doCommand, Command.doCommand, hcd, if_false, Option.bind_none, Option.getD_none]

/-- The shell: its working directory, the session, and for each key the file that was encrypted when
    the record was made. -/
structure Shell (Dir : Type) where
  world : World
  dir : Dir
  made : List UInt8 → Option Nat

section Run

variable (XXH64 : List UInt8 → UInt64 → UInt64) (fs : FileSystem Dir)

/-- A `cd` command, or a successful `file -e`. -/
inductive ShellStep : Shell Dir → Shell Dir → Prop where
  | cd (s : Shell Dir) (dir : CStr) : ShellStep s { s with dir := doCommand fs s.dir (.lit "cd") dir }
  | encrypt {calls : FileCalls} {path : CStr} {user : KxUser} {s : Shell Dir} {w' : World}
      (registered : s.world.client.user = some user)
      (done : Encrypts XXH64 (fs.names s.dir) calls path s.world w')
      (inserted : calls.insert = InsertCalls.success) :
      ShellStep s
        { world := w'
          dir := s.dir
          made := Function.update s.made
            ((recordObject XXH64 calls user path (s.world.files (fs.names s.dir path))).key user.username)
            (some (fs.names s.dir path)) }

/-- Every stored path names, from the working directory, the file that was encrypted. -/
def Named (s : Shell Dir) : Prop :=
  ∀ key path, storedPath s.world key = some path → s.made key = some (fs.names s.dir path)

/-- The relative paths stored before the step name the same files behind it. -/
def KeepsNames (s t : Shell Dir) : Prop :=
  ∀ key path, storedPath s.world key = some path → ¬ IsAbsolute path →
    fs.names t.dir path = fs.names s.dir path

variable {XXH64 fs}

/-- **A `cd` keeps the records named** exactly if the relative paths keep their files. -/
theorem named_cd_iff {s : Shell Dir} (hs : Named fs s) (d : Dir) :
    Named fs { s with dir := d } ↔ KeepsNames fs s { s with dir := d } := by
  constructor
  · intro h key path hpath _
    exact Option.some.inj ((h key path hpath).symm.trans (hs key path hpath))
  · intro h key path hpath
    show s.made key = some (fs.names d path)
    rw [hs key path hpath]
    by_cases habs : IsAbsolute path
    · rw [fs.absolute d s.dir path habs]
    · rw [h key path hpath habs]

/-- **A `file -e` keeps the records named**: its own is made in the working directory. -/
theorem named_encrypt {calls : FileCalls} {path : CStr} {user : KxUser} {s : Shell Dir} {w' : World}
    (hs : Named fs s) (huser : s.world.client.user = some user)
    (h : Encrypts XXH64 (fs.names s.dir) calls path s.world w') (hinsert : calls.insert = InsertCalls.success) :
    Named fs
      { world := w'
        dir := s.dir
        made := Function.update s.made
          ((recordObject XXH64 calls user path (s.world.files (fs.names s.dir path))).key user.username)
          (some (fs.names s.dir path)) } := by
  intro key path' hpath
  rw [h.storedPath_eq huser hinsert] at hpath
  dsimp only
  by_cases hkey : key = (recordObject XXH64 calls user path
      (s.world.files (fs.names s.dir path))).key user.username
  · subst hkey
    rw [Function.update_self] at hpath ⊢
    cases hpath
    rfl
  · rw [Function.update_of_ne hkey] at hpath ⊢
    exact hs key path' hpath

theorem named_step_iff (s t : Shell Dir) (hs : Named fs s) (hstep : ShellStep XXH64 fs s t) :
    Named fs t ↔ KeepsNames fs s t := by
  cases hstep with
  | cd dir => exact named_cd_iff hs _
  | encrypt registered done inserted =>
    exact iff_of_true (named_encrypt hs registered done inserted) (fun _ _ _ _ => rfl)

/-- **Recorded paths survive** exactly if every `cd` of the run leads to a directory from which the
    relative paths stored so far name the same files. -/
theorem paths_survive_iff {s : Shell Dir} {states : List (Shell Dir)} (hs : Named fs s)
    (hrun : (s :: states).IsChain (ShellStep XXH64 fs)) :
    (∀ t ∈ s :: states, Named fs t) ↔ (s :: states).IsChain (KeepsNames fs) :=
  forall_iff_isChain named_step_iff states hs hrun

end Run

/-! ## Samples -/

/-- Directories with one-letter names, all of them under the root `0`. -/
def lettersSystem : FileSystem Nat where
  names d path := if IsAbsolute path then (path.bytes.getD 1 0).toNat else 256 * d + firstByte path
  chdir _ dir := some (firstByte dir)
  absolute d d' path h := by simp only [h, if_true]

/-- The shell of bob's session at the root. -/
def shellSample : Shell Nat := ⟨worldSample, 0, fun _ => none⟩

theorem storedPath_shellSample (key : List UInt8) (path : CStr) :
    storedPath shellSample.world key ≠ some path := by
  have hclient : shellSample.world.client = worldFilled.client := rfl
  rw [storedPath_congr hclient, storedPath_worldFilled]
  exact nofun

theorem named_shellSample : Named lettersSystem shellSample := by
  intro key path hpath
  exact absurd hpath (storedPath_shellSample key path)

/-- `file -e` of a path at the root, and then `cd b`. -/
theorem exists_shellRun (path : CStr) (hne : path.bytes ≠ []) (hshort : path.strlen < 4096) :
    ∃ s key, ShellStep lengthHash lettersSystem shellSample s ∧
      ShellStep lengthHash lettersSystem s { s with dir := 98 } ∧ s.dir = 0 ∧
      storedPath s.world = Function.update (fun _ => none) key (some path) := by
  obtain ⟨w₁, h⟩ := exists_encrypts_sample path (lettersSystem.names 0) hne hshort
  have hstep := @ShellStep.encrypt _ lengthHash lettersSystem _ path userSample shellSample w₁ rfl h rfl
  have hcd : doCommand lettersSystem 0 (.lit "cd") (.lit "b") = 98 := by decide
  have hpaths := h.storedPath_eq (rfl : worldSample.client.user = some userSample) rfl
  have hempty : storedPath worldSample = fun _ => none := by
    funext key
    exact Option.eq_none_iff_forall_ne_some.2 fun path => storedPath_shellSample key path
  rw [hempty] at hpaths
  refine ⟨_, _, hstep, ?_, rfl, hpaths⟩
  rw [← hcd]
  exact .cd _ (.lit "b")

/-- After `file -e a` at the root and `cd b` the recorded path names another file. -/
theorem path_lost : ∃ states, (shellSample :: states).IsChain (ShellStep lengthHash lettersSystem) ∧
    Named lettersSystem shellSample ∧ ∃ t ∈ states, ¬ Named lettersSystem t := by
  obtain ⟨s, key, hencrypt, hcd, hdir, hpaths⟩ := exists_shellRun (.lit "a") (by decide) (by decide)
  have hs : Named lettersSystem s := by
    refine (named_step_iff _ _ named_shellSample hencrypt).2 ?_
    intro key path hpath
    exact absurd hpath (storedPath_shellSample key path)
  refine ⟨[s, { s with dir := 98 }], List.isChain_cons_cons.2 ⟨hencrypt, List.isChain_cons_cons.2
    ⟨hcd, List.isChain_singleton _⟩⟩, named_shellSample, _, List.mem_cons_of_mem _ List.mem_cons_self, ?_⟩
  rw [named_cd_iff hs]
  intro h
  have hsame : lettersSystem.names 98 (.lit "a") = lettersSystem.names s.dir (.lit "a") :=
    h key (.lit "a") (by rw [hpaths, Function.update_self]) (by decide)
  rw [hdir] at hsame
  exact absurd hsame (by decide)

/-- An absolute path survives. -/
theorem paths_survive_sample : ∃ s t, [shellSample, s, t].IsChain (ShellStep lengthHash lettersSystem) ∧
    t.dir ≠ s.dir ∧ ∀ u ∈ [shellSample, s, t], Named lettersSystem u := by
  obtain ⟨s, key, hencrypt, hcd, hdir, hpaths⟩ := exists_shellRun (.lit "/a") (by decide) (by decide)
  have hrun : [shellSample, s, { s with dir := 98 }].IsChain (ShellStep lengthHash lettersSystem) :=
    List.isChain_cons_cons.2 ⟨hencrypt, List.isChain_cons_cons.2 ⟨hcd, List.isChain_singleton _⟩⟩
  have hmoved : 98 ≠ s.dir := by
    rw [hdir]
    decide
  refine ⟨s, _, hrun, hmoved, (paths_survive_iff named_shellSample hrun).2 ?_⟩
  refine List.isChain_cons_cons.2 ⟨?_, List.isChain_cons_cons.2 ⟨?_, List.isChain_singleton _⟩⟩
  · intro key path hpath
    exact absurd hpath (storedPath_shellSample key path)
  · intro key' path hpath hrel
    exfalso
    rw [hpaths] at hpath
    by_cases hkey : key' = key
    · rw [hkey, Function.update_self] at hpath
      cases hpath
      exact hrel (by decide)
    · rw [Function.update_of_ne hkey] at hpath
      cases hpath

end Rkx
