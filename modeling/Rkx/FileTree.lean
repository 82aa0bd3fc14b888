import Mathlib.Logic.Function.Basic
import Rkx.Mkdirp

/-!
# Creating a path in a file tree

A tree of directories and other files, without links, in which `mkdir` fails with `EEXIST` when
anything exists at the name, with `ENOENT` when its parent does not, and with `ENOTDIR` when its parent
is no directory.

* `FileTree.mkdir`: the call; `Grows`: what it can do to a tree;
* `mkdirEach_names_iff`: `kx_mkdirp` returns 0 exactly if something exists at the path afterwards;
* `mkdirp_sound_iff`: so that it says whether the path names a directory, unless the path named
  something else before, or is longer than an `int` can count.
-/

set_option autoImplicit false

namespace Rkx

open Lib.CInt Lib.CString Lib.Collapse Lib.Words

inductive NodeKind where
  | dir
  | other
  deriving DecidableEq

/-- The kinds of the files by their names from the root, and the working directory. -/
structure FileTree where
  kind : List (List UInt8) → Option NodeKind
  cwd : List (List UInt8)
  root : kind [] = some .dir
  parent : ∀ dir name, (kind (dir ++ [name])).isSome = true → kind dir = some .dir

/-- The names that lead to a path without `.` and `..`; the empty path leads nowhere. -/
def locate (cwd : List (List UInt8)) (path : CStr) : Option (List (List UInt8)) :=
  if path.bytes = [] then none
  else
    some ((if path.bytes.head? = some PATH_SEPARATOR then [] else cwd) ++
      words (· == PATH_SEPARATOR) path.bytes)

namespace FileTree

/-- The path names something. -/
def Names (t : FileTree) (path : CStr) : Prop := ∃ p, locate t.cwd path = some p ∧ (t.kind p).isSome = true

/-- The path names a file of the kind. -/
def NamesKind (t : FileTree) (kind : NodeKind) (path : CStr) : Prop :=
  ∃ p, locate t.cwd path = some p ∧ t.kind p = some kind

/-- A new directory in another one. -/
def add (t : FileTree) (dir : List (List UInt8)) (name : List UInt8) (h : t.kind dir = some .dir) :
    FileTree where
  kind := Function.update t.kind (dir ++ [name]) (some .dir)
  cwd := t.cwd
  root := by
    rw [Function.update_of_ne (List.append_ne_nil_of_right_ne_nil _ (List.cons_ne_nil _ _)).symm]
    exact t.root
  parent d n hsome := by
    have hdir : t.kind d = some .dir := by
      by_cases heq : d ++ [n] = dir ++ [name]
      · rw [(List.append_inj' heq rfl).1]
        exact h
      · rw [Function.update_of_ne heq] at hsome
        exact t.parent d n hsome
    by_cases heq : d = dir ++ [name]
    · rw [heq, Function.update_self]
    · rw [Function.update_of_ne heq, hdir]

/-- `mkdir` -/
def mkdir (path : CStr) (_mode : Nat) (t : FileTree) : Option Errno × FileTree :=
  match locate t.cwd path with
  | none => (some ENOENT, t)
  | some p =>
    if (t.kind p).isSome then (some EEXIST, t)
    else
      match hdir : t.kind p.dropLast with
      | none => (some ENOENT, t)
      | some .other => (some ENOTDIR, t)
      | some .dir => (none, t.add p.dropLast (p.getLastD []) hdir)

/-- What exists stays, and what is new is a directory. -/
structure Grows (t t' : FileTree) : Prop where
  cwd : t'.cwd = t.cwd
  kept : ∀ p kind, t.kind p = some kind → t'.kind p = some kind
  other : ∀ p, t'.kind p = some .other → t.kind p = some .other

theorem Grows.refl (t : FileTree) : Grows t t := ⟨rfl, fun _ _ h => h, fun _ h => h⟩

theorem Grows.trans {t t' t'' : FileTree} (h : Grows t t') (h' : Grows t' t'') : Grows t t'' :=
  ⟨h'.cwd.trans h.cwd, fun p kind hp => h'.kept p kind (h.kept p kind hp), fun p hp => h.other p (h'.other p hp)⟩

/-- **A name of a part** of what leads to a file leads to a directory or to it. -/
theorem isSome_of_append (t : FileTree) {p q : List (List UInt8)} (h : (t.kind (p ++ q)).isSome = true) :
    (t.kind p).isSome = true := by
  induction q using List.reverseRecOn with
  | nil => rwa [List.append_nil] at h
  | append_singleton q name ih =>
    rw [← List.append_assoc] at h
    apply ih
    rw [t.parent _ _ h]
    rfl

theorem add_grows (t : FileTree) {dir : List (List UInt8)} {name : List UInt8} (h : t.kind dir = some .dir)
    (hnew : t.kind (dir ++ [name]) = none) : Grows t (t.add dir name h) := by
  refine ⟨rfl, ?_, ?_⟩
  · intro p kind hp
    have hne : p ≠ dir ++ [name] := by
      rintro rfl
      rw [hnew] at hp
      cases hp
    show Function.update t.kind _ _ p = some kind
    rw [Function.update_of_ne hne, hp]
  · intro p hp
    change Function.update t.kind _ _ p = some .other at hp
    by_cases heq : p = dir ++ [name]
    · rw [heq, Function.update_self] at hp
      cases hp
    · rwa [Function.update_of_ne heq] at hp

/-- A name at which nothing exists is one of a directory in front of it. -/
theorem dropLast_append_getLastD {t : FileTree} {p : List (List UInt8)} (h : t.kind p = none) :
    p.dropLast ++ [p.getLastD []] = p := by
  have hne : p ≠ [] := by
    rintro rfl
    rw [t.root] at h
    cases h
  rw [List.getLastD_eq_getLast?, List.getLast?_eq_some_getLast hne, Option.getD_some,
    List.dropLast_concat_getLast hne]

/-- The tree only grows. -/
theorem mkdir_grows (t : FileTree) (path : CStr) (mode : Nat) : Grows t (mkdir path mode t).2 := by
  unfold mkdir
  split
  · exact .refl t
  · rename_i p hp
    split
    · exact .refl t
    · rename_i habsent
      have hnone : t.kind p = none := Option.not_isSome_iff_eq_none.1 habsent
      split
      · exact .refl t
      · exact .refl t
      · rename_i hdir
        exact add_grows t hdir (by rw [dropLast_append_getLastD hnone, hnone])

/-- **A call of `mkdir` fails with anything but `EEXIST`** exactly if nothing exists at the path
    afterwards. -/
theorem mkdir_names_iff (t : FileTree) (path : CStr) (mode : Nat) :
    (mkdir path mode t).1 = none ∨ (mkdir path mode t).1 = some EEXIST ↔ (mkdir path mode t).2.Names path := by
  unfold mkdir
  split
  · rename_i hp
    refine iff_of_false (show ¬ (some ENOENT = none ∨ some ENOENT = some EEXIST) by decide) ?_
    rintro ⟨p, hlocate, -⟩
    rw [hp] at hlocate
    cases hlocate
  · rename_i p hp
    split
    · rename_i hexists
      exact iff_of_true (Or.inr rfl) ⟨p, hp, hexists⟩
    · rename_i habsent
      have hnone : t.kind p = none := Option.not_isSome_iff_eq_none.1 habsent
      have hunnamed : ¬ t.Names path := by
        rintro ⟨q, hlocate, hsome⟩
        rw [hp] at hlocate
        cases hlocate
        exact habsent hsome
      split
      · exact iff_of_false (show ¬ (some ENOENT = none ∨ some ENOENT = some EEXIST) by decide) hunnamed
      · exact iff_of_false (show ¬ (some ENOTDIR = none ∨ some ENOTDIR = some EEXIST) by decide) hunnamed
      · refine iff_of_true (Or.inl rfl) ⟨p, hp, ?_⟩
        show (Function.update t.kind (p.dropLast ++ [p.getLastD []]) (some .dir) p).isSome = true
        rw [dropLast_append_getLastD hnone, Function.update_self]
        rfl

/-! ## `kx_mkdirp` -/

theorem mkdirEach_grows (mode : Nat) (paths : List CStr) (t : FileTree) :
    Grows t (mkdirEach mkdir mode paths t).world := by
  induction paths generalizing t with
  | nil => exact .refl t
  | cons path paths ih =>
    have hstep := mkdir_grows t path mode
    rw [mkdirEach]
    by_cases hrc : (mkdir path mode t).1 = none ∨ (mkdir path mode t).1 = some EEXIST
    · simp only [hrc, if_true]
      exact hstep.trans (ih _)
    · simp only [hrc, if_false]
      exact hstep

/-- The parent of a name that leads to something leads to something. -/
theorem names_take {t : FileTree} {pathname : CStr} {p : Nat} (hp : p ≠ 0)
    (hsep : pathname.bytes[p]? = some PATH_SEPARATOR) (h : t.Names pathname) : t.Names (pathname.take p) := by
  obtain ⟨loc, hloc, hsome⟩ := h
  obtain ⟨hlt, hget⟩ := List.getElem?_eq_some_iff.1 hsep
  have hsplit : pathname.bytes = pathname.bytes.take p ++ PATH_SEPARATOR :: pathname.bytes.drop (p + 1) := by
    rw [← hget, ← List.drop_eq_getElem_cons hlt, List.take_append_drop]
  have hne : pathname.bytes.take p ≠ [] := by
    intro hnil
    have hlen := congrArg List.length hnil
    rw [List.length_take, List.length_nil] at hlen
    omega
  have hhead : (pathname.bytes.take p).head? = pathname.bytes.head? := by
    rw [List.head?_take, if_neg hp]
  have hwords : words (· == PATH_SEPARATOR) pathname.bytes =
      words (· == PATH_SEPARATOR) (pathname.bytes.take p) ++
        words (· == PATH_SEPARATOR) (pathname.bytes.drop (p + 1)) := by
    conv_lhs => rw [hsplit]
    exact words_append_cons (p := (· == PATH_SEPARATOR)) (beq_self_eq_true _) _ _
  have hfull : pathname.bytes ≠ [] := by
    rw [hsplit]
    exact List.append_ne_nil_of_left_ne_nil hne _
  rw [locate, if_neg hfull, Option.some.injEq] at hloc
  rw [← hloc, hwords, ← List.append_assoc] at hsome
  refine ⟨_, ?_, t.isSome_of_append hsome⟩
  rw [locate, CStr.take_bytes, if_neg hne, hhead]

theorem mkdirLast_names_iff (mode : Nat) (pathname : CStr) (r : MkdirpRun FileTree) :
    (mkdirLast mkdir mode pathname r).ret = 0 ↔ (mkdirLast mkdir mode pathname r).world.Names pathname := by
  rw [mkdirLast, ← mkdir_names_iff]
  by_cases hrc : (mkdir pathname mode r.world).1 = none ∨ (mkdir pathname mode r.world).1 = some EEXIST
  · exact iff_of_true (if_pos hrc) hrc
  · have hret : (mkdirLast mkdir mode pathname r).ret = -1 := if_neg hrc
    refine iff_of_false ?_ hrc
    rw [← mkdirLast, hret]
    decide

/-- **`mkdir` of the paths ends with 0** exactly if something exists at the last of them afterwards. -/
theorem mkdirEach_names_iff (mode : Nat) (pathname : CStr) (t : FileTree) :
    (mkdirEach mkdir mode (mkdirpPaths pathname) t).ret = 0 ↔
      (mkdirEach mkdir mode (mkdirpPaths pathname) t).world.Names pathname := by
  induction hn : pathname.strlen using Nat.strong_induction_on generalizing pathname with
  | _ n ih =>
    subst hn
    by_cases hp : backToSeparator pathname.bytes pathname.strlen = 0
    · rw [mkdirpPaths_of_zero _ hp, mkdirEach_singleton]
      exact mkdirLast_names_iff mode pathname _
    · have hsep := backToSeparator_separator _ _ hp
      have hparent := ih _ (by
        show (List.take _ _).length < pathname.strlen
        rw [List.length_take]
        exact Nat.lt_of_le_of_lt (Nat.min_le_left _ _) (backToSeparator_lt _ hp))
        (pathname.take (backToSeparator pathname.bytes pathname.strlen)) rfl
      rw [mkdirpPaths_of_ne_zero _ hp, mkdirEach_append_singleton]
      split
      · rename_i hret
        refine iff_of_false (show ¬ (-1 : Int) = 0 by decide) ?_
        intro hnames
        exact hret (hparent.2 (names_take hp hsep hnames))
      · exact mkdirLast_names_iff mode pathname _

/-- A path and the path with its slashes collapsed lead to one place. -/
theorem locate_collapsed (cwd : List (List UInt8)) (path : CStr) :
    locate cwd (collapsed path) = locate cwd path := by
  unfold locate collapsed
  simp only [collapse_eq_nil_iff, head?_collapse, words_collapse]

/-- `kx_mkdirp` returns, and its result says whether the path names a directory afterwards. -/
def SoundComplete (mode : Nat) (path : CStr) (t : FileTree) : Prop :=
  ∃ r, kxMkdirp mkdir mode path t = some r ∧ (r.ret = 0 ↔ r.world.NamesKind .dir path)

theorem kxMkdirp_names_iff {mode : Nat} {path : CStr} {t : FileTree} (hmax : path.strlen ≤ INT_MAX)
    {r : MkdirpRun FileTree} (hr : kxMkdirp mkdir mode path t = some r) : r.ret = 0 ↔ r.world.Names path := by
  have h := mkdirEach_names_iff mode (collapsed path) t
  cases (kxMkdirp_eq mkdir mode hmax t).symm.trans hr
  rw [h]
  unfold Names
  rw [locate_collapsed]

/-- What is no directory before the call is none afterwards, and nothing else becomes one. -/
theorem kxMkdirp_other_iff {mode : Nat} {path : CStr} {t : FileTree} (hmax : path.strlen ≤ INT_MAX)
    {r : MkdirpRun FileTree} (hr : kxMkdirp mkdir mode path t = some r) :
    r.world.NamesKind .other path ↔ t.NamesKind .other path := by
  have hgrows := mkdirEach_grows mode (mkdirpPaths (collapsed path)) t
  cases (kxMkdirp_eq mkdir mode hmax t).symm.trans hr
  unfold NamesKind
  rw [hgrows.cwd]
  constructor
  · rintro ⟨p, hp, hkind⟩
    exact ⟨p, hp, hgrows.other p hkind⟩
  · rintro ⟨p, hp, hkind⟩
    exact ⟨p, hp, hgrows.kept p _ hkind⟩

theorem names_iff_kind (t : FileTree) (path : CStr) :
    t.Names path ↔ t.NamesKind .dir path ∨ t.NamesKind .other path := by
  constructor
  · rintro ⟨p, hp, hsome⟩
    obtain ⟨kind, hkind⟩ := Option.isSome_iff_exists.1 hsome
    cases kind with
    | dir => exact Or.inl ⟨p, hp, hkind⟩
    | other => exact Or.inr ⟨p, hp, hkind⟩
  · rintro (⟨p, hp, hkind⟩ | ⟨p, hp, hkind⟩) <;> exact ⟨p, hp, by rw [hkind]; rfl⟩

theorem not_dir_of_other {t : FileTree} {path : CStr} (h : t.NamesKind .other path) :
    ¬ t.NamesKind .dir path := by
  rintro ⟨p, hp, hdir⟩
  obtain ⟨q, hq, hother⟩ := h
  cases hp.symm.trans hq
  rw [hdir] at hother
  cases hother

/-- **The result of `kx_mkdirp` is sound and complete** exactly if the path does not name a file that is
    no directory before, and an `int` holds its length. -/
theorem mkdirp_sound_iff (mode : Nat) (path : CStr) (t : FileTree) :
    SoundComplete mode path t ↔ path.strlen ≤ INT_MAX ∧ ¬ t.NamesKind .other path := by
  by_cases hmax : path.strlen ≤ INT_MAX
  · have hr := kxMkdirp_eq mkdir mode hmax t
    have hnames := kxMkdirp_names_iff hmax hr
    rw [and_iff_right hmax, ← kxMkdirp_other_iff hmax hr]
    rw [names_iff_kind] at hnames
    constructor
    · rintro ⟨r, hr', h⟩ hother
      cases hr'.symm.trans hr
      exact not_dir_of_other hother (h.1 (hnames.2 (Or.inr hother)))
    · intro hother
      refine ⟨_, hr, ?_⟩
      rw [hnames, or_iff_left hother]
  · refine iff_of_false ?_ (fun h => hmax h.1)
    rintro ⟨r, hr, -⟩
    cases (kxMkdirp_overflow mkdir mode hmax t).symm.trans hr

/-- A tree whose root has one regular file, `a`. -/
def fileAtRoot : FileTree where
  kind p := if p = [] then some .dir else if p = [[97]] then some .other else none
  cwd := []
  root := rfl
  parent dir name h := by
    by_cases hdir : dir = []
    · rw [hdir]
      rfl
    · have hne : dir ++ [name] ≠ [[97]] := by
        intro heq
        exact hdir (List.append_inj_left' heq rfl)
      rw [if_neg (List.append_ne_nil_of_right_ne_nil dir (List.cons_ne_nil name [])), if_neg hne] at h
      cases h

/-- For a regular file `kx_mkdirp` returns 0. -/
theorem mkdirp_takes_file : (∃ r, kxMkdirp mkdir 511 (.lit "a") fileAtRoot = some r ∧ r.ret = 0) ∧
    ¬ SoundComplete 511 (.lit "a") fileAtRoot := by
  have hmax : (CStr.lit "a").strlen ≤ INT_MAX := by decide
  have hr := kxMkdirp_eq mkdir 511 hmax fileAtRoot
  have hother := (kxMkdirp_other_iff hmax hr).2 ⟨[[97]], by decide, rfl⟩
  have hret := (kxMkdirp_names_iff hmax hr).2 ((names_iff_kind _ _).2 (Or.inr hother))
  refine ⟨⟨_, hr, hret⟩, ?_⟩
  rintro ⟨r, hr', h⟩
  cases hr'.symm.trans hr
  exact not_dir_of_other hother (h.1 hret)

end FileTree

end Rkx
