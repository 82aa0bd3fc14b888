import Rkx.Lib.CInt
import Rkx.Lib.Collapse
import Rkx.Lib.CString
import Rkx.Lib.Memory
import Rkx.Lib.OptionLoop

/-!
# Creating a path (`util.c`)

`path_normalize` collapses the slashes of a path while it overwrites a copy of it, and `kx_mkdirp`
creates the parent, which is a shorter path, before the path itself.  (`zstrdup` aborts when it finds no
memory, so that neither ever sees NULL.)  The cursor of `path_normalize` is an `int`, and a read or a write
outside of the strings has no result.  `mkdir` is an argument: what it does to the world and the errno with
which it fails.

* `pathNormalize`, `kxMkdirp`: the two functions;
* `NormalizesAt`, `normalizeTurn_byte`: what one turn of the loop does;
* `pathNormalize_eq`: the normalized path is the path with each run of slashes collapsed to one, if an `int`
  holds the length of the path;
* `kxMkdirp_eq`: the recursion goes forward over the path up to each slash, and then the path;
* `kxMkdirp_trace`: the calls of `mkdir`, which end with the first that fails with anything but `EEXIST`.
-/

set_option autoImplicit false

namespace Rkx

open Lib.CInt Lib.CString Lib.Collapse Lib.Memory Lib.OptionLoop Lib.Scan

def PATH_SEPARATOR : UInt8 := 47

/-! ## `path_normalize` -/

/-- Where the body leaves `i` when it has read the byte `c` there, and the `i++` of the loop. -/
def nextCursor (path : List UInt8) (c : UInt8) (i : Int32) : Option Int32 :=
  if c = PATH_SEPARATOR then (scan? (· == PATH_SEPARATOR) path (i + 1)).map fun j => j - 1 + 1 else some (i + 1)

/-- The cursors of the loop: `i` in `path`, which the body reads, and in `copy`, which the condition reads;
    `ptr` in `copy`, which the body writes. -/
structure Normalizing where
  copy : List UInt8
  i : Int32
  ptr : Nat

/-- A turn of the loop, which leaves with the copy, unless it leaves one of the two strings. -/
def normalizeTurn (path : List UInt8) (s : Normalizing) : Turn Normalizing (Option (List UInt8)) :=
  match at? s.copy s.i with
  | none => .leave none
  | some b =>
    if b = 0 then .leave (store? s.copy s.ptr 0)
    else
      match at? path s.i with
      | none => .leave none
      | some c =>
        match store? s.copy s.ptr c, nextCursor path c s.i with
        | some copy, some i => .next ⟨copy, i, s.ptr + 1⟩
        | _, _ => .leave none

theorem ahead_normalizeTurn {path : List UInt8} {s s' : Normalizing} (h : normalizeTurn path s = .next s') :
    ahead path s'.i < ahead path s.i := by
  unfold normalizeTurn at h
  split at h
  · cases h
  · split at h
    · cases h
    · split at h
      · cases h
      · rename_i c hread
        split at h
        · rename_i copy i _ hnext
          cases h
          have hlt := ahead_lt hread
          unfold nextCursor at hnext
          split at hnext
          · obtain ⟨j, hj, rfl⟩ := Option.map_eq_some_iff.1 hnext
            show ahead path (j - 1 + 1) < _
            rw [Int32.sub_add_cancel]
            exact Nat.lt_of_le_of_lt (ahead_scan? hj) hlt
          · cases hnext
            exact hlt
        · cases h

/-- The loop of `path_normalize`. -/
def normalizeLoop (path : List UInt8) (s : Normalizing) : Option (List UInt8) :=
  match _h : normalizeTurn path s with
  | .leave r => r
  | .next s' => normalizeLoop path s'
termination_by ahead path s.i
decreasing_by exact ahead_normalizeTurn _h

theorem normalizeLoop_leave {path : List UInt8} {s : Normalizing} {r : Option (List UInt8)}
    (h : normalizeTurn path s = .leave r) : normalizeLoop path s = r := by
  rw [normalizeLoop]
  split
  · rename_i hturn
    cases hturn.symm.trans h
    rfl
  · rename_i hturn
    cases hturn.symm.trans h

theorem normalizeLoop_next {path : List UInt8} {s s' : Normalizing} (h : normalizeTurn path s = .next s') :
    normalizeLoop path s = normalizeLoop path s' := by
  rw [normalizeLoop]
  split
  · rename_i hturn
    cases hturn.symm.trans h
  · rename_i hturn
    cases hturn.symm.trans h
    rfl

/-- The state in front of the loop, `copy` being what `zstrdup` returns. -/
def normalizeStart (path : CStr) : Normalizing := ⟨path.bytes ++ [0], 0, 0⟩

/-- `path_normalize` -/
def pathNormalize (path : CStr) : Option CStr :=
  (normalizeLoop (path.bytes ++ [0]) (normalizeStart path)).map CStr.ofMem

/-- The path with each run of slashes collapsed to one. -/
def collapsed (path : CStr) : CStr :=
  ⟨collapse PATH_SEPARATOR path.bytes, fun h => path.noNul ((collapse_sublist _).mem h)⟩

/-- The loop is at index `k` of the path: it writes behind what it reads, and what the condition has still to
    read of the copy are the bytes of the path. -/
structure NormalizesAt (path : CStr) (k : Nat) (s : Normalizing) : Prop where
  i : s.i = Int32.ofNat k
  inside : k ≤ path.strlen
  behind : s.ptr ≤ k
  rest : s.copy.drop k = (path.bytes ++ [0]).drop k

theorem normalizesAt_start (path : CStr) : NormalizesAt path 0 (normalizeStart path) :=
  ⟨rfl, Nat.zero_le _, Nat.le_refl 0, rfl⟩

/-- The index behind the byte `c` at `k`, and behind a run of slashes that begins there. -/
def nextIndex (path : CStr) (c : UInt8) (k : Nat) : Nat :=
  if c = PATH_SEPARATOR then scan (· == PATH_SEPARATOR) path.bytes (k + 1) else k + 1

theorem lt_nextIndex (path : CStr) (c : UInt8) (k : Nat) : k < nextIndex path c k := by
  unfold nextIndex
  split
  · exact le_scan _ _
  · exact Nat.lt_succ_self k

section Turn

variable {path : CStr} {k : Nat} {c : UInt8} {s : Normalizing}

theorem nextIndex_le (hc : path.bytes[k]? = some c) : nextIndex path c k ≤ path.strlen := by
  obtain ⟨hk, -⟩ := List.getElem?_eq_some_iff.1 hc
  unfold nextIndex
  split
  · exact scan_le hk
  · exact hk

/-- The bytes up to the next index are collapsed to the first of them. -/
theorem collapse_drop (hc : path.bytes[k]? = some c) :
    collapse PATH_SEPARATOR (path.bytes.drop k) =
      c :: collapse PATH_SEPARATOR (path.bytes.drop (nextIndex path c k)) := by
  obtain ⟨hk, hget⟩ := List.getElem?_eq_some_iff.1 hc
  rw [List.drop_eq_getElem_cons hk, hget]
  unfold nextIndex
  split
  · rename_i hsep
    rw [hsep, collapse_cons_self, drop_scan]
  · rename_i hsep
    rw [collapse_cons_of_ne hsep]

/-- The cursor goes to the next index; that is one behind `INT_MAX` only when the `i++` of the loop wraps around. -/
theorem nextCursor_ofNat (hc : path.bytes[k]? = some c) (hmax : k ≤ INT_MAX) :
    nextCursor (path.bytes ++ [0]) c (Int32.ofNat k) = some (Int32.ofNat (nextIndex path c k)) ∧
        nextIndex path c k ≤ INT_MAX + 1 ∨
      nextCursor (path.bytes ++ [0]) c (Int32.ofNat k) = none ∧ INT_MAX < nextIndex path c k := by
  obtain ⟨hk, -⟩ := List.getElem?_eq_some_iff.1 hc
  have hsucc : Int32.ofNat k + 1 = Int32.ofNat (k + 1) := (Int32.ofNat_add k 1).symm
  unfold nextCursor nextIndex
  rw [hsucc]
  split
  · have hsame : scan (· == PATH_SEPARATOR) (path.bytes ++ [0]) (k + 1) =
        scan (· == PATH_SEPARATOR) path.bytes (k + 1) := scan_append_cons (by decide) [] hk
    have hle : scan (· == PATH_SEPARATOR) path.bytes (k + 1) ≤ path.bytes.length := scan_le hk
    have hscan := scan?_ofNat (p := (· == PATH_SEPARATOR)) (m := path.bytes ++ [0]) (Nat.succ_le_succ hmax)
      (by rw [hsame, List.length_append]; exact Nat.lt_succ_of_le hle)
    rw [hsame] at hscan
    rw [hscan]
    split
    · rename_i hfits
      left
      refine ⟨?_, Nat.le_succ_of_le hfits⟩
      rw [Option.map_some, Int32.sub_add_cancel]
    · rename_i hwraps
      exact Or.inr ⟨rfl, Nat.lt_of_not_le hwraps⟩
  · exact Or.inl ⟨rfl, Nat.succ_le_succ hmax⟩

theorem NormalizesAt.ptr_lt (h : NormalizesAt path k s) : s.ptr < s.copy.length := by
  have hlen := congrArg List.length h.rest
  have hinside := h.inside
  have hbehind := h.behind
  rw [List.length_drop, List.length_drop, List.length_append, List.length_singleton] at hlen
  unfold CStr.strlen at hinside
  omega

/-- What the condition reads. -/
theorem NormalizesAt.at?_copy (h : NormalizesAt path k s) (hmax : k ≤ INT_MAX) :
    at? s.copy s.i = (path.bytes ++ [0])[k]? := by
  rw [h.i, at?_ofNat hmax, ← List.head?_drop, h.rest, List.head?_drop]

/-- **At the terminator** the loop ends. -/
theorem normalizeTurn_end (h : NormalizesAt path path.strlen s) (hmax : path.strlen ≤ INT_MAX) :
    normalizeTurn (path.bytes ++ [0]) s = .leave (some (s.copy.set s.ptr 0)) := by
  have hread : (path.bytes ++ [0])[path.strlen]? = some 0 := List.getElem?_concat_length
  unfold normalizeTurn
  rw [h.at?_copy hmax, hread]
  show Turn.leave (store? s.copy s.ptr 0) = _
  rw [store?, if_pos h.ptr_lt]

/-- **Behind `INT_MAX`** it leaves the copy. -/
theorem normalizeTurn_wrapped (h : NormalizesAt path (INT_MAX + 1) s) :
    normalizeTurn (path.bytes ++ [0]) s = .leave none := by
  unfold normalizeTurn
  rw [h.i, at?_wrapped]

/-- **In front of the terminator** one byte is stored and the loop goes on at the next index, or the scan of
    the slashes leaves the path. -/
theorem normalizeTurn_byte (h : NormalizesAt path k s) (hc : path.bytes[k]? = some c) (hmax : k ≤ INT_MAX) :
    (∃ s', normalizeTurn (path.bytes ++ [0]) s = .next s' ∧ NormalizesAt path (nextIndex path c k) s' ∧
        nextIndex path c k ≤ INT_MAX + 1 ∧ s'.ptr = s.ptr + 1 ∧ s'.copy.take (s.ptr + 1) = s.copy.take s.ptr ++ [c]) ∨
      normalizeTurn (path.bytes ++ [0]) s = .leave none ∧ INT_MAX < nextIndex path c k := by
  obtain ⟨hk, -⟩ := List.getElem?_eq_some_iff.1 hc
  have hread : (path.bytes ++ [0])[k]? = some c := by rw [List.getElem?_append_left hk, hc]
  have hne : c ≠ 0 := path.ne_zero (List.mem_of_getElem? hc)
  have hpath : at? (path.bytes ++ [0]) s.i = some c := by rw [h.i, at?_ofNat hmax, hread]
  unfold normalizeTurn
  rw [h.at?_copy hmax, hread, hpath]
  simp only [if_neg hne, store?, if_pos h.ptr_lt]
  rw [h.i]
  rcases nextCursor_ofNat hc hmax with ⟨hnext, hle⟩ | ⟨hnext, hlt⟩
  · left
    rw [hnext]
    refine ⟨_, rfl, ?_, hle, rfl, take_set_succ h.ptr_lt c⟩
    have hlt := lt_nextIndex path c k
    have hbehind := h.behind
    exact ⟨rfl, nextIndex_le hc, by show s.ptr + 1 ≤ _; omega,
      drop_set_of_drop_eq h.rest (by omega) (Nat.le_of_lt hlt) c⟩
  · right
    rw [hnext]
    exact ⟨rfl, hlt⟩

end Turn

/-- **The loop** has the collapsed bytes before `k` in front of `ptr`, and ends behind all of them. -/
theorem normalizeLoop_of_le {path : CStr} (hmax : path.strlen ≤ INT_MAX) {k : Nat} {s : Normalizing}
    (h : NormalizesAt path k s) :
    ∃ m, normalizeLoop (path.bytes ++ [0]) s = some m ∧
      s.copy.take s.ptr ++ collapse PATH_SEPARATOR (path.bytes.drop k) ++ [0] <+: m := by
  induction hn : path.strlen - k using Nat.strong_induction_on generalizing k s with
  | _ n ih =>
    subst hn
    have hinside := h.inside
    rcases Nat.lt_or_ge k path.strlen with hk | hk
    · have hc : path.bytes[k]? = some path.bytes[k] := List.getElem?_eq_getElem hk
      have hlt := lt_nextIndex path path.bytes[k] k
      have hle := nextIndex_le hc
      rcases normalizeTurn_byte h hc (by omega) with ⟨s', hturn, hs', -, hptr, htake⟩ | ⟨-, hwraps⟩
      · obtain ⟨m, hm, hprefix⟩ := ih _ (by omega) hs' rfl
        rw [hptr, htake, List.append_assoc (s.copy.take s.ptr), List.singleton_append, ← collapse_drop hc] at hprefix
        exact ⟨m, (normalizeLoop_next hturn).trans hm, hprefix⟩
      · omega
    · obtain rfl : k = path.strlen := Nat.le_antisymm hinside hk
      refine ⟨_, normalizeLoop_leave (normalizeTurn_end h hmax), s.copy.drop (s.ptr + 1), ?_⟩
      have hnil : path.bytes.drop path.strlen = [] := List.drop_length
      rw [hnil, collapse_nil, List.append_nil, set_of_lt h.ptr_lt, List.append_assoc, List.singleton_append]

/-- **A path above `INT_MAX`** is left. -/
theorem normalizeLoop_overflow {path : CStr} (hmax : INT_MAX < path.strlen) {k : Nat} (hk : k ≤ INT_MAX + 1)
    {s : Normalizing} (h : NormalizesAt path k s) : normalizeLoop (path.bytes ++ [0]) s = none := by
  induction hn : path.strlen - k using Nat.strong_induction_on generalizing k s with
  | _ n ih =>
    subst hn
    rcases Nat.lt_or_ge INT_MAX k with hwraps | hle
    · obtain rfl : k = INT_MAX + 1 := Nat.le_antisymm hk hwraps
      exact normalizeLoop_leave (normalizeTurn_wrapped h)
    · have hlt : k < path.strlen := Nat.lt_of_le_of_lt hle hmax
      have hc : path.bytes[k]? = some path.bytes[k] := List.getElem?_eq_getElem hlt
      rcases normalizeTurn_byte h hc hle with ⟨s', hturn, hs', hnext, -, -⟩ | ⟨hturn, -⟩
      · have hforward := lt_nextIndex path path.bytes[k] k
        exact (normalizeLoop_next hturn).trans (ih _ (by omega) hnext hs' rfl)
      · exact normalizeLoop_leave hturn

/-- **The normalized path** has each run of slashes collapsed to one, if an `int` holds the length of the path. -/
theorem pathNormalize_eq (path : CStr) :
    pathNormalize path = if path.strlen ≤ INT_MAX then some (collapsed path) else none := by
  unfold pathNormalize
  split
  · rename_i hmax
    obtain ⟨m, hm, hprefix⟩ := normalizeLoop_of_le hmax (normalizesAt_start path)
    rw [hm, Option.map_some]
    exact congrArg some (CStr.ofMem_of_prefix hprefix)
  · rename_i hmax
    rw [normalizeLoop_overflow (Nat.lt_of_not_le hmax) (Nat.zero_le _) (normalizesAt_start path)]
    rfl

/-! ## `kx_mkdirp` -/

/-- A value of `errno`. -/
abbrev Errno := Nat

def ENOENT : Errno := 2
def EEXIST : Errno := 17
def ENOTDIR : Errno := 20

/-- The loop that moves `p` back from index `i` to a slash, or to the start. -/
def backToSeparator (parent : List UInt8) : Nat → Nat
  | 0 => 0
  | i + 1 => if parent[i + 1]?.getD 0 = PATH_SEPARATOR then i + 1 else backToSeparator parent i

/-- How a call of `kx_mkdirp` ends: its result, the paths that it handed to `mkdir`, in order, and the
    world behind it. -/
structure MkdirpRun (σ : Type) where
  ret : Int
  calls : List CStr
  world : σ

section Run

-- `mkdir` on a world: the errno with which it fails, if it does, and the world behind it
variable {σ : Type} (mkdir : CStr → Nat → σ → Option Errno × σ) (mode : Nat)

/-- The call of `mkdir` at the end of `kx_mkdirp`. -/
def mkdirLast (pathname : CStr) (r : MkdirpRun σ) : MkdirpRun σ :=
  let (rc, world) := mkdir pathname mode r.world
  { ret := if rc = none ∨ rc = some EEXIST then 0 else -1, calls := r.calls ++ [pathname], world }

/-- What it stops at is a slash, unless it is the start. -/
theorem backToSeparator_separator (parent : List UInt8) : ∀ i, backToSeparator parent i ≠ 0 →
    parent[backToSeparator parent i]? = some PATH_SEPARATOR
  | 0, h => absurd rfl h
  | i + 1, h => by
    rw [backToSeparator] at h ⊢
    by_cases hsep : parent[i + 1]?.getD 0 = PATH_SEPARATOR
    · rw [if_pos hsep]
      cases hget : parent[i + 1]? with
      | none =>
        rw [hget] at hsep
        exact absurd hsep (by decide)
      | some b =>
        rw [hget, Option.getD_some] at hsep
        rw [hsep]
    · rw [if_neg hsep] at h ⊢
      exact backToSeparator_separator parent i h

/-- And there is none between it and `i`. -/
theorem backToSeparator_last (parent : List UInt8) : ∀ i j, backToSeparator parent i < j → j ≤ i →
    parent[j]? ≠ some PATH_SEPARATOR
  | 0, j, hlt, hle => absurd (Nat.lt_of_lt_of_le hlt hle) (Nat.lt_irrefl _)
  | i + 1, j, hlt, hle => by
    rw [backToSeparator] at hlt
    by_cases hsep : parent[i + 1]?.getD 0 = PATH_SEPARATOR
    · rw [if_pos hsep] at hlt
      omega
    · rw [if_neg hsep] at hlt
      rcases Nat.lt_or_ge i j with hij | hij
      · obtain rfl : j = i + 1 := by omega
        intro h
        rw [h] at hsep
        exact hsep rfl
      · exact backToSeparator_last parent i j hlt hij

theorem backToSeparator_lt (pathname : CStr) (h : backToSeparator pathname.bytes pathname.strlen ≠ 0) :
    backToSeparator pathname.bytes pathname.strlen < pathname.strlen := by
  obtain ⟨hlt, -⟩ := List.getElem?_eq_some_iff.1 (backToSeparator_separator _ _ h)
  exact hlt

theorem strlen_of_pathNormalize {path pathname : CStr} (h : pathNormalize path = some pathname) :
    pathname.strlen ≤ path.strlen := by
  rw [pathNormalize_eq, Option.ite_none_right_eq_some] at h
  cases h.2
  exact length_collapse_le _

/-- `kx_mkdirp`, with no result when `path_normalize` has none. -/
def kxMkdirp (path : CStr) (world : σ) : Option (MkdirpRun σ) :=
  match _hpathname : pathNormalize path with
  | none => none
  | some pathname =>
    let p := backToSeparator pathname.bytes pathname.strlen
    let parent := pathname.take p
    if _hp : p ≠ 0 then do
      let r ← kxMkdirp parent world
      return if r.ret ≠ 0 then { r with ret := -1 } else mkdirLast mkdir mode pathname r
    else some (mkdirLast mkdir mode pathname { ret := 0, calls := [], world })
termination_by path.strlen
decreasing_by
  have hlt := backToSeparator_lt _ _hp
  have hle := strlen_of_pathNormalize _hpathname
  show (List.take _ _).length < _
  rw [List.length_take]
  exact Nat.lt_of_lt_of_le (Nat.lt_of_le_of_lt (Nat.min_le_left _ _) hlt) hle

theorem kxMkdirp_of_none {path : CStr} (h : pathNormalize path = none) (world : σ) :
    kxMkdirp mkdir mode path world = none := by
  rw [kxMkdirp]
  split
  · rfl
  · rename_i hsome
    cases hsome.symm.trans h

theorem kxMkdirp_of_some {path pathname : CStr} (h : pathNormalize path = some pathname) (world : σ) :
    kxMkdirp mkdir mode path world =
      if backToSeparator pathname.bytes pathname.strlen ≠ 0 then
        (kxMkdirp mkdir mode (pathname.take (backToSeparator pathname.bytes pathname.strlen)) world).map fun r =>
          if r.ret ≠ 0 then { r with ret := -1 } else mkdirLast mkdir mode pathname r
      else some (mkdirLast mkdir mode pathname { ret := 0, calls := [], world }) := by
  rw [kxMkdirp]
  split
  · rename_i hnone
    cases hnone.symm.trans h
  · rename_i hsome
    cases hsome.symm.trans h
    simp only [Option.map_eq_bind, dite_eq_ite]
    rfl

/-! ## The calls of `mkdir` -/

/-- A slash behind the first byte. -/
def isCut (pathname : CStr) (i : Nat) : Bool := 0 < i ∧ pathname.bytes[i]? = some PATH_SEPARATOR

/-- The path up to each slash but one at its start, in order, and then the path. -/
def mkdirpPaths (pathname : CStr) : List CStr :=
  ((List.range pathname.strlen).filter (isCut pathname)).map pathname.take ++ [pathname]

/-- `mkdir` of the paths in order, up to the first call that fails with anything but `EEXIST`; the result
    is 0 if there is none. -/
def mkdirEach : List CStr → σ → MkdirpRun σ
  | [], world => { ret := 0, calls := [], world }
  | path :: paths, world =>
    let (rc, world) := mkdir path mode world
    if rc = none ∨ rc = some EEXIST then
      let r := mkdirEach paths world
      { r with calls := path :: r.calls }
    else { ret := -1, calls := [path], world }

theorem mkdirEach_singleton (path : CStr) (world : σ) :
    mkdirEach mkdir mode [path] world = mkdirLast mkdir mode path { ret := 0, calls := [], world } := by
  unfold mkdirEach mkdirLast
  by_cases hrc : (mkdir path mode world).1 = none ∨ (mkdir path mode world).1 = some EEXIST
  · simp only [hrc, if_true]
    rfl
  · simp only [hrc, if_false]
    rfl

/-- **One more path** at the end. -/
theorem mkdirEach_append_singleton (last : CStr) (paths : List CStr) (world : σ) :
    mkdirEach mkdir mode (paths ++ [last]) world =
      if (mkdirEach mkdir mode paths world).ret ≠ 0 then
        { mkdirEach mkdir mode paths world with ret := -1 }
      else mkdirLast mkdir mode last (mkdirEach mkdir mode paths world) := by
  induction paths generalizing world with
  | nil => exact mkdirEach_singleton mkdir mode last world
  | cons path paths ih =>
    rw [List.cons_append, mkdirEach, mkdirEach]
    by_cases hrc : (mkdir path mode world).1 = none ∨ (mkdir path mode world).1 = some EEXIST
    · simp only [hrc, if_true]
      rw [ih]
      by_cases hret : (mkdirEach mkdir mode paths (mkdir path mode world).2).ret = 0
      · simp only [hret, ne_eq, not_true_eq_false, if_false]
        rfl
      · simp only [hret, ne_eq, not_false_eq_true, if_true]
    · simp only [hrc, if_false]
      rfl

/-- A call fails with anything but `EEXIST`. -/
def Fails (path : CStr) (world : σ) : Prop :=
  (mkdir path mode world).1 ≠ none ∧ (mkdir path mode world).1 ≠ some EEXIST

/-- The world after calls of `mkdir` and nothing else. -/
def worldAfter (paths : List CStr) (world : σ) : σ :=
  paths.foldl (fun world path => (mkdir path mode world).2) world

/-- The run calls `mkdir` for the paths in order; a call fails exactly if it is the last one and the
    result is -1, and else the result is 0 and all paths have been called for. -/
structure Forward (paths : List CStr) (world : σ) (r : MkdirpRun σ) : Prop where
  order : r.calls <+: paths
  world_eq : r.world = worldAfter mkdir mode r.calls world
  fails : ∀ pre path post, r.calls = pre ++ path :: post →
    (Fails mkdir mode path (worldAfter mkdir mode pre world) ↔ post = [] ∧ r.ret = -1)
  ret : r.ret = 0 ∧ r.calls = paths ∨ r.ret = -1 ∧ r.calls ≠ []

theorem forward_mkdirEach (paths : List CStr) (world : σ) :
    Forward mkdir mode paths world (mkdirEach mkdir mode paths world) := by
  induction paths generalizing world with
  | nil =>
    refine ⟨List.prefix_rfl, rfl, ?_, Or.inl ⟨rfl, rfl⟩⟩
    intro pre path post h
    exact absurd h.symm (List.append_ne_nil_of_right_ne_nil pre (List.cons_ne_nil path post))
  | cons path paths ih =>
    rw [mkdirEach]
    by_cases hrc : (mkdir path mode world).1 = none ∨ (mkdir path mode world).1 = some EEXIST
    · obtain ⟨horder, hworld, hfails, hret⟩ := ih (mkdir path mode world).2
      simp only [hrc, if_true]
      refine ⟨List.cons_prefix_cons.2 ⟨rfl, horder⟩, hworld, ?_, ?_⟩
      · intro pre q post h
        cases pre with
        | nil =>
          obtain ⟨rfl, rfl⟩ := List.cons_eq_cons.1 h
          refine iff_of_false (fun hbad => hrc.elim hbad.1 hbad.2) ?_
          rintro ⟨hnil, hneg⟩
          rcases hret with ⟨hzero, -⟩ | ⟨-, hcalls⟩
          · rw [hzero] at hneg
            exact absurd hneg (by decide)
          · exact hcalls hnil
        | cons p pre =>
          obtain ⟨rfl, htail⟩ := List.cons_eq_cons.1 h
          exact hfails pre q post htail
      · rcases hret with ⟨hzero, hcalls⟩ | ⟨hneg, -⟩
        · exact Or.inl ⟨hzero, by rw [hcalls]⟩
        · exact Or.inr ⟨hneg, List.cons_ne_nil _ _⟩
    · simp only [hrc, if_false]
      refine ⟨List.cons_prefix_cons.2 ⟨rfl, List.nil_prefix⟩, rfl, ?_, Or.inr ⟨rfl, List.cons_ne_nil _ _⟩⟩
      intro pre q post h
      cases pre with
      | nil =>
        obtain ⟨rfl, rfl⟩ := List.cons_eq_cons.1 h
        exact iff_of_true (not_or.1 hrc) ⟨rfl, rfl⟩
      | cons p pre =>
        obtain ⟨-, htail⟩ := List.cons_eq_cons.1 h
        exact absurd htail.symm (List.append_ne_nil_of_right_ne_nil pre (List.cons_ne_nil q post))

variable (pathname : CStr)

/-- Without a slash behind the first byte there is one path. -/
theorem mkdirpPaths_of_zero (h : backToSeparator pathname.bytes pathname.strlen = 0) :
    mkdirpPaths pathname = [pathname] := by
  have hnone : (List.range pathname.strlen).filter (isCut pathname) = [] := by
    rw [List.filter_eq_nil_iff]
    intro i hi hcut
    obtain ⟨hpos, hget⟩ := of_decide_eq_true hcut
    exact backToSeparator_last _ _ i (by rwa [h]) (Nat.le_of_lt (List.mem_range.1 hi)) hget
  rw [mkdirpPaths, hnone]
  rfl

/-- The slashes of a path are those before its last one, and the last one. -/
theorem filter_isCut {p : Nat} (hp : p ≠ 0) (hsep : pathname.bytes[p]? = some PATH_SEPARATOR)
    (hlast : ∀ j, p < j → j < pathname.strlen → pathname.bytes[j]? ≠ some PATH_SEPARATOR) :
    (List.range pathname.strlen).filter (isCut pathname) =
      (List.range p).filter (isCut (pathname.take p)) ++ [p] := by
  have hlt : p + 1 ≤ pathname.strlen := (List.getElem?_eq_some_iff.1 hsep).1
  have hrange : List.range pathname.strlen =
      List.range p ++ p :: (List.range (pathname.strlen - (p + 1))).map (p + 1 + ·) := by
    rw [← List.singleton_append, ← List.append_assoc, ← List.range_succ, ← List.range_add,
      Nat.add_sub_cancel' hlt]
  have hbehind : ((List.range (pathname.strlen - (p + 1))).map (p + 1 + ·)).filter (isCut pathname) = [] := by
    rw [List.filter_eq_nil_iff]
    intro i hi hcut
    obtain ⟨j, hj, rfl⟩ := List.mem_map.1 hi
    have hj := List.mem_range.1 hj
    exact hlast _ (by omega) (by omega) (of_decide_eq_true hcut).2
  have hcut : isCut pathname p = true := decide_eq_true ⟨Nat.pos_of_ne_zero hp, hsep⟩
  have hbefore : (List.range p).filter (isCut pathname) = (List.range p).filter (isCut (pathname.take p)) := by
    apply List.filter_congr
    intro i hi
    unfold isCut
    rw [CStr.take_bytes, List.getElem?_take_of_lt (List.mem_range.1 hi)]
  rw [hrange, List.filter_append, List.filter_cons_of_pos hcut, hbehind, hbefore]

/-- **The paths before the last** are those of the parent. -/
theorem mkdirpPaths_of_ne_zero (h : backToSeparator pathname.bytes pathname.strlen ≠ 0) :
    mkdirpPaths pathname =
      mkdirpPaths (pathname.take (backToSeparator pathname.bytes pathname.strlen)) ++ [pathname] := by
  obtain ⟨p, hp⟩ : ∃ p, backToSeparator pathname.bytes pathname.strlen = p := ⟨_, rfl⟩
  have hsep := backToSeparator_separator _ _ h
  have hlast := backToSeparator_last pathname.bytes pathname.strlen
  have hlt := backToSeparator_lt pathname h
  rw [hp] at h hsep hlast hlt ⊢
  have hlen : (pathname.take p).strlen = p := by
    show (pathname.bytes.take p).length = p
    rw [List.length_take]
    exact Nat.min_eq_left (Nat.le_of_lt hlt)
  have htake : ((List.range p).filter (isCut (pathname.take p))).map (pathname.take p).take =
      ((List.range p).filter (isCut (pathname.take p))).map pathname.take := by
    apply List.map_congr_left
    intro i hi
    have hi := List.mem_range.1 (List.mem_filter.1 hi).1
    apply CStr.ext
    rw [CStr.take_bytes, CStr.take_bytes, CStr.take_bytes, List.take_take, Nat.min_eq_left (Nat.le_of_lt hi)]
  rw [mkdirpPaths, mkdirpPaths, hlen, htake,
    filter_isCut pathname h hsep (fun j hj hle => hlast j hj (Nat.le_of_lt hle)), List.map_append]
  rfl

theorem collapsed_take (path : CStr) (n : Nat) : collapsed ((collapsed path).take n) = (collapsed path).take n :=
  CStr.ext (collapse_take (collapse_idem path.bytes) n)

/-- **`kx_mkdirp` goes forward** over the paths, if an `int` holds the length of the path. -/
theorem kxMkdirp_eq {path : CStr} (hmax : path.strlen ≤ INT_MAX) (world : σ) :
    kxMkdirp mkdir mode path world = some (mkdirEach mkdir mode (mkdirpPaths (collapsed path)) world) := by
  induction hn : path.strlen using Nat.strong_induction_on generalizing path world with
  | _ n ih =>
    subst hn
    have hpathname : pathNormalize path = some (collapsed path) := by rw [pathNormalize_eq, if_pos hmax]
    rw [kxMkdirp_of_some mkdir mode hpathname]
    by_cases hp : backToSeparator (collapsed path).bytes (collapsed path).strlen = 0
    · rw [if_neg (not_not_intro hp), mkdirpPaths_of_zero _ hp, mkdirEach_singleton]
    · have hlt := backToSeparator_lt _ hp
      have hle : (collapsed path).strlen ≤ path.strlen := length_collapse_le _
      have hshorter : ((collapsed path).take (backToSeparator (collapsed path).bytes (collapsed path).strlen)).strlen <
          path.strlen := by
        show (List.take _ _).length < path.strlen
        rw [List.length_take]
        exact Nat.lt_of_lt_of_le (Nat.lt_of_le_of_lt (Nat.min_le_left _ _) hlt) hle
      have hparent := ih _ hshorter (Nat.le_trans (Nat.le_of_lt hshorter) hmax) world rfl
      rw [collapsed_take] at hparent
      rw [if_pos hp, hparent, mkdirpPaths_of_ne_zero _ hp, mkdirEach_append_singleton, Option.map_some]

/-- And else it has no result. -/
theorem kxMkdirp_overflow {path : CStr} (hmax : ¬ path.strlen ≤ INT_MAX) (world : σ) :
    kxMkdirp mkdir mode path world = none :=
  kxMkdirp_of_none mkdir mode (by rw [pathNormalize_eq, if_neg hmax]) world

/-- The calls of `kx_mkdirp` are `mkdir` for the path up to each slash, and then for the path, in order, up to the
    first call that fails with anything but `EEXIST`. -/
def Traced (path : CStr) (world : σ) : Prop :=
  ∃ r, kxMkdirp mkdir mode path world = some r ∧ Forward mkdir mode (mkdirpPaths (collapsed path)) world r

/-- **The trace of `kx_mkdirp`** is that, the result being 0 exactly if no call fails so, exactly if an `int` holds
    the length of the path. -/
theorem kxMkdirp_trace (path : CStr) (world : σ) : Traced mkdir mode path world ↔ path.strlen ≤ INT_MAX := by
  constructor
  · rintro ⟨r, hr, -⟩
    by_contra hmax
    rw [kxMkdirp_overflow mkdir mode hmax] at hr
    cases hr
  · intro hmax
    exact ⟨_, kxMkdirp_eq mkdir mode hmax world, forward_mkdirEach mkdir mode _ world⟩

example : mkdirpPaths (collapsed (.lit "//a/b//")) = [.lit "/a", .lit "/a/b", .lit "/a/b/"] := by decide

end Run

/-- A path that is longer than an `int` can count. -/
def longPath : CStr :=
  ⟨List.replicate (INT_MAX + 1) 97, fun h => absurd (List.eq_of_mem_replicate h) (by decide)⟩

theorem not_strlen_longPath_le : ¬ longPath.strlen ≤ INT_MAX := by
  have hlen : longPath.strlen = INT_MAX + 1 := List.length_replicate
  rw [hlen]
  exact Nat.not_succ_le_self INT_MAX

/-- There is no call of `mkdir` at all. -/
theorem long_path_untraced :
    kxMkdirp (fun _ _ calls => (none, calls + 1)) 511 longPath 0 = none ∧
      ¬ Traced (fun _ _ calls => (none, calls + 1)) 511 longPath 0 := by
  have hnone := kxMkdirp_overflow (fun _ _ calls => (none, calls + 1)) 511 not_strlen_longPath_le 0
  refine ⟨hnone, ?_⟩
  rintro ⟨r, hr, -⟩
  cases hnone.symm.trans hr

end Rkx
