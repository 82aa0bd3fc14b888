import Rkx.Mkdirp

/-!
# The cursors of `path_normalize` (`util.c`)

The condition of the loop reads the copy that the body overwrites, and the body itself steps forward
over a run of slashes and back again.  Each turn is recorded: the state in front of it and the one behind it.

* `normalizeTurns`: the turns of the loop, `normalizeLoop_last`;
* `Sound`, `sound_normalizeTurns`: the turns take the bytes of the path one after the other, write behind what
  they read and stop at the terminator;
* `path_normalize_collapses`: what the function returns and how its loop gets there.
-/

set_option autoImplicit false

namespace Rkx

open Lib.CInt Lib.CString Lib.Collapse Lib.OptionLoop Lib.Scan

/-! ## The turns of the loop -/

/-- A turn that goes on. -/
structure NormalizeTurn where
  before : Normalizing
  after : Normalizing

/-- The indices of the path that the turn takes. -/
def NormalizeTurn.visited (t : NormalizeTurn) : List Nat :=
  List.range' t.before.i.toNatClampNeg (t.after.i.toNatClampNeg - t.before.i.toNatClampNeg)

/-- The indices at which the body reads `path`: for the byte it stores, for the `if`, and for the `while` up to
    the byte that ends it. -/
def NormalizeTurn.reads (path : List UInt8) (t : NormalizeTurn) : List Nat :=
  let i := t.before.i.toNatClampNeg
  i :: i :: if path[i]? = some PATH_SEPARATOR then List.range' (i + 1) (t.after.i.toNatClampNeg - i) else []

/-- The turns of the loop, in order. -/
def normalizeTurns (path : List UInt8) (s : Normalizing) : List NormalizeTurn :=
  match _h : normalizeTurn path s with
  | .leave _ => []
  | .next s' => ⟨s, s'⟩ :: normalizeTurns path s'
termination_by ahead path s.i
decreasing_by exact ahead_normalizeTurn _h

theorem normalizeTurns_leave {path : List UInt8} {s : Normalizing} {r : Option (List UInt8)}
    (h : normalizeTurn path s = .leave r) : normalizeTurns path s = [] := by
  rw [normalizeTurns]
  split
  · rfl
  · rename_i hturn
    cases hturn.symm.trans h

theorem normalizeTurns_next {path : List UInt8} {s s' : Normalizing} (h : normalizeTurn path s = .next s') :
    normalizeTurns path s = ⟨s, s'⟩ :: normalizeTurns path s' := by
  rw [normalizeTurns]
  split
  · rename_i hturn
    cases hturn.symm.trans h
  · rename_i hturn
    cases hturn.symm.trans h
    rfl

/-- The state in which the loop is left. -/
def normalizeLast (path : List UInt8) (s : Normalizing) : Normalizing :=
  ((normalizeTurns path s).getLast?.map NormalizeTurn.after).getD s

theorem normalizeLast_next {path : List UInt8} {s s' : Normalizing} (h : normalizeTurn path s = .next s') :
    normalizeLast path s = normalizeLast path s' := by
  unfold normalizeLast
  rw [normalizeTurns_next h, List.getLast?_cons]
  cases (normalizeTurns path s').getLast? <;> rfl

/-- **The turns are those of the loop**: it is left in the state behind the last of them, with the result of
    the function. -/
theorem normalizeLoop_last (path : List UInt8) (s : Normalizing) :
    normalizeTurn path (normalizeLast path s) = .leave (normalizeLoop path s) := by
  induction s using normalizeTurns.induct path with
  | case1 s r hleave =>
    rw [normalizeLoop_leave hleave, normalizeLast, normalizeTurns_leave hleave]
    exact hleave
  | case2 s s' hnext ih => rw [normalizeLoop_next hnext, normalizeLast_next hnext, ih]

/-! ## Where they are -/

/-- The turns from `k` on take the bytes of a path of `n` bytes, each in one turn and in order; they read up to
    the terminator at most, and write no further than they have read. -/
structure Sound (path : CStr) (k : Nat) (turns : List NormalizeTurn) (last : Normalizing) : Prop where
  visits : turns.flatMap NormalizeTurn.visited = List.range' k (path.strlen - k)
  inside : ∀ t ∈ turns, ∀ j ∈ t.reads (path.bytes ++ [0]), j ≤ path.strlen
  behind : ∀ t ∈ turns, t.before.ptr ≤ t.before.i.toNatClampNeg
  ends : last.i.toNatClampNeg = path.strlen ∧ last.ptr ≤ path.strlen

section Sound

variable {path : CStr} {k n : Nat} {s s' : Normalizing}

theorem NormalizesAt.index (h : NormalizesAt path k s) (hmax : k ≤ INT_MAX) : s.i.toNatClampNeg = k := by
  rw [h.i]
  exact Int32.toNatClampNeg_ofNat_of_lt (Nat.lt_succ_of_le hmax)

/-- What a turn that goes on from `k` to `n` takes and reads. -/
theorem turn_inside (hmax : path.strlen ≤ INT_MAX) (h : NormalizesAt path k s) (h' : NormalizesAt path n s')
    (hlt : k < n) :
    NormalizeTurn.visited ⟨s, s'⟩ = List.range' k (n - k) ∧
      ∀ j ∈ NormalizeTurn.reads (path.bytes ++ [0]) ⟨s, s'⟩, j ≤ path.strlen := by
  have hk := h.index (Nat.le_trans h.inside hmax)
  have hn := h'.index (Nat.le_trans h'.inside hmax)
  have hinside := h'.inside
  unfold NormalizeTurn.visited NormalizeTurn.reads
  simp only [hk, hn]
  refine ⟨trivial, ?_⟩
  intro j hj
  rcases List.mem_cons.1 hj with rfl | hj
  · omega
  rcases List.mem_cons.1 hj with rfl | hj
  · omega
  split at hj
  · rw [List.mem_range'_1] at hj
    omega
  · cases hj

/-- **The turns of the loop**, while the write position is not past the read position. -/
theorem sound_normalizeTurns (hmax : path.strlen ≤ INT_MAX) (h : NormalizesAt path k s) :
    Sound path k (normalizeTurns (path.bytes ++ [0]) s) (normalizeLast (path.bytes ++ [0]) s) := by
  induction hn : path.strlen - k using Nat.strong_induction_on generalizing k s with
  | _ n ih =>
    subst hn
    rcases Nat.lt_or_ge k path.strlen with hk | hk
    · have hc : path.bytes[k]? = some path.bytes[k] := List.getElem?_eq_getElem hk
      have hlt := lt_nextIndex path path.bytes[k] k
      have hle := nextIndex_le hc
      rcases normalizeTurn_byte h hc (by omega) with ⟨s', hturn, hs', -⟩ | ⟨-, hwraps⟩
      · obtain ⟨hvisited, hreads⟩ := turn_inside hmax h hs' hlt
        have hrest := ih _ (by omega) hs' rfl
        rw [normalizeTurns_next hturn, normalizeLast_next hturn]
        constructor
        case visits =>
          have hcut : path.strlen - k = nextIndex path path.bytes[k] k - k +
              (path.strlen - nextIndex path path.bytes[k] k) := by omega
          have hstart : nextIndex path path.bytes[k] k = k + (nextIndex path path.bytes[k] k - k) := by omega
          rw [List.flatMap_cons, hvisited, hrest.visits, hcut, ← List.range'_append_1, ← hstart]
        case inside => exact List.forall_mem_cons.2 ⟨hreads, hrest.inside⟩
        case behind =>
          refine List.forall_mem_cons.2 ⟨?_, hrest.behind⟩
          rw [h.index (Nat.le_trans h.inside hmax)]
          exact h.behind
        case ends => exact hrest.ends
      · omega
    · obtain rfl : k = path.strlen := Nat.le_antisymm h.inside hk
      rw [normalizeLast, normalizeTurns_leave (normalizeTurn_end h hmax)]
      exact ⟨by rw [Nat.sub_self]; rfl, by simp, by simp, h.index hmax, h.behind⟩

end Sound

/-! ## The function -/

/-- The result is the path with each maximal run of slashes replaced by one, a second call changes
    nothing, and the loop, which leaves with the result, takes each byte of the path in one turn, in order and
    inside the string. -/
structure Normalized (path result : CStr) (turns : List NormalizeTurn) (last : Normalizing) : Prop where
  runs : result.bytes = (runs PATH_SEPARATOR path.bytes).flatMap (squeeze PATH_SEPARATOR)
  again : pathNormalize result = some result
  leaves : ∃ copy, normalizeTurn (path.bytes ++ [0]) last = .leave (some copy) ∧ CStr.ofMem copy = result
  sound : Sound path 0 turns last

/-- `path_normalize` of the path is that. -/
def Normalizes (path : CStr) : Prop :=
  ∃ result, pathNormalize path = some result ∧
    Normalized path result (normalizeTurns (path.bytes ++ [0]) (normalizeStart path))
      (normalizeLast (path.bytes ++ [0]) (normalizeStart path))

/-- **`path_normalize` collapses slashes** exactly if an `int` holds the length of the path. -/
theorem path_normalize_collapses (path : CStr) : Normalizes path ↔ path.strlen ≤ INT_MAX := by
  constructor
  · rintro ⟨result, hresult, -⟩
    rw [pathNormalize_eq, Option.ite_none_right_eq_some] at hresult
    exact hresult.1
  · intro hmax
    have hresult : pathNormalize path = some (collapsed path) := by rw [pathNormalize_eq, if_pos hmax]
    refine ⟨collapsed path, hresult, ?_⟩
    constructor
    case runs => exact collapse_eq_runs path.bytes
    case again =>
      have hshorter : (collapsed path).strlen ≤ INT_MAX := Nat.le_trans (length_collapse_le _) hmax
      rw [pathNormalize_eq, if_pos hshorter]
      exact congrArg some (CStr.ext (collapse_idem path.bytes))
    case leaves =>
      obtain ⟨copy, hcopy, hread⟩ := Option.map_eq_some_iff.1 hresult
      exact ⟨copy, by rw [normalizeLoop_last, hcopy], hread⟩
    case sound => exact sound_normalizeTurns hmax (normalizesAt_start path)

/-- A path that is longer than an `int` can count is left. -/
theorem long_path_left : pathNormalize longPath = none ∧ ¬ Normalizes longPath := by
  have hnone : pathNormalize longPath = none := by rw [pathNormalize_eq, if_neg not_strlen_longPath_le]
  refine ⟨hnone, ?_⟩
  rintro ⟨result, hresult, -⟩
  cases hnone.symm.trans hresult

end Rkx
