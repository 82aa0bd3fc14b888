import Rkx.Lib.CInt
import Rkx.Lib.While

/-!
# ID lists (`midl.c`)

An ID list is an array whose element `0` is the number of its IDs; an access outside of the array has no result.

* `mdbMidlSearch`, `mdbMid2lSearch`: binary searches, the one in a descending, the other in an ascending list;
* `mdbMidlXmerge`, `mdbMidlSort`: the merge in place, and the quicksort with a stack of its own;
* `mdbMid2lInsert`: a list of IDs with pointers.
-/

set_option autoImplicit false

namespace Rkx.Midl

open Lib.CInt Lib.OptionLoop Lib.While

abbrev MDB_ID := UInt64

def MDB_IDL_UM_SIZE : Nat := 131072

def MDB_IDL_UM_MAX : Nat := 131071

variable {α : Type}

/-- A write. -/
def store? (ids : List α) (i : Nat) (a : α) : Option (List α) := if i < ids.length then some (ids.set i a) else none

/-- `MIDL_SWAP(ids[i], ids[j])` -/
def swap? (ids : List α) (i j : Nat) : Option (List α) := do
  let x ← ids[i]?
  let y ← ids[j]?
  store? (← store? ids i y) j x

/-! ## Searches -/

/-- `CMP` -/
def CMP (x y : MDB_ID) : Int := if x < y then -1 else if y < x then 1 else 0

/-- `while( 0 < n )` and what follows it; `cmp` reads the ID at the cursor and compares it. -/
def searchLoop (cmp : Nat → Option Int) (n base cursor : Nat) (val : Int) : Option Nat :=
  if 0 < n then do
    let pivot := n / 2
    let cursor := base + pivot + 1
    let val ← cmp cursor
    if val < 0 then searchLoop cmp pivot base cursor val
    else if 0 < val then searchLoop cmp (n - (pivot + 1)) cursor cursor val
    else return cursor
  else if 0 < val then some (cursor + 1)
  else some cursor
termination_by n

/-- `mdb_midl_search` -/
def mdbMidlSearch (ids : List MDB_ID) (id : MDB_ID) : Option Nat := do
  let n ← ids[0]?
  searchLoop (fun cursor => ids[cursor]?.map fun x => CMP x id) (n.toNat % UInt32.size) 0 1 0

/-- `MDB_ID2` -/
structure MdbId2 (α : Type) where
  mid : MDB_ID
  mptr : α

/-- `mdb_mid2l_search` -/
def mdbMid2lSearch (ids : List (MdbId2 α)) (id : MDB_ID) : Option Nat := do
  let n ← ids[0]?
  searchLoop (fun cursor => ids[cursor]?.map fun x => CMP id x.mid) (n.mid.toNat % UInt32.size) 0 1 0

/-! ## Insertion -/

/-- `for (i=ids[0].mid; i>x; i--)` with so many turns left. -/
def shiftUp (ids : List (MdbId2 α)) (x : Nat) : Nat → Option (List (MdbId2 α))
  | 0 => some ids
  | k + 1 => do
    let prev ← ids[x + k]?
    shiftUp (← store? ids (x + k + 1) prev) x k

/-- `x <= ids[0].mid && ids[x].mid == id->mid` -/
def hasId (ids : List (MdbId2 α)) (x : Nat) (head : MdbId2 α) (id : MDB_ID) : Option Bool :=
  if x ≤ head.mid.toNat then ids[x]?.map fun y => y.mid == id else some false

/-- `mdb_mid2l_insert` -/
def mdbMid2lInsert (ids : List (MdbId2 α)) (id : MdbId2 α) : Option (List (MdbId2 α) × Int) := do
  let x ← mdbMid2lSearch ids id.mid
  let head ← ids[0]?
  if x < 1 then return (ids, -2)
  else if ← hasId ids x head id.mid then return (ids, -1)
  else if MDB_IDL_UM_MAX ≤ head.mid.toNat then return (ids, -2)
  else
    let ids ← store? ids 0 { head with mid := head.mid + 1 }
    let ids ← shiftUp ids x ((head.mid + 1).toNat - x)
    let ids ← store? ids x id
    return (ids, 0)

/-- `mdb_page_get` in one dirty list: the page that has the number. -/
def dirtyPage? (dl : List (MdbId2 α)) (pgno : MDB_ID) : Option (Option α) := do
  let head ← dl[0]?
  if head.mid = 0 then return none
  else
    let x ← mdbMid2lSearch dl pgno
    if x ≤ head.mid.toNat then
      let id ← dl[x]?
      return if id.mid = pgno then some id.mptr else none
    else return none

/-! ## The merge -/

/-- `for (; old_id < merge_id; old_id = idl[--j]) idl[k--] = old_id;`, from `j` down. -/
def mergeOld (merge_id : MDB_ID) : Nat → List MDB_ID → Nat → MDB_ID → Option (List MDB_ID × Nat × Nat × MDB_ID)
  | j, idl, k, old_id =>
    if old_id < merge_id then
      match j with
      | 0 => none
      | j + 1 => do
        let idl ← store? idl k old_id
        let old_id ← idl[j]?
        mergeOld merge_id j idl (k - 1) old_id
    else some (idl, j, k, old_id)

/-- `while (i)` -/
def mergeLoop (merge : List MDB_ID) : Nat → List MDB_ID → Nat → Nat → MDB_ID → Option (List MDB_ID)
  | 0, idl, _, _, _ => some idl
  | i + 1, idl, j, k, old_id => do
    let merge_id ← merge[i + 1]?
    let (idl, j, k, old_id) ← mergeOld merge_id j idl k old_id
    let idl ← store? idl k merge_id
    mergeLoop merge i idl j (k - 1) old_id

/-- `mdb_midl_xmerge` -/
def mdbMidlXmerge (idl merge : List MDB_ID) : Option (List MDB_ID) := do
  let i ← merge[0]?
  let j ← idl[0]?
  let total := i + j
  let idl ← store? idl 0 (-1)
  let old_id ← idl[j.toNat]?
  let idl ← mergeLoop merge i.toNat idl j.toNat total.toNat old_id
  store? idl 0 total

/-! ## The sort -/

def SMALL : Nat := 8

/-- `for (i=j-1;i>=1;i--)`: the array, and the last `i`. -/
def shiftLoop (a : MDB_ID) : Nat → List MDB_ID → Option (List MDB_ID × Nat)
  | 0, ids => some (ids, 0)
  | i + 1, ids => do
    let x ← ids[i + 1]?
    if a ≤ x then return (ids, i + 1)
    else shiftLoop a i (← store? ids (i + 2) x)

/-- `for (j=l+1;j<=ir;j++)` with so many turns left. -/
def insertionSort : Nat → Nat → List MDB_ID → Option (List MDB_ID)
  | 0, _, ids => some ids
  | k + 1, j, ids => do
    let a ← ids[j]?
    let (ids, i) ← shiftLoop a (j - 1) ids
    let ids ← store? ids (i + 1) a
    insertionSort k (j + 1) ids

/-- `if (ids[i] < ids[j]) MIDL_SWAP(ids[i], ids[j])` -/
def swapLess? (ids : List MDB_ID) (i j : Nat) : Option (List MDB_ID) := do
  let x ← ids[i]?
  let y ← ids[j]?
  if x < y then swap? ids i j else return ids

/-- `do i++; while(ids[i] > a);` -/
def scanUp (ids : List MDB_ID) (a : MDB_ID) (i : Nat) : Option Nat :=
  if h : i + 1 < ids.length then
    if a < ids[i + 1] then scanUp ids a (i + 1) else some (i + 1)
  else none
termination_by ids.length - i

/-- `do j--; while(ids[j] < a);` -/
def scanDown (ids : List MDB_ID) (a : MDB_ID) : Nat → Option Nat
  | 0 => none
  | j + 1 => do
    let x ← ids[j]?
    if x < a then scanDown ids a j else return j

/-- A turn of the inner `for(;;)`. -/
def partTurn (a : MDB_ID) (t : List MDB_ID × Nat × Nat) :
    Turn (List MDB_ID × Nat × Nat) (Option (List MDB_ID × Nat × Nat)) :=
  match scanUp t.1 a t.2.1, scanDown t.1 a t.2.2 with
  | some i, some j =>
    if j < i then .leave (some (t.1, i, j))
    else
      match swap? t.1 i j with
      | some ids => .next (ids, i, j)
      | none => .leave none
  | _, _ => .leave none

/-- The median of left, center and right, at `l + 1`. -/
def median? (ids : List MDB_ID) (l ir : Nat) : Option (List MDB_ID) := do
  let ids ← swap? ids ((l + ir) / 2) (l + 1)
  let ids ← swapLess? ids l ir
  let ids ← swapLess? ids (l + 1) ir
  swapLess? ids l (l + 1)

/-- The array behind the partition of `l..ir`, with the last `i` and `j`. -/
def partition? (turns : Nat) (ids : List MDB_ID) (l ir : Nat) : Option (List MDB_ID × Nat × Nat) := do
  let ids ← median? ids l ir
  let a ← ids[l + 1]?
  let (ids, i, j) ← (run (partTurn a) turns (ids, l + 1, ir)).join
  let x ← ids[j]?
  let ids ← store? (← store? ids (l + 1) x) j a
  return (ids, i, j)

/-- `l`, `ir` and the pairs in `istack`, the top first. -/
structure SortState where
  ids : List MDB_ID
  l : Nat
  ir : Nat
  istack : List (Nat × Nat)

/-- The last pair that fits into the 64 elements of `istack`. -/
def push? (s : SortState) (pair : Nat × Nat) (l ir : Nat) : Option SortState :=
  if 2 * (s.istack.length + 1) < 64 then some { s with l, ir, istack := pair :: s.istack } else none

/-- A turn of the outer `for(;;)`; a sum of `int`s beyond the largest has no result. -/
def sortTurn (turns : Nat) (s : SortState) : Turn SortState (Option (List MDB_ID)) :=
  if s.ir - s.l < SMALL then
    match insertionSort (s.ir - s.l) (s.l + 1) s.ids with
    | none => .leave none
    | some ids =>
      match s.istack with
      | [] => .leave (some ids)
      | (l, ir) :: istack => .next ⟨ids, l, ir, istack⟩
  else if INT_MAX < s.l + s.ir then .leave none
  else
    match partition? turns s.ids s.l s.ir with
    | none => .leave none
    | some (ids, i, j) =>
      let s := { s with ids }
      let pushed := if j - s.l ≤ s.ir - i + 1 then push? s (i, s.ir) s.l (j - 1) else push? s (s.l, j - 1) i s.ir
      match pushed with
      | none => .leave none
      | some s => .next s

/-- `mdb_midl_sort`, with so many turns of each loop at most; `ids[0]` fits into an `int`. -/
def mdbMidlSort (turns : Nat) (ids : List MDB_ID) : Option (List MDB_ID) := do
  let n ← ids[0]?
  if INT_MAX < n.toNat then none
  else (run (sortTurn turns) turns ⟨ids, 1, n.toNat, []⟩).join

example : mdbMidlSort 9 [5, 3, 1, 4, 1, 5] = some [5, 5, 4, 3, 1, 1] := by decide

end Rkx.Midl
