import Rkx.Lib.Linked
import Rkx.Lib.While

/-!
# Lists (`adlist.c`)

Lists and their nodes are objects at addresses, and an access to an address without an object has no result.

* `ListNode`, `AdList`, `Store`: `struct listNode`, `struct list`, and all of them in memory;
* `listAddNodeHead`, `listAddNodeTail`, `listInsertNode`, `listDelNode`, `listRotate`, `listJoin`, `listEmpty`,
  `listRelease`: what changes a list;
* `listNext`, `listSearchKey`, `listIndex`, `listDup`: what reads one.

What `zmalloc` returns is an argument, `none` for NULL.
-/

set_option autoImplicit false

namespace Rkx.Adlist

open Function Lib.Linked Lib.OptionLoop Lib.While

/-- An address; NULL is `0`. -/
abbrev Addr := UInt64

abbrev ListNode (β : Type) := Cell Addr β

/-- `dup`, `free` and `match` of a list. What `free` does to a value is not modelled, but that it is called is. -/
structure Methods (β : Type) where
  dup : Option (β → Option β)
  free : Bool
  match_ : Option (β → β → Bool)

/-- `struct list` -/
structure AdList (β : Type) where
  head : Addr
  tail : Addr
  methods : Methods β
  len : UInt64

/-- `freed` are the values that `free` methods were called with. -/
structure Store (β : Type) where
  nodes : Heap Addr (ListNode β)
  lists : Heap Addr (AdList β)
  freed : List β

variable {β : Type}

/-! ## Accesses -/

def Store.modifyNode (s : Store β) (node : Addr) (f : ListNode β → ListNode β) : Option (Store β) :=
  (s.nodes.modify? node f).map ({ s with nodes := · })

def Store.modifyList (s : Store β) (list : Addr) (f : AdList β → AdList β) : Option (Store β) :=
  (s.lists.modify? list f).map ({ s with lists := · })

def Store.setNext (s : Store β) (node x : Addr) : Option (Store β) := s.modifyNode node ({ · with next := x })

def Store.setPrev (s : Store β) (node x : Addr) : Option (Store β) := s.modifyNode node ({ · with prev := x })

/-- A node from `zmalloc`, with its fields. -/
def Store.addNode (s : Store β) (node : Addr) (n : ListNode β) : Store β :=
  { s with nodes := update s.nodes node (some n) }

/-- `zfree` of a node. -/
def Store.freeNode (s : Store β) (node : Addr) : Option (Store β) := (s.nodes.free? node).map ({ s with nodes := · })

/-- `if (list->free) list->free(value);` -/
def Store.freeValue (s : Store β) (methods : Methods β) (value : β) : Store β :=
  if methods.free then { s with freed := s.freed ++ [value] } else s

/-- `if (node) node->next = x; else list->head = x;` -/
def Store.linkNext (s : Store β) (list node x : Addr) : Option (Store β) :=
  if node ≠ 0 then s.setNext node x else s.modifyList list ({ · with head := x })

/-- `if (node) node->prev = x; else list->tail = x;` -/
def Store.linkPrev (s : Store β) (list node x : Addr) : Option (Store β) :=
  if node ≠ 0 then s.setPrev node x else s.modifyList list ({ · with tail := x })

/-- `if (node) node->next = x;` -/
def Store.setNextOf (s : Store β) (node x : Addr) : Option (Store β) := if node ≠ 0 then s.setNext node x else some s

/-- `if (node) node->prev = x;` -/
def Store.setPrevOf (s : Store β) (node x : Addr) : Option (Store β) := if node ≠ 0 then s.setPrev node x else some s

/-! ## Changes -/

def listCreate (s : Store β) (mem : Option Addr) : Store β × Addr :=
  match mem with
  | none => (s, 0)
  | some list =>
    ({ s with lists := update s.lists list (some ⟨0, 0, ⟨none, false, none⟩, 0⟩) }, list)

/-- `listSetDupMethod`, `listSetFreeMethod` and `listSetMatchMethod`. -/
def listSetMethods (s : Store β) (list : Addr) (methods : Methods β) : Option (Store β) :=
  s.modifyList list ({ · with methods })

/-- So many turns of `while(len--)`. -/
def emptyTurns (list : Addr) : Nat → Store β → Addr → Option (Store β)
  | 0, s, _ => some s
  | len + 1, s, current => do
    let node ← s.nodes current
    let l ← s.lists list
    let s ← (s.freeValue l.methods node.value).freeNode current
    emptyTurns list len s node.next

def listEmpty (s : Store β) (list : Addr) : Option (Store β) := do
  let l ← s.lists list
  let s ← emptyTurns list l.len.toNat s l.head
  s.modifyList list ({ · with head := 0, tail := 0, len := 0 })

def listRelease (s : Store β) (list : Addr) : Option (Store β) := do
  let s ← listEmpty s list
  (s.lists.free? list).map ({ s with lists := · })

/-- The list, or NULL. -/
def listAddNodeHead (s : Store β) (list : Addr) (value : β) (mem : Option Addr) : Option (Store β × Addr) :=
  match mem with
  | none => some (s, 0)
  | some node => do
    let l ← s.lists list
    if l.len = 0 then
      let s ← (s.addNode node ⟨0, 0, value⟩).modifyList list fun l =>
        { l with head := node, tail := node, len := l.len + 1 }
      return (s, list)
    else
      let s ← (s.addNode node ⟨0, l.head, value⟩).setPrev l.head node
      let s ← s.modifyList list fun l => { l with head := node, len := l.len + 1 }
      return (s, list)

def listAddNodeTail (s : Store β) (list : Addr) (value : β) (mem : Option Addr) : Option (Store β × Addr) :=
  match mem with
  | none => some (s, 0)
  | some node => do
    let l ← s.lists list
    if l.len = 0 then
      let s ← (s.addNode node ⟨0, 0, value⟩).modifyList list fun l =>
        { l with head := node, tail := node, len := l.len + 1 }
      return (s, list)
    else
      let s ← (s.addNode node ⟨l.tail, 0, value⟩).setNext l.tail node
      let s ← s.modifyList list fun l => { l with tail := node, len := l.len + 1 }
      return (s, list)

/-- `listInsertNode` behind its two cases. -/
def linkInserted (s : Store β) (list node : Addr) : Option (Store β × Addr) := do
  let n ← s.nodes node
  let s ← s.setNextOf n.prev node
  let n ← s.nodes node
  let s ← s.setPrevOf n.next node
  let s ← s.modifyList list fun l => { l with len := l.len + 1 }
  return (s, list)

def listInsertNode (s : Store β) (list oldNode : Addr) (value : β) (after : Bool) (mem : Option Addr) :
    Option (Store β × Addr) :=
  match mem with
  | none => some (s, 0)
  | some node => do
    let old ← s.nodes oldNode
    if after then
      let s ← (s.addNode node ⟨oldNode, old.next, value⟩).modifyList list fun l =>
        if l.tail = oldNode then { l with tail := node } else l
      linkInserted s list node
    else
      let s ← (s.addNode node ⟨old.prev, oldNode, value⟩).modifyList list fun l =>
        if l.head = oldNode then { l with head := node } else l
      linkInserted s list node

def listDelNode (s : Store β) (list node : Addr) : Option (Store β) := do
  let n ← s.nodes node
  let s ← s.linkNext list n.prev n.next
  let n ← s.nodes node
  let s ← s.linkPrev list n.next n.prev
  let n ← s.nodes node
  let l ← s.lists list
  let s ← (s.freeValue l.methods n.value).freeNode node
  s.modifyList list fun l => { l with len := l.len - 1 }

def listRotate (s : Store β) (list : Addr) : Option (Store β) := do
  let l ← s.lists list
  if l.len ≤ 1 then return s
  else
    let t ← s.nodes l.tail
    let s ← s.modifyList list ({ · with tail := t.prev })
    let s ← s.setNext t.prev 0
    let s ← s.setPrev l.head l.tail
    let s ← s.setPrev l.tail 0
    let s ← s.setNext l.tail l.head
    s.modifyList list ({ · with head := l.tail })

def listJoin (s : Store β) (l o : Addr) : Option (Store β) := do
  let other ← s.lists o
  let own ← s.lists l
  let s ← s.setPrevOf other.head own.tail
  let s ← s.linkNext l own.tail other.head
  -- `l` and `o` may be one list
  let other ← s.lists o
  let s ← s.modifyList l fun own => if other.tail ≠ 0 then { own with tail := other.tail } else own
  let other ← s.lists o
  let s ← s.modifyList l fun own => { own with len := own.len + other.len }
  s.modifyList o ({ · with head := 0, tail := 0, len := 0 })

/-! ## Iterators -/

def AL_START_HEAD : Int := 0
def AL_START_TAIL : Int := 1

structure ListIter where
  next : Addr
  direction : Int

def listRewind (s : Store β) (list : Addr) : Option ListIter := (s.lists list).map fun l => ⟨l.head, AL_START_HEAD⟩

def listRewindTail (s : Store β) (list : Addr) : Option ListIter := (s.lists list).map fun l => ⟨l.tail, AL_START_TAIL⟩

def listNext (s : Store β) (iter : ListIter) : Option (Addr × ListIter) :=
  if iter.next ≠ 0 then
    (s.nodes iter.next).map fun current =>
      (iter.next, { iter with next := if iter.direction = AL_START_HEAD then current.next else current.prev })
  else some (0, iter)

/-- `list->match` of a value, or the comparison of the pointers. -/
def Methods.isMatch [DecidableEq β] (methods : Methods β) (value key : β) : Bool :=
  match methods.match_ with
  | some f => f value key
  | none => key = value

/-- A turn of `listSearchKey`. -/
def searchTurn [DecidableEq β] (s : Store β) (list : Addr) (key : β) (iter : ListIter) :
    Turn ListIter (Option Addr) :=
  match listNext s iter with
  | none => .leave none
  | some (node, iter) =>
    if node = 0 then .leave (some 0)
    else
      match s.nodes node, s.lists list with
      | some n, some l => if l.methods.isMatch n.value key then .leave (some node) else .next iter
      | _, _ => .leave none

/-- `listSearchKey`, with so many turns at most. -/
def listSearchKey [DecidableEq β] (s : Store β) (list : Addr) (key : β) (turns : Nat) : Option Addr := do
  let iter ← listRewind s list
  (run (searchTurn s list key) turns iter).join

/-- So many turns of `while(index-- && n)`, `step` being `n->next` or `n->prev`. -/
def indexTurns (s : Store β) (step : ListNode β → Addr) : Nat → Addr → Option Addr
  | 0, n => some n
  | index + 1, n =>
    if n ≠ 0 then (s.nodes n).bind fun node => indexTurns s step index (step node) else some n

/-- The smallest `long`. -/
def LONG_MIN : Int := -9223372036854775808

/-- `listIndex`; the smallest `long` has no negative. -/
def listIndex (s : Store β) (list : Addr) (index : Int) : Option Addr := do
  let l ← s.lists list
  if index < 0 then
    if index = LONG_MIN then none else indexTurns s Cell.prev (-index - 1).toNat l.tail
  else indexTurns s Cell.next index.toNat l.head

/-! ## The copy -/

/-- The copy so far, the iterator, and what `zmalloc` will return. -/
structure DupState (β : Type) where
  store : Store β
  iter : ListIter
  mems : List (Option Addr)

/-- `copy->dup(node->value)`, `none` for NULL. -/
def Methods.dupValue (methods : Methods β) (value : β) : Option β :=
  match methods.dup with
  | some f => f value
  | none => some value

/-- A turn of `listDup`; it leaves with the copy or NULL. -/
def dupTurn (copy : Addr) (d : DupState β) : Turn (DupState β) (Option (Store β × Addr)) :=
  match listNext d.store d.iter with
  | none => .leave none
  | some (node, iter) =>
    if node = 0 then .leave (some (d.store, copy))
    else
      match d.store.nodes node, d.store.lists copy with
      | some n, some l =>
        match l.methods.dupValue n.value with
        | none => .leave ((listRelease d.store copy).map (·, 0))
        | some value =>
          match listAddNodeTail d.store copy value (d.mems.headD none) with
          | none => .leave none
          | some (s, ret) =>
            if ret = 0 then .leave ((listRelease s copy).map (·, 0)) else .next ⟨s, iter, d.mems.tail⟩
      | _, _ => .leave none

/-- `listDup`, with so many turns at most. -/
def listDup (s : Store β) (orig : Addr) (mems : List (Option Addr)) (turns : Nat) : Option (Store β × Addr) :=
  match mems.headD none with
  | none => some (s, 0)
  | some copy => do
    let s := (listCreate s (some copy)).1
    let l ← s.lists orig
    let s ← listSetMethods s copy l.methods
    let iter ← listRewind s orig
    (run (dupTurn copy) turns ⟨s, iter, mems.tail⟩).join

end Rkx.Adlist
