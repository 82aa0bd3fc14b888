/-!
# How a call of the program ends

A function of the program returns, or the process ends inside it: `zmalloc` calls `abort` when
`malloc` fails (`zmalloc_default_oom`; the program installs no other handler), a NULL pointer is
dereferenced, or `mdb_txn_begin` waits for a write transaction of the same thread.
-/

set_option autoImplicit false

namespace Rkx

/-- The pointers that may be NULL where the program dereferences them. -/
inductive Pointer where
  /-- `client.user` -/
  | clientUser
  /-- `client.db` -/
  | clientDb
  /-- `state->puser`, handed to `strlen` and `strncpy` -/
  | statePuser
  /-- `state->ppwd` -/
  | statePpwd
  /-- the transaction that a failed `mdb_txn_begin` leaves NULL -/
  | txn
  deriving DecidableEq, Repr

inductive Fault where
  | oom
  | null (p : Pointer)
  | blocked
  deriving DecidableEq, Repr

/-- `zmalloc`, `ok` telling whether `malloc` finds the memory. -/
def zmalloc (ok : Bool) : Except Fault Unit := if ok then .ok () else .error .oom

/-- The dereference of a pointer that is NULL when it is `none`. -/
def deref {α : Type} (p : Pointer) : Option α → Except Fault α
  | none => .error (.null p)
  | some a => .ok a

theorem bind_eq_ok {α β : Type} {x : Except Fault α} {f : α → Except Fault β} {b : β} :
    (x >>= f) = .ok b ↔ ∃ a, x = .ok a ∧ f a = .ok b := by
  cases x <;> simp [bind, Except.bind]

theorem deref_eq_ok {α : Type} {p : Pointer} {o : Option α} {a : α} : deref p o = .ok a ↔ o = some a := by
  cases o <;> simp [deref]

theorem zmalloc_eq_ok {ok : Bool} : zmalloc ok = .ok () ↔ ok = true := by
  cases ok <;> simp [zmalloc]

end Rkx
