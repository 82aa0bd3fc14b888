import Rkx.Lib.CString
import Rkx.Runtime

/-!
# Redis commands (`net.c`)

* `acs`, `kxSearchAction`: the table of the command templates and its lookup;
* `vsnprintf`: the conversions `%s`, `%lu` and `%d` of the templates;
* `kxSyncSendCmd`: the text that is handed to `redisCommand`.
-/

set_option autoImplicit false

namespace Rkx

open Lib.CString

inductive KxType where
  | NODE_SET
  | NODE_GET
  | USER_REG
  | USER_LOGIN
  | USER_GET
  | FILE_CRYPT
  | FILE_GETLIST
  | FILE_GET
  deriving DecidableEq

structure Action where
  type : KxType
  cmdline : CStr

def acs : List Action :=
  [⟨.NODE_SET, .lit "HMSET node:%s uuid %s ip %s mac %s"⟩,
   ⟨.USER_REG, .lit "HMSET node:%s:user:%s username %s password %s isonline %d"⟩,
   ⟨.USER_LOGIN, .lit "HMSET node:%s:user:%s isonline %d"⟩,
   ⟨.USER_GET, .lit "HGETALL node:%s:user:%s"⟩,
   ⟨.NODE_GET, .lit "HMSET node:%s"⟩,
   ⟨.FILE_CRYPT, .lit "HMSET fileuuid:%lu filename %s path %s uuid %lu user %s muuid %s"⟩,
   ⟨.FILE_GET, .lit "HGETALL %s"⟩,
   ⟨.FILE_GETLIST, .lit "KEYS node:%s:user:%s:files:*"⟩]

/-- `kx_search_action`: the last entry of the type. -/
def kxSearchAction (type : KxType) : Option Action :=
  acs.foldl (fun ac entry => if entry.type = type then some entry else ac) none

/-- An argument of a template. -/
inductive FmtArg where
  | s (value : CStr)
  | num (value : Nat)

/-- The bytes of an argument in the text. -/
def FmtArg.text : FmtArg → List UInt8
  | .s value => value.bytes
  | .num value => (decimal value).bytes

/-- `vsnprintf` of a template with `%s`, `%lu` and `%d`. -/
def vsnprintf : List UInt8 → List FmtArg → List UInt8
  | 37 :: 115 :: fmt, a :: args => a.text ++ vsnprintf fmt args
  | 37 :: 108 :: 117 :: fmt, a :: args => a.text ++ vsnprintf fmt args
  | 37 :: 100 :: fmt, a :: args => a.text ++ vsnprintf fmt args
  | b :: fmt, args => b :: vsnprintf fmt args
  | [], _ => []

/-- `kx_sync_send_cmd` with the action of a type: the text for `redisCommand`, `none` when there is
    no such action; `ok` is the outcome of `zmalloc`.  The text has at most `INT_MAX` bytes, so that `vsnprintf` does
    not fail (`size < 0`): the callers hand over fields of records, numbers and keys that the server returned. -/
def kxSyncSendCmd (ok : Bool) (type : KxType) (args : List FmtArg) : Except Fault (Option CStr) :=
  match kxSearchAction type with
  | none => .ok none
  | some ac => (zmalloc ok).map fun _ => some (CStr.ofMem (vsnprintf ac.cmdline.bytes args))

theorem kxSearchAction_isSome (type : KxType) : (kxSearchAction type).isSome = true := by
  cases type <;> rfl

end Rkx
