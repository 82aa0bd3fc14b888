import Mathlib.Data.List.Induction
import Rkx.CommandLine

/-!
# The user command (`kx_user.c`)

`-u`, `-p` and `-r` set the option state and go on; `-g`, `-h`, `-v` and an invalid option leave the
loop, so that the check for both credentials behind the loop is not made for them.

* `parseUserOptions`, `doUser`: the option loop, and which handler is called with what;
* `parseUserOptions_eq`: the result by the option that ends the leading run of `-u`, `-p` and `-r`;
* `registers_on_valid_input_iff`: registration is reached on valid input only, unless `-r` is
  followed by an invalid option, or by `-g` while a credential is missing.
-/

set_option autoImplicit false

namespace Rkx

open Lib.CString Lib.OptionLoop

inductive UserOpt where
  | u (puser : Option CStr)
  | p (ppwd : Option CStr)
  | r
  | g
  | h
  | v
  | invalid
  deriving DecidableEq

/-- `struct state` of the user command. -/
structure UserState where
  isget : Bool
  isreg : Bool
  puser : Option CStr
  ppwd : Option CStr
  deriving DecidableEq

/-- `init_state` -/
def UserState.init : UserState := ⟨false, false, none, none⟩

/-- One turn of the loop of `parse_options`, on the state and the return code. -/
def userTurn (s : UserState × Int) : UserOpt → Turn (UserState × Int) (Parsed UserState)
  | .u puser => .next ({ s.1 with puser }, 0)
  | .p ppwd => .next ({ s.1 with ppwd }, 0)
  | .r => .next ({ s.1 with isreg := true }, 0)
  | .g => .leave ⟨{ s.1 with isget := true }, 0, false⟩
  | .v => .leave ⟨s.1, -2, false⟩
  | .h => .leave ⟨s.1, -2, false⟩
  | .invalid => .leave ⟨s.1, s.2, true⟩

/-- The checks behind the loop. -/
def userDone (missingOperand : Bool) (s : UserState × Int) : Parsed UserState :=
  if s.1.isreg then
    if s.1.puser = none ∨ s.1.ppwd = none then ⟨s.1, -2, true⟩
    else ⟨s.1, s.2, missingOperand⟩
  else
    if (s.1.puser.isSome ∧ s.1.ppwd = none) ∨ (s.1.puser = none ∧ s.1.ppwd.isSome) then
      ⟨s.1, -2, true⟩
    else ⟨s.1, s.2, missingOperand⟩

/-- `parse_options` of the user command. -/
def parseUserOptions (cl : CommandLine UserOpt) : Parsed UserState :=
  if cl.lastArgEmpty then ⟨UserState.init, -1, true⟩
  else loop userTurn (userDone cl.missingOperand) (UserState.init, -1) cl.opts

/-- The handlers of `do_user`: `kx_node_set` and `kx_user_register` with the credentials, or
    `kx_user_get`. -/
inductive UserCall where
  | kxUserRegister (puser ppwd : Option CStr)
  | kxUserGet
  deriving DecidableEq

/-- `do_user`: the return code, 0 from both handlers, and what is called. -/
def doUser (cl : CommandLine UserOpt) : Int × Option UserCall :=
  let p := parseUserOptions cl
  if p.ret = -2 then (0, none)
  else if p.ret = -1 then (-1, none)
  else if p.state.isreg then (0, some (.kxUserRegister p.state.puser p.state.ppwd))
  else if p.state.isget then (0, some .kxUserGet)
  else (p.ret, none)

/-! ## The leading run of `-u`, `-p` and `-r` -/

/-- An option behind which the loop goes on. -/
def UserOpt.plain : UserOpt → Bool
  | .u _ | .p _ | .r => true
  | _ => false

/-- What such an option does to the state. -/
def UserState.set (st : UserState) : UserOpt → UserState
  | .u puser => { st with puser }
  | .p ppwd => { st with ppwd }
  | .r => { st with isreg := true }
  | _ => st

/-- The argument of the last `-u`. -/
def lastU (opts : List UserOpt) : Option CStr :=
  (opts.filterMap fun | .u puser => some puser | _ => none).getLast?.join

/-- The argument of the last `-p`. -/
def lastP (opts : List UserOpt) : Option CStr :=
  (opts.filterMap fun | .p ppwd => some ppwd | _ => none).getLast?.join

/-- The state after plain options holds the last credentials and whether there was a `-r`. -/
theorem foldl_set (opts : List UserOpt) (hplain : ∀ o ∈ opts, o.plain = true) :
    opts.foldl UserState.set UserState.init =
      { isget := false
        isreg := decide (.r ∈ opts)
        puser := lastU opts
        ppwd := lastP opts } := by
  induction opts using List.reverseRecOn with
  | nil => rfl
  | append_singleton opts o ih =>
    have hmem : ∀ x ∈ opts, x.plain = true := fun x hx => hplain x (List.mem_append_left _ hx)
    have ho : o.plain = true := hplain o (by simp)
    rw [List.foldl_append, ih hmem]
    cases o <;> simp_all [UserState.set, lastU, lastP, UserOpt.plain]

/-- The return code after plain options. -/
def plainRet (opts : List UserOpt) : Int := if opts = [] then -1 else 0

theorem foldl_plain : ∀ (opts : List UserOpt) (s : UserState × Int),
    opts.foldl (fun s o => (s.1.set o, (0 : Int))) s =
      (opts.foldl UserState.set s.1, if opts = [] then s.2 else 0)
  | [], _ => rfl
  | o :: opts, s => by
    rw [List.foldl_cons, foldl_plain opts, List.foldl_cons]
    simp

/-- The state that the leading run of plain options leaves. -/
def runState (cl : CommandLine UserOpt) : UserState :=
  { isget := false
    isreg := decide (.r ∈ cl.opts.takeWhile UserOpt.plain)
    puser := lastU (cl.opts.takeWhile UserOpt.plain)
    ppwd := lastP (cl.opts.takeWhile UserOpt.plain) }

/-- **The result of `parse_options`** by what follows the leading run. -/
theorem parseUserOptions_eq {cl : CommandLine UserOpt} (h : cl.lastArgEmpty = false) :
    parseUserOptions cl =
      loop userTurn (userDone cl.missingOperand)
        (runState cl, plainRet (cl.opts.takeWhile UserOpt.plain)) (cl.opts.dropWhile UserOpt.plain) := by
  have hturn : ∀ (s : UserState × Int) (o : UserOpt), o.plain = true →
      userTurn s o = .next (s.1.set o, 0) := by
    intro s o ho
    cases o <;> first | rfl | cases ho
  have hfold := foldl_set (cl.opts.takeWhile UserOpt.plain) (fun o ho => List.mem_takeWhile_imp ho)
  rw [parseUserOptions, h, if_neg (by decide), loop_takeWhile hturn, foldl_plain, hfold]
  rfl

/-! ## Registration -/

/-- The handlers are reached with valid input only: registration outside the error exit and with
    the last credentials of the options that were read, and nothing on the error exit. -/
structure ValidOnly (cl : CommandLine UserOpt) : Prop where
  register : ∀ puser ppwd, (doUser cl).2 = some (.kxUserRegister puser ppwd) →
    (parseUserOptions cl).err = false ∧
      (∃ name, puser = some name ∧ lastU (cl.opts.takeWhile UserOpt.plain) = some name) ∧
      ∃ pwd, ppwd = some pwd ∧ lastP (cl.opts.takeWhile UserOpt.plain) = some pwd
  error : (parseUserOptions cl).err = true → (doUser cl).2 = none

/-- `-r` among the options read, and then an invalid one, or `-g` while a credential is missing. -/
def BadRegister (opts : List UserOpt) : Prop :=
  .r ∈ opts.takeWhile UserOpt.plain ∧
    ((opts.dropWhile UserOpt.plain).head? = some .invalid ∨
      (opts.dropWhile UserOpt.plain).head? = some .g ∧
        (lastU (opts.takeWhile UserOpt.plain) = none ∨ lastP (opts.takeWhile UserOpt.plain) = none))

theorem plainRet_of_mem {opts : List UserOpt} {o : UserOpt} (h : o ∈ opts) : plainRet opts = 0 :=
  if_neg (List.ne_nil_of_mem h)

theorem ValidOnly.of_no_call {cl : CommandLine UserOpt} (h : (doUser cl).2 = none) : ValidOnly cl where
  register _ _ hcall := by rw [h] at hcall; cases hcall
  error _ := h

/-- Without `-r` and `-g` nothing is called. -/
theorem doUser_of_not_isreg {cl : CommandLine UserOpt}
    (hreg : (parseUserOptions cl).state.isreg = false)
    (hget : (parseUserOptions cl).state.isget = false) : (doUser cl).2 = none := by
  unfold doUser
  simp only [hreg, hget, Bool.false_eq_true, if_false]
  split
  · rfl
  · split <;> rfl

/-- With `-r` and the code 0 the registration is called. -/
theorem doUser_of_isreg {cl : CommandLine UserOpt} (hret : (parseUserOptions cl).ret = 0)
    (hreg : (parseUserOptions cl).state.isreg = true) :
    doUser cl =
      (0, some (.kxUserRegister (parseUserOptions cl).state.puser (parseUserOptions cl).state.ppwd)) := by
  simp [doUser, hret, hreg]

theorem doUser_of_ret_two {cl : CommandLine UserOpt} (h : (parseUserOptions cl).ret = -2) :
    doUser cl = (0, none) := by
  simp [doUser, h]

/-- When the registration is called outside the error exit, what counts is the credentials. -/
theorem validOnly_iff_of_register {cl : CommandLine UserOpt}
    (hcall : (doUser cl).2 = some (.kxUserRegister (lastU (cl.opts.takeWhile UserOpt.plain))
      (lastP (cl.opts.takeWhile UserOpt.plain)))) (herr : (parseUserOptions cl).err = false) :
    ValidOnly cl ↔ ¬ (lastU (cl.opts.takeWhile UserOpt.plain) = none ∨
      lastP (cl.opts.takeWhile UserOpt.plain) = none) := by
  constructor
  · intro hvalid hnone
    obtain ⟨-, ⟨name, hname, -⟩, pwd, hpwd, -⟩ := hvalid.register _ _ hcall
    rcases hnone with h | h
    · rw [h] at hname; cases hname
    · rw [h] at hpwd; cases hpwd
  · intro hsome
    obtain ⟨hu, hp⟩ := not_or.1 hsome
    obtain ⟨name, hname⟩ := Option.ne_none_iff_exists'.1 hu
    obtain ⟨pwd, hpwd⟩ := Option.ne_none_iff_exists'.1 hp
    refine ⟨fun puser ppwd h => ?_, fun h => ?_⟩
    · rw [hcall, Option.some.injEq, UserCall.kxUserRegister.injEq] at h
      obtain ⟨rfl, rfl⟩ := h
      exact ⟨herr, ⟨name, hname, hname⟩, pwd, hpwd, hpwd⟩
    · rw [herr] at h; cases h

/-- The checks behind the loop let only complete registrations pass. -/
theorem validOnly_of_done {cl : CommandLine UserOpt}
    (hp : parseUserOptions cl = userDone cl.missingOperand
      (runState cl, plainRet (cl.opts.takeWhile UserOpt.plain))) : ValidOnly cl := by
  by_cases hr : UserOpt.r ∈ cl.opts.takeWhile UserOpt.plain
  · have hmo : cl.missingOperand = false :=
      cl.missingOperand_eq_false (List.takeWhile_subset _ hr)
    by_cases hnone : lastU (cl.opts.takeWhile UserOpt.plain) = none ∨
        lastP (cl.opts.takeWhile UserOpt.plain) = none
    · refine .of_no_call (congrArg Prod.snd (doUser_of_ret_two ?_))
      simp [hp, userDone, runState, hr, hnone]
    · have hparsed : parseUserOptions cl = ⟨runState cl, 0, false⟩ := by
        simp [hp, userDone, runState, hr, hnone, plainRet_of_mem hr, hmo]
      have hcall := @doUser_of_isreg cl (by rw [hparsed]) (by simp [hparsed, runState, hr])
      rw [hparsed] at hcall
      exact (validOnly_iff_of_register (by rw [hcall]; rfl) (by rw [hparsed])).2 hnone
  · have hstate : (parseUserOptions cl).state = runState cl := by
      rw [hp]
      unfold userDone
      split <;> split <;> rfl
    refine .of_no_call (doUser_of_not_isreg ?_ ?_) <;> simp [hstate, runState, hr]

/-- **Registration on valid input only**, exactly unless `-r` is followed by an invalid option, or
    by `-g` before both credentials. -/
theorem registers_on_valid_input_iff (cl : CommandLine UserOpt) :
    ValidOnly cl ↔ ¬ (cl.lastArgEmpty = false ∧ BadRegister cl.opts) := by
  cases hlast : cl.lastArgEmpty with
  | true =>
    have hp : parseUserOptions cl = ⟨UserState.init, -1, true⟩ := by
      rw [parseUserOptions, hlast, if_pos rfl]
    exact iff_of_true (.of_no_call (by simp [doUser, hp])) (by simp)
  | false =>
    have hp := parseUserOptions_eq hlast
    simp only [true_and, BadRegister]
    cases hrest : cl.opts.dropWhile UserOpt.plain with
    | nil =>
      rw [hrest, loop_nil] at hp
      exact iff_of_true (validOnly_of_done hp) (by simp)
    | cons o rest =>
      have ho : o.plain = false := by
        have h := List.head?_dropWhile_not UserOpt.plain cl.opts
        rw [hrest] at h
        simpa using h
      rw [hrest] at hp
      cases o with
      | u => cases ho
      | p => cases ho
      | r => cases ho
      | h => exact iff_of_true (.of_no_call (by rw [doUser_of_ret_two (by rw [hp]; rfl)])) (by simp)
      | v => exact iff_of_true (.of_no_call (by rw [doUser_of_ret_two (by rw [hp]; rfl)])) (by simp)
      | g =>
        rw [loop_leave rest rfl] at hp
        by_cases hr : UserOpt.r ∈ cl.opts.takeWhile UserOpt.plain
        · have hcall := @doUser_of_isreg cl (by rw [hp]) (by simp [hp, runState, hr])
          rw [hp] at hcall
          rw [validOnly_iff_of_register (by rw [hcall]; rfl) (by rw [hp])]
          simp [hr]
        · refine iff_of_true ⟨fun puser ppwd h => ?_, fun h => ?_⟩ (by simp [hr])
          · simp [doUser, hp, runState, hr] at h
          · rw [hp] at h; cases h
      | invalid =>
        rw [loop_leave rest rfl] at hp
        by_cases hr : UserOpt.r ∈ cl.opts.takeWhile UserOpt.plain
        · have hcall := @doUser_of_isreg cl (by rw [hp]; exact plainRet_of_mem hr)
            (by simp [hp, runState, hr])
          refine iff_of_false (fun h => ?_) (by simp [hr])
          have hnone := h.error (by rw [hp])
          rw [hcall] at hnone
          cases hnone
        · refine iff_of_true (.of_no_call (doUser_of_not_isreg ?_ ?_)) (by simp [hr]) <;>
            simp [hp, runState, hr]

/-- `user -r -x` -/
def registerThenInvalid : CommandLine UserOpt where
  argv := [.lit "user", .lit "-r", .lit "-x"]
  opts := [.r, .invalid]
  named := by simp
  room := by simp

/-- The rejected command `user -r -x` reaches the registration, without a name or a password. -/
theorem registerThenInvalid_registers :
    (parseUserOptions registerThenInvalid).err = true ∧
      doUser registerThenInvalid = (0, some (.kxUserRegister none none)) := by
  decide

end Rkx
