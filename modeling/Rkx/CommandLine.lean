import Rkx.Lib.CString
import Rkx.Lib.OptionLoop

/-!
# Command lines

The shell hands a handler `argv` with at least the command's name in it; `getopt_long` yields
options of it, and none when there is only the name.  The options of a command are an inductive
type; what an option carries is the copy that `strdup` makes of its argument, `none` when it finds
no memory.  (`optarg` is not NULL for an option that requires an argument.)
-/

set_option autoImplicit false

namespace Rkx

open Lib.CString

/-- `argc`, `argv` and the options that `getopt_long` yields before it returns -1. -/
structure CommandLine (ω : Type) where
  argv : List CStr
  opts : List ω
  named : argv ≠ []
  room : opts ≠ [] → 2 ≤ argv.length

namespace CommandLine

variable {ω : Type} (cl : CommandLine ω)

def argc : Nat := cl.argv.length

/-- `argv[argc-1][0] == '\0'` -/
def lastArgEmpty : Bool := (cl.argv.getLast cl.named).bytes = []

/-- `(argc - option_index) < 2`: no option of the two programs sets `option_index` to anything but
    zero and goes on. -/
def missingOperand : Bool := cl.argc < 2

theorem missingOperand_eq_false {o : ω} (h : o ∈ cl.opts) : cl.missingOperand = false := by
  have hroom := cl.room (List.ne_nil_of_mem h)
  exact decide_eq_false (Nat.not_lt.2 hroom)

end CommandLine

/-- How `parse_options` ends: the option state, the return code and whether the exit was `err`. -/
structure Parsed (σ : Type) where
  state : σ
  ret : Int
  err : Bool
  deriving DecidableEq

end Rkx
