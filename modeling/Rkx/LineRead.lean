import Rkx.Linenoise

/-!
# `linenoise` (`linenoise.c`)

Standard input is a terminal, a terminal that knows no escape sequences, or no terminal.

* `linenoiseNoTTY`: a line of a file or a pipe, however long; `linenoiseNoTTY_line`, `linenoiseNoTTY_end`;
* `unsupportedLine`: a line of an unsupported terminal;
* `Linenoise`: a call.

Raw mode begins and ends with `TCSAFLUSH`, so that what has come in and was not read is lost.  The streams are taken to
read no further than the line that they return: standard input that is read through one is never read otherwise.
-/

set_option autoImplicit false

namespace Rkx

open Lib.CString Lib.Lines

/-- What `linenoise` meets. -/
structure Stdin extends Tty where
  isatty : Bool
  /-- `getenv("TERM")` -/
  term : Option CStr
  /-- `enableRawMode` returns 0 -/
  raw : Bool
  /-- how much of the input has come in and was not read when raw mode begins -/
  ahead : Nat
  /-- and when it ends, 0 if `disableRawMode` fails -/
  behind : Nat
  /-- `realloc` finds so many bytes -/
  realloc : Nat → Bool
  /-- `strdup` finds memory for the line -/
  copy : Bool

/-- What it returns, `none` for NULL, the history, and what is left of the input. -/
structure LineRead where
  line : Option CStr
  history : History
  reads : List Read
  deriving DecidableEq

/-! ## No terminal -/

/-- `maxlen` behind `if (len == maxlen)` -/
def grown (len maxlen : Nat) : Nat :=
  if len = maxlen then (if maxlen = 0 then 16 else maxlen) * 2 else maxlen

/-- What `fgetc(stdin) == EOF` makes of the bytes so far. -/
def lastLine (line : List UInt8) : Option CStr := if line = [] then none else some (.ofMem line)

/-- The loop of `linenoiseNoTTY` with `line` in an array of `maxlen` bytes; a byte that is stored behind the array has no
    result.  A stream that has ended stays at its end. -/
def noTTYTurns (realloc : Nat → Bool) (line : List UInt8) (maxlen : Nat) (reads : List Read) :
    Option (Option CStr × List Read) :=
  if line.length = maxlen ∧ realloc (grown line.length maxlen) = false then some (none, reads)
  else if line.length < grown line.length maxlen then
    match reads with
    | .byte c :: reads =>
      if c = LF then some (some (.ofMem line), reads)
      else noTTYTurns realloc (line ++ [c]) (grown line.length maxlen) reads
    | .error :: reads => some (lastLine line, reads)
    | .eof _ :: _ | [] => some (lastLine line, [])
  else none

/-- `linenoiseNoTTY` -/
def linenoiseNoTTY (realloc : Nat → Bool) (reads : List Read) : Option (Option CStr × List Read) :=
  noTTYTurns realloc [] 0 reads

/-! ## An unsupported terminal -/

/-- `tolower` -/
def lower (b : UInt8) : UInt8 := if 65 ≤ b ∧ b ≤ 90 then b + 32 else b

/-- `unsupported_term` -/
def unsupportedTerm : List CStr := [.lit "dumb", .lit "cons25", .lit "emacs"]

/-- `isUnsupportedTerm` -/
def isUnsupportedTerm (term : Option CStr) : Bool :=
  match term with
  | none => false
  | some term => unsupportedTerm.any fun u => term.bytes.map lower = u.bytes.map lower

/-- The bytes that `fgets` takes from the terminal, `n` at most, `none` at an error. -/
def fgetsTerm : Nat → List Read → Option (List UInt8) × List Read
  | 0, reads => (some [], reads)
  | n + 1, .byte c :: reads =>
    if c = LF then (some [c], reads)
    else
      let (line, reads) := fgetsTerm n reads
      (line.map (c :: ·), reads)
  | _ + 1, .error :: reads => (none, reads)
  | _ + 1, .eof _ :: _ | _ + 1, [] => (some [], [])

/-- `while(len && (buf[len-1] == '\n' || buf[len-1] == '\r'))` -/
def withoutEnd (buf : List UInt8) : CStr :=
  .ofMem ((CStr.ofMem buf).bytes.rdropWhile fun b => b = LF || b = CR)

/-- The branch of `linenoise` for an unsupported terminal. -/
def unsupportedLine (copy : Bool) (reads : List Read) : Option CStr × List Read :=
  let (line, reads) := fgetsTerm (LINENOISE_MAX_LINE - 1) reads
  match line with
  | none | some [] => (none, reads)
  | some buf => (if copy then some (withoutEnd buf) else none, reads)

/-! ## A call -/

/-- The result of `linenoise` for one of `linenoiseEdit`; raw mode ends when `behind` more has come in. -/
def EditResult.lineRead (copy : Bool) (behind : Nat) (e : EditResult) : LineRead where
  line := if e.count.isSome ∧ copy then some e.line else none
  history := e.history
  reads := e.reads.drop behind

/-- `linenoise` -/
def Linenoise (t : Stdin) (prompt : CStr) (h : History) (reads : List Read) (r : Option LineRead) : Prop :=
  if t.isatty = false then r = (linenoiseNoTTY t.realloc reads).map fun (line, reads) => ⟨line, h, reads⟩
  else if isUnsupportedTerm t.term then
    let (line, reads) := unsupportedLine t.copy reads
    r = some ⟨line, h, reads⟩
  else if t.raw then
    ∃ e, LinenoiseEdit t.toTty LINENOISE_MAX_LINE prompt h (reads.drop t.ahead) e ∧
      r = e.map (·.lineRead t.copy t.behind)
  else r = some ⟨none, h, reads⟩

/-! ## A line of a pipe -/

variable {realloc : Nat → Bool} {line : List UInt8} {maxlen : Nat} {reads : List Read}

theorem lt_grown (h : line.length ≤ maxlen) : line.length < grown line.length maxlen := by
  unfold grown
  split
  · split <;> omega
  · omega

theorem noTTYTurns_suffix {r : Option CStr × List Read} (h : noTTYTurns realloc line maxlen reads = some r) :
    r.2 <:+ reads := by
  induction reads generalizing line maxlen with
  | nil =>
    unfold noTTYTurns at h
    split at h
    · cases h
      exact List.suffix_rfl
    · split at h
      · cases h
        exact List.suffix_rfl
      · cases h
  | cons read reads ih =>
    unfold noTTYTurns at h
    split at h
    · cases h
      exact List.suffix_rfl
    · split at h
      · cases read with
        | byte c =>
          simp only at h
          split at h
          · cases h
            exact List.suffix_cons _ _
          · exact (ih h).trans (List.suffix_cons _ _)
        | error =>
          cases h
          exact List.suffix_cons _ _
        | eof stale =>
          cases h
          exact List.nil_suffix
      · cases h

/-- **No byte is stored behind the array.** -/
theorem noTTYTurns_isSome (h : line.length ≤ maxlen) : (noTTYTurns realloc line maxlen reads).isSome := by
  have hroom := lt_grown h
  induction reads generalizing line maxlen with
  | nil =>
    unfold noTTYTurns
    -- the array has room
    split <;> rfl
  | cons read reads ih =>
    unfold noTTYTurns
    split
    · rfl
    · cases read with
      | byte c =>
        simp only
        split
        · rfl
        · have hnext : (line ++ [c]).length ≤ grown line.length maxlen := by
            rw [List.length_append, List.length_singleton]
            exact hroom
          exact ih hnext (lt_grown hnext)
      | error => rfl
      | eof stale => rfl

theorem linenoiseNoTTY_isSome (realloc : Nat → Bool) (reads : List Read) : (linenoiseNoTTY realloc reads).isSome :=
  @noTTYTurns_isSome realloc [] 0 reads (Nat.le_refl _)

/-- With memory for every array a turn goes to the next read. -/
theorem noTTYTurns_eq (hrealloc : ∀ size, realloc size = true) (h : line.length ≤ maxlen) :
    noTTYTurns realloc line maxlen reads =
      match reads with
      | .byte c :: reads =>
        if c = LF then some (some (.ofMem line), reads)
        else noTTYTurns realloc (line ++ [c]) (grown line.length maxlen) reads
      | .error :: reads => some (lastLine line, reads)
      | .eof _ :: _ | [] => some (lastLine line, []) := by
  conv => lhs; unfold noTTYTurns
  rw [if_neg (by simp [hrealloc]), if_pos (lt_grown h)]

theorem noTTYTurns_line (hrealloc : ∀ size, realloc size = true) (h : line.length ≤ maxlen) {w : List UInt8}
    (hw : LF ∉ w) (rest : List Read) :
    noTTYTurns realloc line maxlen (typed w ++ .byte LF :: rest) = some (some (.ofMem (line ++ w)), rest) := by
  induction w generalizing line maxlen with
  | nil =>
    rw [noTTYTurns_eq hrealloc h, List.append_nil]
    rfl
  | cons c w ih =>
    obtain ⟨hc, hw⟩ := not_or.1 (mt List.mem_cons.2 hw)
    have hnext : (line ++ [c]).length ≤ grown line.length maxlen := by
      rw [List.length_append, List.length_singleton]
      exact lt_grown h
    rw [noTTYTurns_eq hrealloc h]
    show (if c = LF then _ else noTTYTurns realloc (line ++ [c]) _ (typed w ++ .byte LF :: rest)) = _
    rw [if_neg (Ne.symm hc), ih hnext hw, List.append_assoc]
    rfl

/-- **A line of a pipe** is returned whole, however long it is. -/
theorem linenoiseNoTTY_line (hrealloc : ∀ size, realloc size = true) {w : List UInt8} (hw : LF ∉ w)
    (rest : List Read) :
    linenoiseNoTTY realloc (typed w ++ .byte LF :: rest) = some (some (.ofMem w), rest) :=
  noTTYTurns_line hrealloc (Nat.le_refl _) hw rest

/-- The input has a byte to read. -/
def Readable (reads : List Read) : Prop := ∃ c, (nextRead reads).1 = .byte c

theorem noTTYTurns_ne_none (hrealloc : ∀ size, realloc size = true) (h : line.length ≤ maxlen) (hline : line ≠ [])
    {r : Option CStr × List Read} (hr : noTTYTurns realloc line maxlen reads = some r) : r.1 ≠ none := by
  have hlast : lastLine line ≠ none := by
    unfold lastLine
    rw [if_neg hline]
    exact Option.some_ne_none _
  induction reads generalizing line maxlen with
  | nil =>
    rw [noTTYTurns_eq hrealloc h] at hr
    cases hr
    exact hlast
  | cons read reads ih =>
    rw [noTTYTurns_eq hrealloc h] at hr
    cases read with
    | byte c =>
      simp only at hr
      split at hr
      · cases hr
        exact Option.some_ne_none _
      · have hnext : (line ++ [c]).length ≤ grown line.length maxlen := by
          rw [List.length_append, List.length_singleton]
          exact lt_grown h
        have hne : line ++ [c] ≠ [] := List.append_ne_nil_of_right_ne_nil _ (List.cons_ne_nil _ _)
        refine ih hnext hne hr ?_
        unfold lastLine
        rw [if_neg hne]
        exact Option.some_ne_none _
    | error =>
      cases hr
      exact hlast
    | eof stale =>
      cases hr
      exact hlast

/-- **At its end a pipe gives no line**, and everywhere else it does. -/
theorem linenoiseNoTTY_end (hrealloc : ∀ size, realloc size = true) {r : Option CStr × List Read}
    (hr : linenoiseNoTTY realloc reads = some r) : r.1 = none ↔ ¬ Readable reads := by
  have hempty : ([] : List UInt8).length ≤ 0 := Nat.le_refl _
  unfold linenoiseNoTTY at hr
  rw [noTTYTurns_eq hrealloc hempty] at hr
  cases reads with
  | nil =>
    cases hr
    exact iff_of_true rfl (fun ⟨c, hc⟩ => by cases hc)
  | cons read reads =>
    cases read with
    | byte c =>
      refine iff_of_false ?_ (not_not.2 ⟨c, rfl⟩)
      simp only at hr
      split at hr
      · cases hr
        exact Option.some_ne_none _
      · exact noTTYTurns_ne_none hrealloc (lt_grown hempty) (List.cons_ne_nil _ _) hr
    | error =>
      cases hr
      exact iff_of_true rfl (fun ⟨c, hc⟩ => by cases hc)
    | eof stale =>
      cases hr
      exact iff_of_true rfl (fun ⟨c, hc⟩ => by cases hc)

end Rkx
