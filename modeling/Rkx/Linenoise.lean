import Rkx.Columns
import Rkx.History
import Rkx.LineEdit
import Rkx.Lib.While

/-!
# `linenoiseEdit` (`linenoise.c`)

The loop reads a byte from the terminal, or an escape sequence, and does what the key asks for, until a key or
the end of the input ends the line.  The line buffer is also the latest entry of the history while it is edited.

* `keyOf`: the switch of the loop and the reads of its escape sequences;
* `linenoiseEditHistoryNext`: another entry of the history into the buffer;
* `editTurn`, `editStart`: one turn of the loop and the state in front of it;
* `LinenoiseEdit`: how the function ends.

The completion callback of the shell adds no completion, so that `completeLine` only returns 0.  `strdup` finds
memory for the lines that `linenoiseEditHistoryNext` keeps; an entry without memory would be a NULL in the history.
-/

set_option autoImplicit false

namespace Rkx

open Lib.CString Lib.Memory Lib.OptionLoop Lib.While

/-! ## Keys -/

/-- `LINENOISE_HISTORY_NEXT` and `LINENOISE_HISTORY_PREV` -/
inductive Dir where
  | next
  | prev
  deriving DecidableEq

/-- What a key asks for. -/
inductive LineKey where
  | enter
  | interrupt
  /-- `CTRL_D`: the end of the file on an empty line -/
  | deleteOrEnd
  | history (dir : Dir)
  | edit (e : Edit)
  | nothing
  deriving DecidableEq

/-- `ESC [` and a letter. -/
def bracketKey (c : UInt8) : LineKey :=
  match c.toNat with
  | 65 => .history .prev
  | 66 => .history .next
  | 67 => .edit .moveRight
  | 68 => .edit .moveLeft
  | 72 => .edit .moveHome
  | 70 => .edit .moveEnd
  | _ => .nothing

/-- The case `ESC`: the key and what is left of the input. -/
def escapeKey (reads : List Read) : LineKey × List Read :=
  let (r, reads) := nextRead reads
  match r.stored with
  | none => (.nothing, reads)
  | some seq0 =>
    let (r, reads) := nextRead reads
    match r.stored with
    | none => (.nothing, reads)
    | some seq1 =>
      if seq0 = 91 then
        if 48 ≤ seq1 ∧ seq1 ≤ 57 then
          let (r, reads) := nextRead reads
          match r.stored with
          | none => (.nothing, reads)
          | some seq2 => (if seq2 = 126 ∧ seq1 = 51 then .edit .delete else .nothing, reads)
        else (bracketKey seq1, reads)
      else if seq0 = 79 then
        (match seq1.toNat with
          | 72 => .edit .moveHome
          | 70 => .edit .moveEnd
          | _ => .nothing, reads)
      else (.nothing, reads)

/-- `switch(c)`: the key and what is left of the input. -/
def keyOf (c : UInt8) (reads : List Read) : LineKey × List Read :=
  match c.toNat with
  | 13 => (.enter, reads)
  | 3 => (.interrupt, reads)
  | 127 => (.edit .backspace, reads)
  | 8 => (.edit .backspace, reads)
  | 4 => (.deleteOrEnd, reads)
  | 20 => (.edit .swap, reads)
  | 2 => (.edit .moveLeft, reads)
  | 6 => (.edit .moveRight, reads)
  | 16 => (.history .prev, reads)
  | 14 => (.history .next, reads)
  | 27 => escapeKey reads
  | 21 => (.edit .killLine, reads)
  | 11 => (.edit .killToEnd, reads)
  | 1 => (.edit .moveHome, reads)
  | 5 => (.edit .moveEnd, reads)
  | 12 => (.edit .clearScreen, reads)
  | 23 => (.edit .deletePrevWord, reads)
  | _ => (.edit (.insert c), reads)

/-! ## The history while a line is edited -/

namespace History

/-- `history[i] = line` -/
def set (h : History) (i : Nat) (line : CStr) : History where
  maxLen := h.maxLen
  entries := h.entries.set i line
  len_le := by rw [List.length_set]; exact h.len_le

/-- `history_len--` -/
def pop (h : History) : History where
  maxLen := h.maxLen
  entries := h.entries.dropLast
  len_le := by
    have hle := h.len_le
    rw [List.length_dropLast]
    omega

end History

/-- The index after a step, unless it would leave the history. -/
def stepIndex (len index : Nat) : Dir → Option Nat
  | .prev => if index + 1 < len then some (index + 1) else none
  | .next => if index = 0 then none else some (index - 1)

/-- `linenoiseEditHistoryNext`, with memory for the entry that is kept. -/
def linenoiseEditHistoryNext (s : LineSetup) (dir : Dir) (l : LinenoiseState) (h : History) :
    Option (LinenoiseState × History) :=
  if h.entries.length > 1 then
    if l.historyIndex < h.entries.length then
      let h := h.set (h.entries.length - 1 - l.historyIndex) (.ofMem l.buf)
      match stepIndex h.entries.length l.historyIndex dir with
      | none => some ({ l with historyIndex := if dir = .prev then h.entries.length - 1 else 0 }, h)
      | some index => do
        let entry ← h.entries[h.entries.length - 1 - index]?
        if s.buflen ≤ l.buf.length then
          let buf ← store? (strncpyBytes entry s.buflen ++ l.buf.drop s.buflen) (s.buflen - 1) 0
          let len := (CStr.ofMem buf).strlen
          let l ← refreshLine s { l with buf, len, pos := len, historyIndex := index }
          return (l, h)
        else none
    else none
  else some (l, h)

/-! ## The loop -/

structure Editing where
  line : LinenoiseState
  history : History
  reads : List Read

/-- How a call ends: the count, `none` for -1, the string in the buffer, the history, what is left of the
    input and what was handed to `write`. -/
structure EditResult where
  count : Option Nat
  line : CStr
  history : History
  reads : List Read
  out : List UInt8
  deriving DecidableEq

def Editing.result (x : Editing) (count : Option Nat) : EditResult :=
  ⟨count, .ofMem x.line.buf, x.history, x.reads, x.line.out⟩

/-- `history_len--; free(history[history_len])`, which needs an entry. -/
def Editing.popped (x : Editing) (count : Option Nat) : Option EditResult :=
  if x.history.entries = [] then none else some { x.result count with history := x.history.pop }

/-- A function of the line, and the turn that follows from its result. -/
def Editing.apply (s : LineSetup) (write : Bool) (x : Editing) (e : Edit) : Turn Editing (Option EditResult) :=
  match edit s write x.line e with
  | none => .leave none
  | some (ret, line) =>
    if ret = 0 then .next { x with line } else .leave (some ({ x with line }.result none))

/-- One turn of the loop; `write` tells whether one byte is written once so many bytes have been. -/
def editTurn (s : LineSetup) (write : Nat → Bool) (x : Editing) : Turn Editing (Option EditResult) :=
  let (r, reads) := nextRead x.reads
  let x := { x with reads }
  match r with
  | .eof _ | .error => .leave (some (x.result (some x.line.len)))
  | .byte c =>
    -- `completeLine`
    if c = 9 then .next x
    else
      let (key, reads) := keyOf c x.reads
      let x := { x with reads }
      match key with
      | .enter => .leave (x.popped (some x.line.len))
      | .interrupt => .leave (some (x.result none))
      | .deleteOrEnd =>
        if x.line.len > 0 then x.apply s (write x.line.out.length) .delete else .leave (x.popped none)
      | .history dir =>
        match linenoiseEditHistoryNext s dir x.line x.history with
        | none => .leave none
        | some (line, history) => .next { x with line, history }
      | .edit e => x.apply s (write x.line.out.length) e
      | .nothing => .next x

/-- What `linenoiseEdit` meets. -/
structure Tty where
  /-- the width that `ioctl` reports, `none` if it fails -/
  winsize : Option UInt16
  /-- the prompt is written -/
  prompt : Bool
  /-- the `write` behind so many bytes succeeds -/
  write : Nat → Bool
  /-- there is memory for the entry of the history -/
  entry : Bool
  /-- what `buf` holds before -/
  stack : List UInt8

/-- The fields that are set once, for a buffer of `buflen` bytes. -/
def Columns.setup (c : Columns) (buflen : Nat) (prompt : CStr) : LineSetup where
  buflen := buflen - 1
  prompt
  cols := c.cols

/-- The state in front of the loop. -/
def editStart (t : Tty) (prompt : CStr) (h : History) (c : Columns) : Editing where
  line := { buf := t.stack.set 0 0, pos := 0, len := 0, historyIndex := 0, out := c.out ++ prompt.bytes }
  history := (linenoiseHistoryAdd t.entry (.lit "") h).2
  reads := c.reads

/-- `linenoiseEdit` -/
def LinenoiseEdit (t : Tty) (buflen : Nat) (prompt : CStr) (h : History) (reads : List Read)
    (r : Option EditResult) : Prop :=
  match getColumns t.winsize t.write reads with
  | none => r = none
  | some c =>
    if t.prompt then Ends (editTurn (c.setup buflen prompt) t.write) (editStart t prompt h c) r
    else r = some ((editStart t prompt h c).result none)

end Rkx
