import Rkx.Lib.CString
import Rkx.Lib.Memory

/-!
# The line buffer (`linenoise.c`)

`struct linenoiseState` holds the line that is being typed in a block of `buflen + 1` bytes, with a cursor
and a length.  Each editing function moves bytes inside the block and shows the line again.  An access
outside of the block has no result (`none`).

* `refreshSingleLine`: the bytes that show the line, `refreshLine`;
* `linenoiseEditInsert` and the other editing functions;
* `Edit`, `edit`: all of them under one name.

The multi-line mode, the mask and the hints are not modelled: nothing in the program turns them on.  `abAppend` finds
memory for what is shown.
-/

set_option autoImplicit false

namespace Rkx

open Lib.CString Lib.Memory

/-- The fields of `struct linenoiseState` that `linenoiseEdit` sets once. -/
structure LineSetup where
  /-- the size of the buffer without the byte for the NUL at the end -/
  buflen : Nat
  prompt : CStr
  cols : Nat

/-- `l.plen` -/
def LineSetup.plen (s : LineSetup) : Nat := s.prompt.strlen

/-- The other fields of `struct linenoiseState`, and the bytes handed to `write` so far. -/
structure LinenoiseState where
  buf : List UInt8
  pos : Nat
  len : Nat
  historyIndex : Nat
  out : List UInt8
  deriving DecidableEq

/-! ## Showing the line -/

/-- `while((plen+pos) >= l->cols) { buf++; len--; pos--; }`, on the offset of `buf`, the length and the
    position; one that would go below zero has no result. -/
def scrollTurns (s : LineSetup) : Nat → Nat → Nat → Option (Nat × Nat × Nat)
  | off, len, 0 => if s.plen ≥ s.cols then none else some (off, len, 0)
  | off, 0, pos + 1 => if s.plen + (pos + 1) ≥ s.cols then none else some (off, 0, pos + 1)
  | off, len + 1, pos + 1 =>
    if s.plen + (pos + 1) ≥ s.cols then scrollTurns s (off + 1) len pos else some (off, len + 1, pos + 1)

/-- `while (plen+len > l->cols) len--;` -/
def clipTurns (s : LineSetup) : Nat → Nat
  | 0 => 0
  | len + 1 => if s.plen + (len + 1) > s.cols then clipTurns s len else len + 1

/-- `"\x1b[0K"` -/
def eraseToRight : List UInt8 := [27, 91, 48, 75]

/-- `"\r\x1b[%dC"` -/
def cursorTo (n : Nat) : List UInt8 := [13, 27, 91] ++ (decimal n).bytes ++ [67]

/-- What `refreshSingleLine` writes to the terminal. -/
def refreshSingleLine (s : LineSetup) (l : LinenoiseState) : Option (List UInt8) := do
  let (off, len, pos) ← scrollTurns s 0 l.len l.pos
  let len := clipTurns s len
  if off + len ≤ l.buf.length then
    some ([13] ++ s.prompt.bytes ++ (l.buf.drop off).take len ++ eraseToRight ++ cursorTo (pos + s.plen))
  else none

def refreshLine (s : LineSetup) (l : LinenoiseState) : Option LinenoiseState := do
  let bytes ← refreshSingleLine s l
  return { l with out := l.out ++ bytes }

/-! ## The editing functions -/

/-- `linenoiseEditInsert`, `write` telling whether the one byte it may write is written. -/
def linenoiseEditInsert (s : LineSetup) (write : Bool) (c : UInt8) (l : LinenoiseState) : Option (Int × LinenoiseState) :=
  if l.len < s.buflen then
    if l.len = l.pos then do
      let buf ← store? l.buf l.pos c
      let buf ← store? buf (l.len + 1) 0
      let l := { l with buf, pos := l.pos + 1, len := l.len + 1 }
      if s.plen + l.len < s.cols then
        return (if write then 0 else -1, { l with out := l.out ++ [c] })
      else
        let l ← refreshLine s l
        return (0, l)
    else do
      let buf ← memmove? l.buf (l.pos + 1) l.pos (l.len - l.pos)
      let buf ← store? buf l.pos c
      let buf ← store? buf (l.len + 1) 0
      let l ← refreshLine s { l with buf, pos := l.pos + 1, len := l.len + 1 }
      return (0, l)
  else return (0, l)

def linenoiseEditMoveLeft (s : LineSetup) (l : LinenoiseState) : Option LinenoiseState :=
  if l.pos > 0 then refreshLine s { l with pos := l.pos - 1 } else some l

def linenoiseEditMoveRight (s : LineSetup) (l : LinenoiseState) : Option LinenoiseState :=
  if l.pos ≠ l.len then refreshLine s { l with pos := l.pos + 1 } else some l

def linenoiseEditMoveHome (s : LineSetup) (l : LinenoiseState) : Option LinenoiseState :=
  if l.pos ≠ 0 then refreshLine s { l with pos := 0 } else some l

def linenoiseEditMoveEnd (s : LineSetup) (l : LinenoiseState) : Option LinenoiseState :=
  if l.pos ≠ l.len then refreshLine s { l with pos := l.len } else some l

def linenoiseEditDelete (s : LineSetup) (l : LinenoiseState) : Option LinenoiseState :=
  if l.len > 0 ∧ l.pos < l.len then do
    let buf ← memmove? l.buf l.pos (l.pos + 1) (l.len - l.pos - 1)
    let buf ← store? buf (l.len - 1) 0
    refreshLine s { l with buf, len := l.len - 1 }
  else some l

def linenoiseEditBackspace (s : LineSetup) (l : LinenoiseState) : Option LinenoiseState :=
  if l.pos > 0 ∧ l.len > 0 then do
    let buf ← memmove? l.buf (l.pos - 1) l.pos (l.len - l.pos)
    let buf ← store? buf (l.len - 1) 0
    refreshLine s { l with buf, pos := l.pos - 1, len := l.len - 1 }
  else some l

def isBlank (b : UInt8) : Bool := b == 32

/-- `while (l->pos > 0 && p(l->buf[l->pos-1])) l->pos--;` -/
def backTurns (p : UInt8 → Bool) (buf : List UInt8) : Nat → Option Nat
  | 0 => some 0
  | pos + 1 => do
    let b ← buf[pos]?
    if p b then backTurns p buf pos else some (pos + 1)

def linenoiseEditDeletePrevWord (s : LineSetup) (l : LinenoiseState) : Option LinenoiseState := do
  let pos ← backTurns isBlank l.buf l.pos
  let pos ← backTurns (fun b => !isBlank b) l.buf pos
  let buf ← memmove? l.buf pos l.pos (l.len - l.pos + 1)
  refreshLine s { l with buf, pos, len := l.len - (l.pos - pos) }

/-- The case `CTRL_T` of `linenoiseEdit`. -/
def editSwap (s : LineSetup) (l : LinenoiseState) : Option LinenoiseState :=
  if l.pos > 0 ∧ l.pos < l.len then do
    let aux ← l.buf[l.pos - 1]?
    let c ← l.buf[l.pos]?
    let buf ← store? l.buf (l.pos - 1) c
    let buf ← store? buf l.pos aux
    refreshLine s { l with buf, pos := if l.pos ≠ l.len - 1 then l.pos + 1 else l.pos }
  else some l

/-- The case `CTRL_U`. -/
def editKillLine (s : LineSetup) (l : LinenoiseState) : Option LinenoiseState := do
  let buf ← store? l.buf 0 0
  refreshLine s { l with buf, pos := 0, len := 0 }

/-- The case `CTRL_K`. -/
def editKillToEnd (s : LineSetup) (l : LinenoiseState) : Option LinenoiseState := do
  let buf ← store? l.buf l.pos 0
  refreshLine s { l with buf, len := l.pos }

/-- `"\x1b[H\x1b[2J"` -/
def eraseDisplay : List UInt8 := [27, 91, 72, 27, 91, 50, 74]

/-- The case `CTRL_L`: `linenoiseClearScreen` and the line again. -/
def editClearScreen (s : LineSetup) (l : LinenoiseState) : Option LinenoiseState :=
  refreshLine s { l with out := l.out ++ eraseDisplay }

/-- The edits of the line that a key asks for. -/
inductive Edit where
  | insert (c : UInt8)
  | backspace
  | delete
  | swap
  | moveLeft
  | moveRight
  | moveHome
  | moveEnd
  | killLine
  | killToEnd
  | clearScreen
  | deletePrevWord
  deriving DecidableEq

/-- The result of the function, 0 where it has none, and the line. -/
def edit (s : LineSetup) (write : Bool) (l : LinenoiseState) : Edit → Option (Int × LinenoiseState)
  | .insert c => linenoiseEditInsert s write c l
  | .backspace => (linenoiseEditBackspace s l).map (0, ·)
  | .delete => (linenoiseEditDelete s l).map (0, ·)
  | .swap => (editSwap s l).map (0, ·)
  | .moveLeft => (linenoiseEditMoveLeft s l).map (0, ·)
  | .moveRight => (linenoiseEditMoveRight s l).map (0, ·)
  | .moveHome => (linenoiseEditMoveHome s l).map (0, ·)
  | .moveEnd => (linenoiseEditMoveEnd s l).map (0, ·)
  | .killLine => (editKillLine s l).map (0, ·)
  | .killToEnd => (editKillToEnd s l).map (0, ·)
  | .clearScreen => (editClearScreen s l).map (0, ·)
  | .deletePrevWord => (linenoiseEditDeletePrevWord s l).map (0, ·)

end Rkx
