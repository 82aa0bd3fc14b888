import Rkx.Linenoise
import Rkx.LineText

/-!
# `linenoiseEdit` edits a text

What a call of `linenoiseEdit` is for: a text with a cursor, the history and the input, without memory
(`LineSession`).  The loop over the buffer goes side by side with it.

* `LineSession.turn`: one key;
* `editTurn_matches`: one turn of the loop and one key;
* `linenoise_edits_text`: the loop ends, never leaves its buffer or the history, and ends as the session does.

The prompt is narrower than the terminal: on a narrower one `refreshSingleLine` leaves the buffer.
-/

set_option autoImplicit false

namespace Rkx

open Lib.CString Lib.Memory Lib.OptionLoop Lib.TextCursor Lib.While

structure LineSession where
  text : Text UInt8
  history : History
  index : Nat
  reads : List Read
  out : List UInt8

namespace LineSession

def result (x : LineSession) (count : Option Nat) : EditResult :=
  ⟨count, .ofMem x.text.toList, x.history, x.reads, x.out⟩

/-- The line leaves the history, of which it was the latest entry. -/
def popped (x : LineSession) (count : Option Nat) : EditResult := { x.result count with history := x.history.pop }

def apply (s : LineSetup) (write : Bool) (x : LineSession) (e : Edit) : Turn LineSession EditResult :=
  let x' := { x with text := e.apply s.buflen x.text, out := x.out ++ e.writes s x.text }
  if e.ret s write x.text = 0 then .next x' else .leave (x'.result none)

/-- The text of an entry that the buffer takes, with the cursor behind it. -/
def recalled (s : LineSetup) (entry : CStr) : Text UInt8 := ⟨entry.bytes.take (s.buflen - 1), []⟩

/-- The line is kept as an entry and another entry takes its place. -/
def toEntry (s : LineSetup) (dir : Dir) (x : LineSession) : LineSession :=
  if x.history.entries.length > 1 then
    let history := x.history.set (x.history.entries.length - 1 - x.index) (.ofMem x.text.toList)
    match stepIndex history.entries.length x.index dir with
    | none => { x with history, index := if dir = .prev then history.entries.length - 1 else 0 }
    | some index =>
      let text := recalled s (history.entries.getD (history.entries.length - 1 - index) (.lit ""))
      { x with text, history, index, out := x.out ++ shown s text }
  else x

def turn (s : LineSetup) (write : Nat → Bool) (x : LineSession) : Turn LineSession EditResult :=
  let (r, reads) := nextRead x.reads
  let x := { x with reads }
  match r with
  | .eof _ | .error => .leave (x.result (some x.text.toList.length))
  | .byte c =>
    if c = 9 then .next x
    else
      let (key, reads) := keyOf c x.reads
      let x := { x with reads }
      match key with
      | .enter => .leave (x.popped (some x.text.toList.length))
      | .interrupt => .leave (x.result none)
      | .deleteOrEnd =>
        if x.text.toList.length > 0 then x.apply s (write x.out.length) .delete else .leave (x.popped none)
      | .history dir => .next (x.toEntry s dir)
      | .edit e => x.apply s (write x.out.length) e
      | .nothing => .next x

/-- An empty text behind the prompt. -/
def start (prompt : CStr) (h : History) (c : Columns) : LineSession where
  text := .empty
  history := (linenoiseHistoryAdd true (.lit "") h).2
  index := 0
  reads := c.reads
  out := c.out ++ prompt.bytes

end LineSession

/-! ## The input is used up -/

theorem escapeKey_suffix (reads : List Read) : (escapeKey reads).2 <:+ reads := by
  have h1 := nextRead_suffix reads
  have h2 := (nextRead_suffix (nextRead reads).2).trans h1
  have h3 := (nextRead_suffix (nextRead (nextRead reads).2).2).trans h2
  unfold escapeKey
  repeat' split
  all_goals simp_all

theorem keyOf_suffix (c : UInt8) (reads : List Read) : (keyOf c reads).2 <:+ reads := by
  have h := escapeKey_suffix reads
  unfold keyOf
  split <;> first | exact List.suffix_rfl | exact h

/-! ## Side by side -/

/-- The buffer holds the text of the session, and the index is in the history. -/
structure Related (s : LineSetup) (x : Editing) (y : LineSession) : Prop where
  holds : Holds s x.line y.text
  history : x.history = y.history
  index : x.line.historyIndex = y.index
  inside : y.index < y.history.entries.length
  reads : x.reads = y.reads
  out : x.line.out = y.out

variable {s : LineSetup} {x : Editing} {y : LineSession}

theorem Holds.length {l : LinenoiseState} {t : Text UInt8} (h : Holds s l t) : t.toList.length = l.len := by
  rw [h.len, Text.toList, List.length_append]

/-- The string in the buffer. -/
theorem Holds.ofMem {l : LinenoiseState} {t : Text UInt8} (h : Holds s l t) :
    CStr.ofMem l.buf = CStr.ofMem t.toList := by
  obtain ⟨rest, hmem⟩ := h.mem
  rw [hmem]
  exact CStr.ofMem_append_nul rest _

namespace Related

theorem result (h : Related s x y) (count : Option Nat) : x.result count = y.result count := by
  unfold Editing.result LineSession.result
  rw [h.holds.ofMem, h.history, h.reads, h.out]

theorem popped (h : Related s x y) (count : Option Nat) : x.popped count = some (y.popped count) := by
  have hne : x.history.entries ≠ [] := by
    rw [h.history]
    exact List.ne_nil_of_length_pos (Nat.zero_lt_of_lt h.inside)
  unfold Editing.popped
  rw [if_neg hne, h.result, h.history]
  rfl

/-- The outcome of a turn in both loops. -/
abbrev MatchesTurn (s : LineSetup) : Turn Editing (Option EditResult) → Turn LineSession EditResult → Prop :=
  Matches (Related s) (fun r r' => r = some r')

theorem apply (h : Related s x y) (hs : s.Fits) (write : Bool) (e : Edit) :
    MatchesTurn s (x.apply s write e) (y.apply s write e) := by
  obtain ⟨⟨ret, line⟩, hedit, hedits⟩ := edit_holds hs h.holds write e
  have hrel : Related s { x with line }
      { y with text := e.apply s.buflen y.text, out := y.out ++ e.writes s y.text } := by
    constructor
    case holds => exact hedits.holds
    case history => exact h.history
    case index => exact hedits.index.trans h.index
    case inside => exact h.inside
    case reads => exact h.reads
    case out => exact hedits.out.trans (congrArg (· ++ _) h.out)
  have hret : ret = e.ret s write y.text := hedits.ret
  unfold Editing.apply LineSession.apply
  rw [hedit]
  simp only [hret]
  by_cases hzero : e.ret s write y.text = 0
  · rw [if_pos hzero, if_pos hzero]
    exact hrel
  · rw [if_neg hzero, if_neg hzero]
    exact congrArg some (hrel.result none)

end Related

/-- A shorter field holds the first part of what a longer one does. -/
theorem strncpyBytes_succ (e : CStr) (n : Nat) : ∃ last, strncpyBytes e (n + 1) = strncpyBytes e n ++ [last] := by
  have htake : (strncpyBytes e (n + 1)).take n = strncpyBytes e n := by
    unfold strncpyBytes CStr.strlen
    rw [List.take_append, List.take_take, List.take_replicate, List.length_take]
    congr 2 <;> omega
  have hlen : ((strncpyBytes e (n + 1)).drop n).length = 1 := by simp
  obtain ⟨last, hlast⟩ := List.length_eq_one_iff.1 hlen
  refine ⟨last, ?_⟩
  rw [← htake, ← hlast, List.take_append_drop]

/-- The entry in the buffer: as much of it as fits, and a NUL. -/
theorem holds_recalled (hbuf : 0 < s.buflen) {l : LinenoiseState} {t : Text UInt8} (h : Holds s l t) (entry : CStr)
    {n : Nat} (hn : n = (LineSession.recalled s entry).before.length) :
    ∃ buf, store? (strncpyBytes entry s.buflen ++ l.buf.drop s.buflen) (s.buflen - 1) 0 = some buf ∧
      (CStr.ofMem buf).strlen = n ∧
      ∀ index, Holds s { l with buf, pos := n, len := n, historyIndex := index } (LineSession.recalled s entry) := by
  obtain ⟨k, hk⟩ : ∃ k, s.buflen = k + 1 := ⟨s.buflen - 1, by omega⟩
  have hsize := h.size
  obtain ⟨last, hlast⟩ := strncpyBytes_succ entry k
  have hstore := store?_append (i := k) (p := strncpyBytes entry k) (by simp) last 0 (l.buf.drop s.buflen)
  rw [List.append_cons, ← hlast, ← hk] at hstore
  obtain ⟨rest, hrest⟩ : ∃ rest, strncpyBytes entry k ++ 0 :: l.buf.drop s.buflen = entry.bytes.take k ++ 0 :: rest := by
    unfold strncpyBytes
    rw [List.append_assoc]
    cases k - entry.strlen with
    | zero => exact ⟨_, rfl⟩
    | succ m => exact ⟨List.replicate m 0 ++ 0 :: l.buf.drop s.buflen, by rw [List.replicate_succ]; rfl⟩
  have hbefore : (LineSession.recalled s entry).before = entry.bytes.take k := by
    rw [LineSession.recalled, hk, Nat.add_sub_cancel]
  refine ⟨_, by rw [hk, Nat.add_sub_cancel, ← hk]; exact hstore, ?_, ?_⟩
  · rw [hrest, CStr.ofMem_append_nul, hn, hbefore, ← CStr.take_bytes]
    exact congrArg List.length (CStr.ofMem_bytes_of_noNul (entry.take k).noNul)
  · intro index
    constructor
    case mem => exact ⟨rest, by rw [hbefore]; simpa [LineSession.recalled] using hrest⟩
    case pos => exact hn
    case len => simp [hn, LineSession.recalled]
    case size =>
      have hlen := length_store? hstore
      simp only [List.length_append, length_strncpyBytes, List.length_drop] at hlen
      show (strncpyBytes entry k ++ 0 :: l.buf.drop s.buflen).length = _
      rw [List.length_append, length_strncpyBytes, List.length_cons, List.length_drop]
      omega

theorem length_set (h : History) (i : Nat) (line : CStr) : (h.set i line).entries.length = h.entries.length :=
  List.length_set

theorem stepIndex_lt {len index i : Nat} {dir : Dir} (h : stepIndex len index dir = some i) (hlt : index < len) :
    i < len := by
  cases dir with
  | next =>
    simp only [stepIndex, Option.ite_none_left_eq_some, Option.some.injEq] at h
    omega
  | prev =>
    simp only [stepIndex, Option.ite_none_right_eq_some, Option.some.injEq] at h
    omega

/-- **Another entry** comes into the buffer. -/
theorem Related.toEntry (h : Related s x y) (hs : s.Fits) (hbuf : 0 < s.buflen) (dir : Dir) :
    ∃ line history, linenoiseEditHistoryNext s dir x.line x.history = some (line, history) ∧
      Related s { x with line, history } (y.toEntry s dir) := by
  have hinside := h.inside
  unfold linenoiseEditHistoryNext LineSession.toEntry
  rw [h.history, h.index, h.holds.ofMem]
  by_cases hmany : y.history.entries.length > 1
  · rw [if_pos hmany, if_pos hinside, if_pos hmany]
    simp only [length_set]
    generalize hkept : y.history.set (y.history.entries.length - 1 - y.index) (CStr.ofMem y.text.toList) = kept
    have hlen : kept.entries.length = y.history.entries.length := by rw [← hkept, length_set]
    cases hstep : stepIndex y.history.entries.length y.index dir with
    | none =>
      refine ⟨_, _, rfl, ⟨⟨h.holds.mem, h.holds.pos, h.holds.len, h.holds.size⟩, rfl, rfl, ?_, h.reads, h.out⟩⟩
      simp only [hlen]
      split <;> omega
    | some index =>
      have hindex := stepIndex_lt hstep hinside
      have hlast : y.history.entries.length - 1 - index < kept.entries.length := by omega
      have hentry := List.getElem?_eq_getElem hlast
      have hgetD : kept.entries.getD (y.history.entries.length - 1 - index) (.lit "") =
          kept.entries[y.history.entries.length - 1 - index] := by
        rw [List.getD_eq_getElem?_getD, hentry, Option.getD_some]
      obtain ⟨buf, hstore, hstrlen, hholds⟩ := holds_recalled hbuf h.holds
        kept.entries[y.history.entries.length - 1 - index] rfl
      have hsize := h.holds.size
      have hrefresh := refreshLine_holds hs (hholds index)
      simp only [hentry, Option.bind_eq_bind, Option.bind_some]
      rw [if_pos (by omega), hstore]
      simp only [Option.bind_some, hstrlen, hrefresh]
      refine ⟨_, _, rfl, ?_⟩
      have hrecalled := hholds index
      rw [hgetD]
      constructor
      case holds => exact ⟨hrecalled.mem, hrecalled.pos, hrecalled.len, hrecalled.size⟩
      case history => rfl
      case index => rfl
      case inside => rwa [hlen]
      case reads => exact h.reads
      case out => exact congrArg (· ++ _) h.out
  · rw [if_neg hmany, if_neg hmany]
    exact ⟨_, _, rfl, ⟨h.holds, rfl, h.index, hinside, h.reads, h.out⟩⟩

/-- **One turn of the loop is one key of the session.** -/
theorem editTurn_matches (h : Related s x y) (hs : s.Fits) (hbuf : 0 < s.buflen) (write : Nat → Bool) :
    Related.MatchesTurn s (editTurn s write x) (y.turn s write) := by
  have hread : ∀ reads, Related s { x with reads } { y with reads } :=
    fun reads => ⟨h.holds, h.history, h.index, h.inside, rfl, h.out⟩
  have hlen : x.line.len = y.text.toList.length := h.holds.length.symm
  unfold editTurn LineSession.turn
  rw [h.reads]
  obtain ⟨r, reads⟩ := nextRead y.reads
  cases r with
  | eof stale =>
    simp only
    rw [hlen]
    exact congrArg some ((hread reads).result _)
  | error =>
    simp only
    rw [hlen]
    exact congrArg some ((hread reads).result _)
  | byte c =>
    simp only
    by_cases htab : c = 9
    · rw [if_pos htab, if_pos htab]
      exact hread reads
    · rw [if_neg htab, if_neg htab]
      obtain ⟨key, reads⟩ := keyOf c reads
      have hrel := hread reads
      rw [h.out, hlen]
      cases key with
      | enter => exact hrel.popped _
      | interrupt => exact congrArg some (hrel.result _)
      | deleteOrEnd =>
        simp only
        split
        · exact hrel.apply hs _ _
        · exact hrel.popped _
      | history dir =>
        obtain ⟨line, history, hnext, hrecall⟩ := hrel.toEntry hs hbuf dir
        simp only at hnext ⊢
        rw [hnext]
        exact hrecall
      | edit e => exact hrel.apply hs _ _
      | nothing => exact hrel

/-! ## The whole call -/

theorem LineSession.apply_reads {write : Bool} {e : Edit} {y y' : LineSession} (h : y.apply s write e = .next y') :
    y'.reads = y.reads := by
  unfold apply at h
  simp only at h
  split at h
  · cases h
    rfl
  · cases h

theorem LineSession.toEntry_reads (dir : Dir) (y : LineSession) : (y.toEntry s dir).reads = y.reads := by
  unfold toEntry
  split
  · simp only
    split <;> rfl
  · rfl

/-- Every key takes something from the input. -/
theorem LineSession.turn_reads {write : Nat → Bool} {y y' : LineSession} (h : y.turn s write = .next y') :
    y'.reads.length < y.reads.length := by
  unfold turn at h
  cases hreads : y.reads with
  | nil =>
    rw [hreads] at h
    cases h
  | cons r reads =>
    rw [hreads] at h
    cases r with
    | eof stale => cases h
    | error => cases h
    | byte c =>
      simp only [nextRead] at h
      split at h
      · cases h
        exact Nat.lt_succ_self _
      · have hkey := (keyOf_suffix c reads).length_le
        rcases hk : keyOf c reads with ⟨key, left⟩
        rw [hk] at h hkey
        refine Nat.lt_succ_of_le (Nat.le_trans (Nat.le_of_eq ?_) hkey)
        cases key with
        | enter => cases h
        | interrupt => cases h
        | deleteOrEnd =>
          simp only at h
          split at h
          · exact congrArg List.length (apply_reads h)
          · cases h
        | history dir =>
          cases h
          exact congrArg List.length (toEntry_reads dir _)
        | edit e => exact congrArg List.length (apply_reads h)
        | nothing =>
          cases h
          rfl

/-- A prompt puts an empty entry behind the others. -/
theorem getLast?_linenoiseHistoryAdd {h : History} (hmax : h.maxLen ≠ 0) (line : CStr) :
    (linenoiseHistoryAdd true line h).2.entries.getLast? = some line := by
  unfold linenoiseHistoryAdd
  rw [dif_neg hmax]
  split
  · assumption
  · exact List.getLast?_concat

section Start

variable {t : Tty} {buflen : Nat} {prompt : CStr} {h : History} {c : Columns} {reads : List Read}

theorem related_start (hentry : t.entry = true) (hsize : t.stack.length = buflen) (hbuf : 0 < buflen)
    (hmax : h.maxLen ≠ 0) : Related (c.setup buflen prompt) (editStart t prompt h c) (.start prompt h c) := by
  obtain ⟨b, rest, hstack⟩ := List.exists_cons_of_length_pos (l := t.stack) (by omega)
  have hlast := getLast?_linenoiseHistoryAdd hmax (.lit "")
  constructor
  case holds =>
    have hset : t.stack.set 0 0 = 0 :: rest := by
      rw [hstack]
      rfl
    refine ⟨⟨rest, hset⟩, rfl, rfl, ?_⟩
    show (t.stack.set 0 0).length = buflen - 1 + 1
    rw [List.length_set]
    omega
  case history =>
    show (linenoiseHistoryAdd t.entry (.lit "") h).2 = _
    rw [hentry]
    rfl
  case inside =>
    refine List.length_pos_iff.2 ?_
    intro hnil
    have hnone := congrArg List.getLast? hnil
    cases hlast.symm.trans hnone
  all_goals rfl

/-- The result of the session. -/
def LineSession.Returns (t : Tty) (buflen : Nat) (prompt : CStr) (h : History) (c : Columns) (r : EditResult) : Prop :=
  Ends (turn (c.setup buflen prompt) t.write) (start prompt h c) r

theorem exists_returns (t : Tty) (buflen : Nat) (prompt : CStr) (h : History) (c : Columns) :
    ∃ r, LineSession.Returns t buflen prompt h c r := by
  obtain ⟨r, hr⟩ := @exists_run_of_measure _ _ (LineSession.turn (c.setup buflen prompt) t.write)
    (fun y => y.reads.length) (fun _ _ => LineSession.turn_reads) _ _
    (Nat.lt_succ_self (LineSession.start prompt h c).reads.length)
  exact ⟨r, _, hr⟩

theorem Returns.linenoiseEdit (hcols : getColumns t.winsize t.write reads = some c) (hfits : prompt.strlen < c.cols)
    (hprompt : t.prompt = true) (hentry : t.entry = true) (hsize : t.stack.length = buflen) (hbuf : 1 < buflen)
    (hmax : h.maxLen ≠ 0) {r : EditResult} (hr : LineSession.Returns t buflen prompt h c r) :
    LinenoiseEdit t buflen prompt h reads (some r) := by
  have hroom : 0 < (c.setup buflen prompt).buflen := by
    show 0 < buflen - 1
    omega
  obtain ⟨r', hends, rfl⟩ := ends_of_matches
    (fun x y hxy => editTurn_matches hxy (s := c.setup buflen prompt) hfits hroom t.write)
    (related_start hentry hsize (by omega) hmax) hr
  unfold LinenoiseEdit
  rw [hcols]
  simp only
  rw [if_pos hprompt]
  exact hends

/-- **`linenoiseEdit` edits a text**: whatever is typed, the loop ends without an access outside of its buffer
    or of the history, and ends as the session does. -/
theorem linenoise_edits_text (hcols : getColumns t.winsize t.write reads = some c) (hfits : prompt.strlen < c.cols)
    (hprompt : t.prompt = true) (hentry : t.entry = true) (hsize : t.stack.length = buflen) (hbuf : 1 < buflen)
    (hmax : h.maxLen ≠ 0) :
    ∃ r, LinenoiseEdit t buflen prompt h reads (some r) ∧ LineSession.Returns t buflen prompt h c r := by
  obtain ⟨r, hr⟩ := exists_returns t buflen prompt h c
  exact ⟨r, Returns.linenoiseEdit hcols hfits hprompt hentry hsize hbuf hmax hr, hr⟩

end Start

/-- A terminal of 80 columns. -/
def tty80 : Tty where
  winsize := some 80
  prompt := true
  write _ := true
  entry := true
  stack := List.replicate LINENOISE_MAX_LINE 0

theorem linenoise_edits_rkx :
    ∃ r, LinenoiseEdit tty80 LINENOISE_MAX_LINE (.lit "rkx>") .init [.byte 108, .byte 115, .byte 13] (some r) ∧
      LineSession.Returns tty80 LINENOISE_MAX_LINE (.lit "rkx>") .init ⟨80, [.byte 108, .byte 115, .byte 13], []⟩ r :=
  linenoise_edits_text rfl (by decide) rfl rfl List.length_replicate (by decide) History.maxLen_init

end Rkx
