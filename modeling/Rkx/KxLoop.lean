import Rkx.File
import Rkx.Lib.Runs
import Rkx.LineRead
import Rkx.LineSession
import Rkx.Shell

/-!
# `kx_loop` (`rkx.c`)

The loop takes a line from `linenoise`, splits it, looks its first word up and executes the command.  It ends when
`linenoise` returns NULL.

* `KxTurn`: a turn of the loop;
* `Performs`: what a line is for;
* `Feeds.turn_iff`: a turn on a line;
* `typed_lines_run`, `piped_lines_run`: lines are performed one after the other.

What the handlers do is a parameter, with no result where they do not return.
-/

set_option autoImplicit false

namespace Rkx

open Lib.CInt Lib.CString Lib.Lines Lib.OptionLoop Lib.Runs Lib.TextCursor Lib.While Lib.Words

/-- `KX_PROMPT` -/
def KX_PROMPT : CStr := .lit "rkx>"

/-- What one turn meets: standard input, and `malloc` in `split_str`. -/
structure Surroundings extends Stdin where
  malloc : UInt64 → Bool

structure KxLoop (σ : Type) where
  history : History
  reads : List Read
  client : σ

section Turn

variable {σ : Type} (execute : Execute → Context → σ → Option σ)

/-- A turn of the loop, which goes on or leaves with the history. -/
inductive KxTurn (t : Surroundings) (x : KxLoop σ) : Turn (KxLoop σ) History → Prop where
  /-- `linenoise` returns NULL -/
  | stop (h : History) (reads : List Read)
      (hline : Linenoise t.toStdin KX_PROMPT x.history x.reads (some ⟨none, h, reads⟩)) : KxTurn t x (.leave h)
  /-- `line[0] == '\0' || line[0] == '/'` -/
  | skip (line : CStr) (h : History) (reads : List Read)
      (hline : Linenoise t.toStdin KX_PROMPT x.history x.reads (some ⟨some line, h, reads⟩))
      (hskip : line.bytes = [] ∨ line.bytes.head? = some slash) : KxTurn t x (.next ⟨h, reads, x.client⟩)
  /-- `gctx->argc == 0` -/
  | blank (line : CStr) (h : History) (reads : List Read)
      (hline : Linenoise t.toStdin KX_PROMPT x.history x.reads (some ⟨some line, h, reads⟩))
      (hskip : ¬ (line.bytes = [] ∨ line.bytes.head? = some slash)) (r : Split) (hsplit : Splits t.malloc line r)
      (hargc : r.argc = 0) : KxTurn t x (.next ⟨h, reads, x.client⟩)
  /-- `get_cmd` -/
  | command (line : CStr) (h : History) (reads : List Read)
      (hline : Linenoise t.toStdin KX_PROMPT x.history x.reads (some ⟨some line, h, reads⟩))
      (hskip : ¬ (line.bytes = [] ∨ line.bytes.head? = some slash)) (r : Split) (hsplit : Splits t.malloc line r)
      (hargc : r.argc ≠ 0) (ctx : Context) (hctx : ctx.Of r) (c : σ)
      (hexecute : ((getCmd (ctx.argv.head ctx.named)).elim (some x.client) fun e => execute e ctx x.client) = some c) :
      KxTurn t x (.next ⟨h, reads, c⟩)

/-- Turns that go on. -/
def KxTurns : List Surroundings → KxLoop σ → KxLoop σ → Prop := Steps fun t x y => KxTurn execute t x (.next y)

/-! ## What a line is for -/

/-- A line does nothing, or its words are the arguments of the command that the first of them names. -/
inductive Performs (c : σ) (line : List UInt8) : σ → Prop where
  | nothing (hline : line.head? = some slash ∨ words isSpace line = []) : Performs c line c
  | command (hslash : line.head? ≠ some slash) (ctx : Context)
      (hargs : ctx.argv.map CStr.bytes = words isSpace line) (c' : σ)
      (hexecute : ((getCmd (ctx.argv.head ctx.named)).elim (some c) fun e => execute e ctx c) = some c') :
      Performs c line c'

/-- Lines one after the other. -/
def PerformsAll : List (List UInt8) → σ → σ → Prop := Steps fun line c c' => Performs execute c line c'

end Turn

/-! ## Nothing fails -/

/-- The width that `ioctl` reports. -/
def Surroundings.width (t : Surroundings) : Nat := (t.winsize.getD 0).toNat

/-- A terminal that is supported, takes every byte and has room for the prompt in a row; and there is memory. -/
structure Surroundings.Works (t : Surroundings) : Prop where
  isatty : t.isatty = true
  term : isUnsupportedTerm t.term = false
  raw : t.raw = true
  width : KX_PROMPT.strlen < t.width
  prompt : t.prompt = true
  write : ∀ n, t.write n = true
  entry : t.entry = true
  copy : t.copy = true
  stack : t.stack.length = LINENOISE_MAX_LINE
  malloc : ∀ size, t.malloc size = true

/-- A file or a pipe, and there is memory. -/
structure Surroundings.Piped (t : Surroundings) : Prop where
  isatty : t.isatty = false
  realloc : ∀ size, t.realloc size = true
  malloc : ∀ size, t.malloc size = true

/-- What `getColumns` leaves of the input, without what came in before the prompt. -/
def Surroundings.columns (t : Surroundings) (reads : List Read) : Columns := ⟨t.width, reads.drop t.ahead, []⟩

/-- The result of a session in the shell. -/
def Surroundings.Returns (t : Surroundings) (h : History) (reads : List Read) : EditResult → Prop :=
  LineSession.Returns t.toTty LINENOISE_MAX_LINE KX_PROMPT h (t.columns reads)

section Works

variable {t : Surroundings} {h : History} {reads : List Read}

/-- **`linenoise` returns what the session does.** -/
theorem Surroundings.Works.linenoise_iff (ht : t.Works) (hmax : h.maxLen ≠ 0) {r : Option LineRead} :
    Linenoise t.toStdin KX_PROMPT h reads r ↔
      ∃ e, t.Returns h reads e ∧ r = some (e.lineRead true t.behind) := by
  obtain ⟨e, he⟩ := exists_returns t.toTty LINENOISE_MAX_LINE KX_PROMPT h (t.columns reads)
  have hcols : getColumns t.winsize t.write (reads.drop t.ahead) = some (t.columns reads) := by
    have hwidth := ht.width
    unfold Surroundings.columns
    unfold Surroundings.width at hwidth ⊢
    cases hsize : t.winsize with
    | none =>
      rw [hsize] at hwidth
      cases hwidth
    | some w =>
      rw [hsize] at hwidth
      exact getColumns_reported (Nat.zero_lt_of_lt hwidth) _ _
  have hedit := Returns.linenoiseEdit hcols ht.width ht.prompt ht.entry ht.stack (by decide) hmax he
  have hraw : ¬ t.isatty = false := by simp [ht.isatty]
  have hterm : ¬ isUnsupportedTerm t.term = true := by simp [ht.term]
  unfold Linenoise
  rw [if_neg hraw, if_neg hterm, if_pos ht.raw, ht.copy]
  constructor
  · rintro ⟨e', he', rfl⟩
    refine ⟨e, he, ?_⟩
    unfold LinenoiseEdit at he' hedit
    rw [hcols] at he' hedit
    simp only [if_pos ht.prompt] at he' hedit
    rw [Ends.unique he' hedit]
    rfl
  · rintro ⟨e', he', rfl⟩
    refine ⟨some e', ?_, rfl⟩
    rwa [Ends.unique he' he]

/-- A pipe is read without the history. -/
theorem Surroundings.Piped.linenoise_iff (ht : t.Piped) {r : Option LineRead} :
    Linenoise t.toStdin KX_PROMPT h reads r ↔
      r = (linenoiseNoTTY t.realloc reads).map fun (line, reads) => ⟨line, h, reads⟩ := by
  unfold Linenoise
  rw [if_pos ht.isatty]

end Works

/-- A terminal of 80 columns. -/
def terminal : Surroundings where
  toTty := tty80
  isatty := true
  term := some (.lit "xterm")
  raw := true
  ahead := 0
  behind := 0
  realloc _ := true
  copy := true
  malloc _ := true

theorem terminal_works : terminal.Works where
  isatty := rfl
  term := by decide
  raw := rfl
  width := by decide
  prompt := rfl
  write _ := rfl
  entry := rfl
  copy := rfl
  stack := List.length_replicate
  malloc _ := rfl

/-- No terminal. -/
def pipe : Surroundings := { terminal with isatty := false }

theorem pipe_piped : pipe.Piped := ⟨rfl, fun _ => rfl, fun _ => rfl⟩

/-! ## Lines that are typed -/

/-- The history with the entry of the line that is being typed. -/
def History.prompted (h : History) : History := (linenoiseHistoryAdd true (.lit "") h).2

/-- A terminal that takes every byte never ends the line. -/
theorem ret_eq_zero {s : LineSetup} (e : Edit) (t : Text UInt8) : e.ret s true t = 0 := by
  cases e <;> simp [Edit.ret]

def Printable (b : UInt8) : Prop := 32 ≤ b ∧ b ≠ 127

/-- The keys of a line, and Enter. -/
def lineKeys (w : List UInt8) : List Read := w.map .byte ++ [.byte 13]

theorem keyOf_printable {c : UInt8} (hc : Printable c) (reads : List Read) :
    keyOf c reads = (.edit (.insert c), reads) := by
  have hle : 32 ≤ c.toNat := UInt8.le_iff_toNat_le.1 hc.1
  have hne : c.toNat ≠ 127 := fun heq => hc.2 (UInt8.toNat_inj.1 heq)
  unfold keyOf
  split
  all_goals first | rfl | omega

/-- **A line that is typed** comes back as far as the buffer has room for it. -/
theorem ends_typed {s : LineSetup} {write : Nat → Bool} (hwrite : ∀ n, write n = true) {w : List UInt8}
    (hw : ∀ b ∈ w, Printable b) {b : List UInt8} (hb : b.length ≤ s.buflen) {r : List Read} {y : LineSession}
    (htext : y.text = ⟨b, []⟩) (hreads : y.reads = w.map .byte ++ .byte 13 :: r) :
    ∃ e, Ends (LineSession.turn s write) y e ∧ e.count.isSome ∧ e.line = .ofMem ((b ++ w).take s.buflen) ∧
      e.history = y.history.pop ∧ e.reads = r := by
  induction w generalizing b y with
  | nil =>
    rw [List.map_nil, List.nil_append] at hreads
    have hturn : y.turn s write = .leave (LineSession.popped { y with reads := r } (some y.text.toList.length)) := by
      unfold LineSession.turn
      rw [hreads]
      rfl
    refine ⟨_, ends_leave hturn, rfl, ?_, rfl, rfl⟩
    rw [List.append_nil, List.take_of_length_le hb]
    show CStr.ofMem y.text.toList = _
    rw [htext, Text.toList, List.append_nil]
  | cons c w ih =>
    obtain ⟨hc, hw⟩ := List.forall_mem_cons.1 hw
    rw [List.map_cons, List.cons_append] at hreads
    have hne : c ≠ 9 := by
      rintro rfl
      exact absurd hc.1 (by decide)
    obtain ⟨out, hturn⟩ : ∃ out, y.turn s write = .next { y with
        text := (Edit.insert c).apply s.buflen y.text, reads := w.map .byte ++ .byte 13 :: r, out } := by
      unfold LineSession.turn
      rw [hreads]
      simp only [nextRead, if_neg hne, keyOf_printable hc, LineSession.apply, hwrite, ret_eq_zero]
      exact ⟨_, rfl⟩
    by_cases hroom : b.length < s.buflen
    · obtain ⟨e, hends, he⟩ := ih hw (b := b ++ [c]) (by rw [List.length_append]; exact hroom)
        (y := { y with
          text := (Edit.insert c).apply s.buflen y.text, reads := w.map .byte ++ .byte 13 :: r, out })
        (by simp [Edit.apply, htext, Text.toList, Text.insert, hroom]) rfl
      rw [← List.append_cons] at he
      exact ⟨e, ends_next hturn hends, he⟩
    · obtain ⟨e, hends, he⟩ := ih hw hb
        (y := { y with
          text := (Edit.insert c).apply s.buflen y.text, reads := w.map .byte ++ .byte 13 :: r, out })
        (by simp [Edit.apply, htext, Text.toList, hroom]) rfl
      have hfull : b.length = s.buflen := by omega
      rw [List.take_append_of_le_length hfull.ge] at he ⊢
      exact ⟨e, ends_next hturn hends, he⟩

/-- What the line buffer has room for. -/
def fitting (w : List UInt8) : List UInt8 := w.take (LINENOISE_MAX_LINE - 1)

/-- The input from one prompt to the next: what came in before the prompt, the line, and what came in before raw mode
    ended. -/
structure TypedLine where
  ahead : List Read
  line : List UInt8
  behind : List Read

def TypedLine.reads (l : TypedLine) : List Read := l.ahead ++ lineKeys l.line ++ l.behind

/-- The line is typed in a turn. -/
structure TypedLine.In (l : TypedLine) (t : Surroundings) : Prop where
  works : t.Works
  ahead : t.ahead = l.ahead.length
  behind : t.behind = l.behind.length
  printable : ∀ b ∈ l.line, Printable b

/-- A line of a pipe. -/
def pipedLine (w : List UInt8) : List Read := typed w ++ [.byte LF]

/-! ## Lines one after the other -/

/-- A turn takes `reads` from the input and has the line `line` then; `f` is what becomes of the history. -/
structure Feeds (f : History → History) (t : Surroundings) (reads : List Read) (line : List UInt8) : Prop where
  linenoise : ∀ {h : History}, h.maxLen ≠ 0 → ∀ rest r,
    Linenoise t.toStdin KX_PROMPT h (reads ++ rest) r ↔ r = some ⟨some (.ofMem line), f h, rest⟩
  noNul : (0 : UInt8) ∉ line
  oneLine : newline ∉ line
  short : line.length ≤ INT_MAX
  malloc : ∀ size, t.malloc size = true

/-- **A line that is typed** comes back, without what came in before its prompt and behind Enter. -/
theorem TypedLine.In.feeds {l : TypedLine} {t : Surroundings} (hl : l.In t) :
    Feeds (fun h => h.prompted.pop) t l.reads (fitting l.line) where
  linenoise := by
    intro h hmax rest r
    have hahead : (l.reads ++ rest).drop t.ahead = lineKeys l.line ++ (l.behind ++ rest) := by
      rw [hl.ahead, TypedLine.reads, List.append_assoc, List.append_assoc, List.drop_left]
    obtain ⟨e, hends, hcount, hline, hhistory, hreads⟩ := ends_typed (s := (t.columns []).setup LINENOISE_MAX_LINE KX_PROMPT)
      hl.works.write hl.printable (b := []) (Nat.zero_le _) (r := l.behind ++ rest)
      (y := LineSession.start KX_PROMPT h (t.columns (l.reads ++ rest))) rfl (by
        show (l.reads ++ rest).drop t.ahead = _
        rw [hahead]
        simp [lineKeys])
    have hread : e.lineRead true t.behind = ⟨some (.ofMem (fitting l.line)), h.prompted.pop, rest⟩ := by
      unfold EditResult.lineRead
      rw [if_pos ⟨hcount, rfl⟩, hline, hhistory, hreads, hl.behind, List.drop_left]
      rfl
    rw [hl.works.linenoise_iff hmax, ← hread]
    constructor
    · rintro ⟨e', he', rfl⟩
      rw [Ends.unique he' hends]
    · rintro rfl
      exact ⟨e, hends, rfl⟩
  noNul hzero := absurd (hl.printable 0 (List.mem_of_mem_take hzero)).1 (by decide)
  oneLine hnl := absurd (hl.printable _ (List.mem_of_mem_take hnl)).1 (by decide)
  short := (List.length_take_le _ _).trans (by decide)
  malloc := hl.works.malloc

theorem Surroundings.Piped.feeds {t : Surroundings} (ht : t.Piped) {w : List UInt8} (hnl : newline ∉ w)
    (hnul : (0 : UInt8) ∉ w) (hlen : w.length ≤ INT_MAX) : Feeds id t (pipedLine w) w where
  linenoise := by
    intro h _ rest r
    rw [ht.linenoise_iff, pipedLine, List.append_assoc, List.singleton_append, linenoiseNoTTY_line ht.realloc hnl]
    rfl
  noNul := hnul
  oneLine := hnl
  short := hlen
  malloc := ht.malloc

section Lines

variable {σ : Type} {execute : Execute → Context → σ → Option σ} {f : History → History} {t : Surroundings}
  {reads : List Read} {line : List UInt8}

/-- **A turn on a line** performs it. -/
theorem Feeds.turn_iff (hfeeds : Feeds f t reads line) {h : History} (hmax : h.maxLen ≠ 0) (rest : List Read) (c : σ)
    {o : Turn (KxLoop σ) History} :
    KxTurn execute t ⟨h, reads ++ rest, c⟩ o ↔ ∃ c', Performs execute c line c' ∧ o = .next ⟨f h, rest, c'⟩ := by
  have hread := fun r => hfeeds.linenoise hmax rest r
  have hbytes : (CStr.ofMem line).bytes = line := CStr.ofMem_bytes_of_noNul hfeeds.noNul
  obtain ⟨r, hsplits, hinto⟩ := exists_splits t.malloc (by rw [hbytes]; exact hfeeds.oneLine)
  have hargv : r.argv.isSome := by rw [hinto.argv, hfeeds.malloc]
  have hle : (words isSpace line).length ≤ INT_MAX := (length_words_le (p := isSpace) line).trans hfeeds.short
  have hargc : r.argc.toInt = (words isSpace line).length := by
    rw [hinto.argc, hbytes, toInt_ofNat_of_le hle]
  have hargs : r.args.map CStr.bytes = words isSpace line := by
    rw [hinto.args hargv, hbytes, hargc, Int.toNat_natCast, List.take_length]
  have hzero : r.argc = 0 ↔ words isSpace line = [] := by
    rw [← Int32.toInt_inj, hargc, ← List.length_eq_zero_iff]
    exact Int.natCast_eq_zero
  constructor
  · intro hturn
    cases hturn with
    | stop h' reads hline => cases (hread _).1 hline
    | skip line h' reads hline hskip =>
      cases (hread _).1 hline
      rw [hbytes] at hskip
      refine ⟨c, .nothing ?_, rfl⟩
      rcases hskip with hnil | hslash
      · exact Or.inr (by rw [hnil]; rfl)
      · exact Or.inl hslash
    | blank line h' reads hline hskip r' hsplit hargc' =>
      cases (hread _).1 hline
      rw [hsplit.unique hsplits, hzero] at hargc'
      exact ⟨c, .nothing (Or.inr hargc'), rfl⟩
    | command line h' reads hline hskip r' hsplit hargc' ctx hctx c' hexecute =>
      cases (hread _).1 hline
      rw [hsplit.unique hsplits] at hctx
      rw [hbytes] at hskip
      refine ⟨c', .command (fun hslash => hskip (Or.inr hslash)) ctx ?_ c' hexecute, rfl⟩
      rw [hctx.2.2, hargs]
  · rintro ⟨c', hperforms, rfl⟩
    have hline := (hread _).2 rfl
    by_cases hskip : (CStr.ofMem line).bytes = [] ∨ (CStr.ofMem line).bytes.head? = some slash
    · cases hperforms with
      | nothing => exact .skip _ _ _ hline hskip
      | command hslash ctx hargs' =>
        rw [hbytes] at hskip
        rcases hskip with hnil | hslash'
        · rw [hnil, words_nil, List.map_eq_nil_iff] at hargs'
          exact absurd hargs' ctx.named
        · exact absurd hslash' hslash
    · cases hperforms with
      | nothing hnothing =>
        rcases hnothing with hslash | hwords
        · exact absurd (Or.inr (by rwa [hbytes])) hskip
        · exact .blank _ _ _ hline hskip r hsplits (hzero.2 hwords)
      | command hslash ctx hargs' _ hexecute =>
        have hsame : ctx.argv = r.args :=
          List.map_injective_iff.2 (fun _ _ => CStr.ext) (hargs'.trans hargs.symm)
        have hcount : ctx.argc = r.argc := by
          rw [← Int32.toInt_inj, ← ctx.size, hargc, ← hargs', List.length_map]
        have hnonzero : r.argc ≠ 0 := by
          rw [ne_eq, hzero, ← hargs', List.map_eq_nil_iff]
          exact ctx.named
        exact .command _ _ _ hline hskip r hsplits hnonzero ctx ⟨hargv, hcount, hsame⟩ c' hexecute

/-- **Turns on lines** perform them one after the other. -/
theorem turns_feeds {α : Type} {input : α → List Read} {text : α → List UInt8}
    (hf : ∀ h : History, h.maxLen ≠ 0 → (f h).maxLen ≠ 0) {ts : List Surroundings} {ls : List α}
    (hfeeds : List.Forall₂ (fun t l => Feeds f t (input l) (text l)) ts ls) {h : History} (hmax : h.maxLen ≠ 0)
    (rest : List Read) (c : σ) {y : KxLoop σ} :
    KxTurns execute ts ⟨h, ls.flatMap input ++ rest, c⟩ y ↔
      ∃ c', PerformsAll execute (ls.map text) c c' ∧ y = ⟨f^[ts.length] h, rest, c'⟩ := by
  induction hfeeds generalizing h c with
  | nil =>
    constructor
    · intro hy
      exact ⟨c, rfl, hy⟩
    · rintro ⟨c', hc', rfl⟩
      rw [show c' = c from hc']
      rfl
  | @cons t l ts ls hfirst _ ih =>
    have hrest := fun c => ih (hf h hmax) c
    have hturn := fun o => @Feeds.turn_iff _ execute _ _ _ _ hfirst _ hmax (ls.flatMap input ++ rest) c o
    rw [List.flatMap_cons, List.append_assoc]
    constructor
    · rintro ⟨z, hz, hy⟩
      obtain ⟨d, hd, heq⟩ := (hturn _).1 hz
      cases heq
      obtain ⟨c', hc', rfl⟩ := (hrest d).1 hy
      exact ⟨c', ⟨d, hd, hc'⟩, rfl⟩
    · rintro ⟨c', ⟨d, hd, hc'⟩, rfl⟩
      exact ⟨_, (hturn _).2 ⟨d, hd, rfl⟩, (hrest d).2 ⟨c', hc', rfl⟩⟩

end Lines

section Scripts

variable {σ : Type} {execute : Execute → Context → σ → Option σ} {ts : List Surroundings} {h : History}

/-- **Lines that are typed** at their prompts are performed one after the other, and what is typed ahead of a prompt
    is lost. -/
theorem typed_lines_run {ls : List TypedLine} (hls : List.Forall₂ (fun t l => l.In t) ts ls) (hmax : h.maxLen ≠ 0)
    (rest : List Read) (c : σ) {y : KxLoop σ} :
    KxTurns execute ts ⟨h, ls.flatMap TypedLine.reads ++ rest, c⟩ y ↔
      ∃ c', PerformsAll execute (ls.map fun l => fitting l.line) c c' ∧
        y = ⟨(fun h => h.prompted.pop)^[ts.length] h, rest, c'⟩ := by
  refine turns_feeds ?_ (hls.imp fun t l hl => hl.feeds) hmax rest c
  intro h hmax
  show h.prompted.maxLen ≠ 0
  rwa [History.prompted, maxLen_add]

theorem printable_ls : ∀ b ∈ (CStr.lit "ls").bytes, Printable b := by
  have hbytes : (CStr.lit "ls").bytes = [108, 115] := by decide
  rw [hbytes]
  simp [Printable]

/-- `x` typed ahead of the prompt, and `ls` behind it. -/
def lsTyped : TypedLine := ⟨[.byte 120], (CStr.lit "ls").bytes, []⟩

theorem typed_lines_ls :
    KxTurns (fun _ ctx log => some (log ++ ctx.argv)) [{ terminal with ahead := 1 }]
      ⟨.init, [lsTyped].flatMap TypedLine.reads ++ [.eof 0], []⟩
      ⟨(fun h => h.prompted.pop)^[1] .init, [.eof 0], [.lit "ls"]⟩ := by
  have htyped : lsTyped.In { terminal with ahead := 1 } := ⟨{ terminal_works with }, rfl, rfl, printable_ls⟩
  refine (typed_lines_run (.cons htyped .nil) History.maxLen_init _ _).2 ⟨_, ⟨_, ?_, rfl⟩, rfl⟩
  exact .command (by decide) ⟨1, [.lit "ls"], rfl, List.cons_ne_nil _ _⟩ (by decide) _ rfl

end Scripts

end Rkx
