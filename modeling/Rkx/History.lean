import Rkx.Lib.CString
import Rkx.Lib.Latest
import Rkx.Lib.Lines

/-!
# The history of lines (`linenoise.c`)

The history is an array of at most `history_max_len` strings, the latest one last.  It is read from a file when
the shell starts and written back when it ends.

* `linenoiseHistoryAdd`, `linenoiseHistorySetMaxLen`: `history_keeps_latest` says what any calls of them leave;
* `linenoiseHistorySave`, `linenoiseHistoryLoad`: `reload_eq_iff` says which histories survive the file.
-/

set_option autoImplicit false

namespace Rkx

open Lib.CString Lib.Latest Lib.Lines

def LINENOISE_MAX_LINE : Nat := 4096

def LINENOISE_DEFAULT_HISTORY_MAX_LEN : Nat := 100

/-- `history_max_len`, and the first `history_len` elements of `history`. -/
structure History where
  maxLen : Nat
  entries : List CStr
  len_le : entries.length ≤ maxLen
  deriving DecidableEq

namespace History

/-- The history of a program that has just started. -/
def init : History := ⟨LINENOISE_DEFAULT_HISTORY_MAX_LEN, [], Nat.zero_le _⟩

theorem maxLen_init : init.maxLen ≠ 0 := Nat.succ_ne_zero 99

/-- The array with `line` behind the entries, the oldest of which goes when it is full. -/
def added (h : History) (line : CStr) (hmax : h.maxLen ≠ 0) : History where
  maxLen := h.maxLen
  entries := (if h.entries.length = h.maxLen then h.entries.tail else h.entries) ++ [line]
  len_le := by
    have hle := h.len_le
    rw [List.length_append, List.length_singleton]
    split
    · rw [List.length_tail]
      omega
    · omega

/-- The last `len` elements in an array for `len`. -/
def limited (h : History) (len : Nat) : History where
  maxLen := len
  entries := h.entries.drop (h.entries.length - min len h.entries.length)
  len_le := by
    rw [List.length_drop]
    omega

end History

/-- `linenoiseHistoryAdd`, `alloc` telling whether `malloc` and `strdup` find the memory. -/
def linenoiseHistoryAdd (alloc : Bool) (line : CStr) (h : History) : Int × History :=
  if hmax : h.maxLen = 0 then (0, h)
  else if h.entries.getLast? = some line then (0, h)
  else if alloc then (1, h.added line hmax)
  else (0, h)

/-- `linenoiseHistorySetMaxLen`, `alloc` telling whether `malloc` finds the memory if it is called. -/
def linenoiseHistorySetMaxLen (alloc : Bool) (len : Int) (h : History) : Int × History :=
  if len < 1 then (0, h)
  else if alloc then (1, h.limited len.toNat)
  else (0, h)

@[simp] theorem maxLen_add (alloc : Bool) (line : CStr) (h : History) :
    (linenoiseHistoryAdd alloc line h).2.maxLen = h.maxLen := by
  unfold linenoiseHistoryAdd
  split
  · rfl
  · split
    · rfl
    · split <;> rfl

/-! ## Any calls -/

inductive HistoryCall where
  | add (alloc : Bool) (line : CStr)
  | setMaxLen (alloc : Bool) (len : Int)

def HistoryCall.run (h : History) : HistoryCall → History
  | .add alloc line => (linenoiseHistoryAdd alloc line h).2
  | .setMaxLen alloc len => (linenoiseHistorySetMaxLen alloc len h).2

/-- The log of the lines that calls hand over, behind `log`. -/
def HistoryCall.log (log : List CStr) : HistoryCall → List CStr
  | .add true line => push log line
  | _ => log

/-- The smallest limit so far. -/
def HistoryCall.limit (m : Nat) : HistoryCall → Nat
  | .setMaxLen true len => if len < 1 then m else min m len.toNat
  | _ => m

theorem limited_entries (h : History) (len : Nat) : (h.limited len).entries = h.entries.rtake len := by
  simp only [History.limited, List.rtake]
  congr 1
  omega

/-- Below the limit the line is pushed, and the limit does the rest. -/
theorem added_entries (h : History) {line : CStr} (hmax : h.maxLen ≠ 0) (hlast : h.entries.getLast? ≠ some line) :
    (h.added line hmax).entries = (push h.entries line).rtake h.maxLen := by
  have hle := h.len_le
  rw [push_of_ne hlast]
  obtain ⟨n, hn⟩ : ∃ n, h.maxLen = n + 1 := ⟨h.maxLen - 1, by omega⟩
  rw [hn, List.rtake_concat_succ]
  simp only [History.added, List.rtake]
  split
  · rw [show h.entries.length - n = 1 by omega, List.drop_one]
  · rw [show h.entries.length - n = 0 by omega, List.drop_zero]

/-- One call, when no limit so far was below `m`. -/
theorem HistoryCall.recent {m : Nat} {lines : List CStr} {h : History} (hm : m ≤ h.maxLen)
    (hr : Recent m lines h.entries) (c : HistoryCall) :
    c.limit m ≤ (c.run h).maxLen ∧ Recent (c.limit m) (c.log lines) (c.run h).entries := by
  cases c with
  | add alloc line =>
    cases alloc with
    | false =>
      simp only [run, linenoiseHistoryAdd, limit, HistoryCall.log]
      split
      · exact ⟨hm, hr⟩
      · split <;> exact ⟨hm, hr⟩
    | true =>
      have hpush := hr.push line
      simp only [run, linenoiseHistoryAdd, limit, HistoryCall.log]
      split
      · rename_i hmax
        have hempty : h.entries = [] := List.length_eq_zero_iff.1 (by have := h.len_le; omega)
        refine ⟨hm, recent_iff.2 ?_⟩
        rw [hempty, List.length_nil]
        exact ⟨List.nil_suffix, by omega⟩
      · rename_i hmax
        split
        · rename_i hlast
          rw [push_of_eq hlast] at hpush
          exact ⟨hm, hpush⟩
        · rename_i hlast
          simp only [if_true]
          refine ⟨hm, ?_⟩
          rw [added_entries h hmax hlast]
          exact hpush.rtake hm
  | setMaxLen alloc len =>
    simp only [run, linenoiseHistorySetMaxLen]
    by_cases hlen : len < 1
    · rw [if_pos hlen]
      cases alloc with
      | false => exact ⟨hm, hr⟩
      | true =>
        rw [limit, if_pos hlen]
        exact ⟨hm, hr⟩
    · rw [if_neg hlen]
      cases alloc with
      | false => exact ⟨hm, hr⟩
      | true =>
        rw [if_pos rfl, limit, if_neg hlen, limited_entries]
        have hle := Nat.min_le_right m len.toNat
        exact ⟨hle, (hr.mono (Nat.min_le_left _ _)).rtake hle⟩

theorem HistoryCall.recent_run {m : Nat} {lines : List CStr} {h : History} (hm : m ≤ h.maxLen)
    (hr : Recent m lines h.entries) (calls : List HistoryCall) :
    Recent (calls.foldl HistoryCall.limit m) (calls.foldl HistoryCall.log lines)
      (calls.foldl HistoryCall.run h).entries := by
  induction calls generalizing m lines h with
  | nil => exact hr
  | cons c calls ih =>
    obtain ⟨hm', hr'⟩ := c.recent hm hr
    exact ih hm' hr'

/-- **The history is the end of what was added**, repetitions in a row left out: at least as many lines of
    it as the smallest limit allows. -/
theorem history_keeps_latest (h : History) (calls : List HistoryCall) :
    Recent (calls.foldl HistoryCall.limit h.maxLen) (calls.foldl HistoryCall.log h.entries)
      (calls.foldl HistoryCall.run h).entries :=
  HistoryCall.recent_run (Nat.le_refl _) (Recent.refl _ _) calls

/-! ## The file -/

/-- What `linenoiseHistorySave` writes. -/
def History.file (h : History) : List UInt8 := h.entries.flatMap fun e => e.bytes ++ [LF]

/-- `linenoiseHistorySave`: its result, and the file that it writes. -/
def linenoiseHistorySave (fopen : Bool) (h : History) : Int × Option (List UInt8) :=
  if fopen then (0, some h.file) else (-1, none)

/-- `'\r'` -/
def CR : UInt8 := 13

/-- `if (!(p = strchr(buf,'\r'))) p = strchr(buf,'\n'); if (p) *p = '\0';` -/
def lineText (buf : List UInt8) : CStr :=
  let s := CStr.ofMem buf
  if CR ∈ s.bytes then CStr.ofMem (s.bytes.takeWhile (· ≠ CR)) else CStr.ofMem (s.bytes.takeWhile (· ≠ LF))

/-- The lines that the loop of `linenoiseHistoryLoad` adds, one for each call of `fgets`. -/
def fileLines (fp : List UInt8) : List CStr := (pieces (LINENOISE_MAX_LINE - 2) fp).map lineText

/-- `linenoiseHistoryLoad`, with the content of the file if it can be opened; `alloc` tells how each call of
    `linenoiseHistoryAdd` fares. -/
def linenoiseHistoryLoad (alloc : Nat → Bool) (file : Option (List UInt8)) (h : History) : Int × History :=
  match file with
  | none => (-1, h)
  | some fp => (0, (fileLines fp).zipIdx.foldl (fun h line => (linenoiseHistoryAdd (alloc line.2) line.1 h).2) h)

/-- The history that is saved, and read back by a program that has just started. -/
def History.reload (h : History) : History :=
  (linenoiseHistoryLoad (fun _ => true) (linenoiseHistorySave true h).2 ⟨h.maxLen, [], Nat.zero_le _⟩).2

theorem reload_entries (h : History) :
    h.reload.entries = ((fileLines h.file).foldl push []).rtake h.maxLen := by
  have hcalls := HistoryCall.recent_run (h := ⟨h.maxLen, [], Nat.zero_le _⟩) (Nat.le_refl h.maxLen)
    (Recent.refl h.maxLen []) ((fileLines h.file).map (.add true))
  have hlimit : ((fileLines h.file).map (HistoryCall.add true)).foldl HistoryCall.limit h.maxLen = h.maxLen := by
    rw [List.foldl_map]
    exact List.foldl_fixed _
  rw [hlimit, List.foldl_map, List.foldl_map] at hcalls
  have hload : h.reload = (fileLines h.file).foldl (fun h line => (linenoiseHistoryAdd true line h).2)
      ⟨h.maxLen, [], Nat.zero_le _⟩ := by
    unfold History.reload linenoiseHistorySave linenoiseHistoryLoad
    simp only [if_true]
    conv => rhs; rw [← List.zipIdx_map_fst 0 (fileLines h.file), List.foldl_map]
  have hmax : h.reload.maxLen = h.maxLen := by
    rw [hload]
    generalize fileLines h.file = lines
    induction lines using List.reverseRecOn with
    | nil => rfl
    | append_singleton lines line ih => rw [List.foldl_append, List.foldl_cons, List.foldl_nil, maxLen_add, ih]
  have hle := h.reload.len_le
  rw [hmax, hload] at hle
  rw [hload]
  exact hcalls.eq_rtake hle

/-! ## Which histories survive -/

/-- The bytes that `fgets` can take in one call. -/
def LINE_BYTES : Nat := LINENOISE_MAX_LINE - 1

/-- What may follow an entry: another one, and the empty one if the entry fills the buffer. -/
def Follows (a b : CStr) : Prop := a ≠ b ∧ (a.strlen = LINE_BYTES → b.bytes = [])

/-- The entries are lines of their own in the file. -/
structure Storable (entries : List CStr) : Prop where
  oneLine : ∀ e ∈ entries, LF ∉ e.bytes ∧ CR ∉ e.bytes ∧ e.strlen ≤ LINE_BYTES
  follows : entries.IsChain Follows
  last : ∀ e ∈ entries.getLast?, e.strlen ≠ LINE_BYTES

theorem lineText_line {w : CStr} (hlf : LF ∉ w.bytes) (hcr : CR ∉ w.bytes) : lineText (w.bytes ++ [LF]) = w := by
  have hread : (CStr.ofMem (w.bytes ++ [LF])).bytes = w.bytes ++ [LF] := by
    rw [CStr.ofMem_append_bytes]
    rfl
  unfold lineText
  simp only [hread]
  have hnocr : CR ∉ w.bytes ++ [LF] := by
    rw [List.mem_append, List.mem_singleton, not_or]
    exact ⟨hcr, by decide⟩
  rw [if_neg hnocr, List.takeWhile_append_of_pos (fun b hb => by simpa using ne_of_mem_of_not_mem hb hlf)]
  exact CStr.ext (by simp [CStr.ofMem_bytes_of_noNul w.noNul])

theorem lineText_full {w : CStr} (hlf : LF ∉ w.bytes) (hcr : CR ∉ w.bytes) : lineText w.bytes = w := by
  have hread : (CStr.ofMem w.bytes).bytes = w.bytes := CStr.ofMem_bytes_of_noNul w.noNul
  have htake : w.bytes.takeWhile (· ≠ LF) = w.bytes := by
    rw [List.takeWhile_eq_self_iff]
    intro b hb
    simpa using ne_of_mem_of_not_mem hb hlf
  unfold lineText
  simp only [hread]
  rw [if_neg hcr, htake]
  exact CStr.ext hread

theorem lineText_bytes (buf : List UInt8) :
    (lineText buf).bytes =
      if CR ∈ (CStr.ofMem buf).bytes then (CStr.ofMem buf).bytes.takeWhile (· ≠ CR)
      else (CStr.ofMem buf).bytes.takeWhile (· ≠ LF) := by
  have hnul : ∀ p : UInt8 → Bool, (0 : UInt8) ∉ (CStr.ofMem buf).bytes.takeWhile p :=
    fun p h => (CStr.ofMem buf).noNul ((List.takeWhile_prefix p).subset h)
  unfold lineText
  simp only
  split <;> exact CStr.ofMem_bytes_of_noNul (hnul _)

/-- No line read from a file has a newline, a carriage return or more bytes than the buffer holds. -/
theorem of_mem_fileLines {fp : List UInt8} {e : CStr} (h : e ∈ fileLines fp) :
    LF ∉ e.bytes ∧ CR ∉ e.bytes ∧ e.strlen ≤ LINE_BYTES := by
  obtain ⟨p, hp, rfl⟩ := List.mem_map.1 h
  obtain ⟨hlen, hlf⟩ := of_mem_pieces hp
  have hread : (CStr.ofMem p).bytes <+: p := List.takeWhile_prefix _
  have hstart : (lineText p).bytes <+: (CStr.ofMem p).bytes := by
    rw [lineText_bytes]
    split <;> exact List.takeWhile_prefix _
  refine ⟨?_, ?_, (hstart.trans hread).length_le.trans hlen⟩
  · rw [lineText_bytes]
    split
    · -- what stands in front of a carriage return is not the end of the piece
      rename_i hcr
      obtain ⟨rest, hrest⟩ := hread
      have hcut := List.takeWhile_append_dropWhile (p := (· ≠ CR)) (l := (CStr.ofMem p).bytes)
      have hne : (CStr.ofMem p).bytes.dropWhile (· ≠ CR) ≠ [] := by
        rw [Ne, List.dropWhile_eq_nil_iff]
        intro hall
        simpa using hall CR hcr
      rw [← hrest, ← hcut, List.append_assoc,
        List.dropLast_append_of_ne_nil (List.append_ne_nil_of_left_ne_nil hne _)] at hlf
      exact fun hmem => hlf (List.mem_append_left _ hmem)
    · intro hmem
      simpa using List.mem_takeWhile_imp hmem
  · rw [lineText_bytes]
    split
    · intro hmem
      simpa using List.mem_takeWhile_imp hmem
    · rename_i hcr
      exact fun hmem => hcr ((List.takeWhile_prefix _).subset hmem)

/-- What the file of an entry is read as. -/
def expand (e : CStr) : List CStr := if e.strlen = LINE_BYTES then [e, .lit ""] else [e]

theorem fileLines_entry {e : CStr} (hlf : LF ∉ e.bytes) (hcr : CR ∉ e.bytes) (hlen : e.strlen ≤ LINE_BYTES)
    (rest : List UInt8) : fileLines (e.bytes ++ [LF] ++ rest) = expand e ++ fileLines rest := by
  unfold fileLines expand
  rw [List.append_assoc, List.singleton_append]
  split
  · rename_i hfull
    have hempty := pieces_line (n := LINENOISE_MAX_LINE - 2) (w := []) (by simp) (Nat.zero_le _) rest
    rw [List.nil_append] at hempty
    rw [pieces_full (n := LINENOISE_MAX_LINE - 2) hlf hfull, hempty, List.map_cons, List.map_cons, lineText_full hlf hcr]
    rfl
  · rename_i hshort
    have hle : e.bytes.length ≤ LINENOISE_MAX_LINE - 2 := by
      unfold CStr.strlen LINE_BYTES at *
      omega
    rw [pieces_line hlf hle, List.map_cons, lineText_line hlf hcr]
    rfl

theorem fileLines_file {h : History}
    (he : ∀ e ∈ h.entries, LF ∉ e.bytes ∧ CR ∉ e.bytes ∧ e.strlen ≤ LINE_BYTES) :
    fileLines h.file = h.entries.flatMap expand := by
  unfold History.file
  generalize h.entries = entries at he
  induction entries with
  | nil => simp [fileLines, pieces]
  | cons e entries ih =>
    obtain ⟨hlf, hcr, hlen⟩ := he e List.mem_cons_self
    rw [List.flatMap_cons, List.flatMap_cons, fileLines_entry hlf hcr hlen,
      ih fun x hx => he x (List.mem_cons_of_mem _ hx)]

/-- Entries that can be stored are pushed as they are. -/
theorem foldl_push_expand {entries acc : List CStr} (h : (acc.getLast?.toList ++ entries).IsChain Follows)
    (hlast : ∀ e ∈ entries.getLast?, e.strlen ≠ LINE_BYTES) :
    (entries.flatMap expand).foldl push acc = acc ++ entries := by
  induction entries generalizing acc with
  | nil => simp
  | cons e entries ih =>
    have hne : acc.getLast? ≠ some e := by
      intro he
      rw [he] at h
      exact (List.isChain_cons_cons.1 h).1.1 rfl
    have hrest : ((acc ++ [e]).getLast?.toList ++ entries).IsChain Follows := by
      simpa using h.right_of_append
    have hlast' : ∀ b ∈ entries.getLast?, b.strlen ≠ LINE_BYTES := by
      intro b hb
      apply hlast b
      rw [List.getLast?_cons, Option.mem_def.1 hb]
      rfl
    have hrun := ih hrest hlast'
    rw [List.flatMap_cons, List.foldl_append]
    by_cases hfull : e.strlen = LINE_BYTES
    · -- the empty line that the file shows behind `e` is the entry that follows it
      obtain ⟨b, entries, rfl⟩ : ∃ b l, entries = b :: l := by
        cases entries with
        | nil => exact absurd hfull (hlast e rfl)
        | cons b l => exact ⟨b, l, rfl⟩
      rw [List.getLast?_concat, Option.toList_some, List.singleton_append] at hrest
      have hb : b = .lit "" := CStr.ext ((List.isChain_cons_cons.1 hrest).1.2 hfull)
      have hshort : expand b = [b] := by rw [hb]; rfl
      rw [List.flatMap_cons, hshort, List.singleton_append] at hrun ⊢
      rw [expand, if_pos hfull, ← hb]
      simp only [List.foldl_cons, List.foldl_nil, push_of_ne hne, push_push] at hrun ⊢
      rw [hrun, List.append_assoc, List.singleton_append]
    · rw [expand, if_neg hfull, List.foldl_cons, List.foldl_nil, push_of_ne hne, hrun, List.append_assoc,
        List.singleton_append]

/-- An entry that fills the buffer leaves an empty entry behind it. -/
theorem foldl_push_full (pre : List CStr) {post : List CStr} {e : CStr} (he : e.strlen = LINE_BYTES)
    (hpost : post.IsChain Follows) (hempty : post.head? ≠ some (.lit ""))
    (hlast : ∀ b ∈ post.getLast?, b.strlen ≠ LINE_BYTES) :
    ∃ l, ((pre ++ e :: post).flatMap expand).foldl push [] = l ++ .lit "" :: post := by
  have hne : e ≠ .lit "" := by
    rintro rfl
    cases he
  have hchain : ((.lit "" : CStr) :: post).IsChain Follows := by
    cases post with
    | nil => exact List.isChain_singleton _
    | cons b post =>
      refine List.isChain_cons_cons.2 ⟨⟨?_, fun h => by cases h⟩, hpost⟩
      rintro rfl
      exact hempty rfl
  generalize hacc : (pre.flatMap expand).foldl push [] = acc
  refine ⟨push acc e, ?_⟩
  rw [List.flatMap_append, List.flatMap_cons, expand, if_pos he, List.foldl_append, hacc, List.foldl_append,
    List.foldl_cons, List.foldl_cons, List.foldl_nil,
    push_of_ne (l := push acc e) (by rw [getLast?_push]; simpa using hne),
    foldl_push_expand (by simpa using hchain) hlast, List.append_assoc, List.singleton_append]

/-- Entries that come back are lines of their own. -/
theorem storable_of_reload {h : History} (hreload : h.reload.entries = h.entries) : Storable h.entries := by
  rw [reload_entries] at hreload
  have honly : h.entries <:+ (fileLines h.file).foldl push [] := hreload ▸ rtake_suffix _ _
  have hlines : ∀ e ∈ h.entries, LF ∉ e.bytes ∧ CR ∉ e.bytes ∧ e.strlen ≤ LINE_BYTES :=
    fun e he => of_mem_fileLines (mem_of_mem_foldl_push (honly.subset he))
  have hne : h.entries.IsChain (· ≠ ·) := by
    rw [foldl_push] at honly
    exact (List.isChain_destutter _ _).suffix honly
  rw [fileLines_file hlines] at honly
  -- from the last entry to the first
  have hsuffix : ∀ post pre, h.entries = pre ++ post →
      post.IsChain Follows ∧ ∀ e ∈ post.getLast?, e.strlen ≠ LINE_BYTES := by
    intro post
    induction post with
    | nil => exact fun pre _ => ⟨List.isChain_nil, by simp⟩
    | cons e post ih =>
      intro pre hpre
      obtain ⟨hchain, hlast⟩ := ih (pre ++ [e]) (by simpa using hpre)
      have hempty : e.strlen = LINE_BYTES → post.head? = some (.lit "") := by
        intro he
        by_contra hempty
        obtain ⟨l, hl⟩ := foldl_push_full pre he hchain hempty hlast
        rw [hpre, hl] at honly
        have hentry : e :: post <:+ l ++ .lit "" :: post := (List.suffix_append _ _).trans honly
        have hsame := List.suffix_of_suffix_length_le hentry (List.suffix_append l _) (by simp)
        have heq := List.head_eq_of_cons_eq (hsame.eq_of_length (by simp))
        rw [heq] at he
        cases he
      refine ⟨?_, ?_⟩
      · cases post with
        | nil => exact List.isChain_singleton _
        | cons b post =>
          rw [hpre] at hne
          refine List.isChain_cons_cons.2 ⟨⟨(List.isChain_cons_cons.1 hne.right_of_append).1, ?_⟩, hchain⟩
          intro he
          have hb : b = .lit "" := by simpa using hempty he
          rw [hb]
          rfl
      · cases post with
        | nil =>
          intro b hb he
          rw [List.getLast?_singleton, Option.mem_some_iff] at hb
          rw [← hb] at he
          exact absurd (hempty he) (by simp)
        | cons b post => simpa using hlast
  obtain ⟨hfollows, hlast⟩ := hsuffix h.entries [] rfl
  exact ⟨hlines, hfollows, hlast⟩

/-- **Which histories survive the file**: exactly those whose entries are lines of their own. -/
theorem reload_eq_iff (h : History) : h.reload.entries = h.entries ↔ Storable h.entries := by
  constructor
  · exact storable_of_reload
  · rintro ⟨hlines, hfollows, hlast⟩
    rw [reload_entries, fileLines_file hlines, foldl_push_expand (by simpa using hfollows) hlast, List.nil_append,
      rtake_of_length_le h.len_le]

end Rkx
