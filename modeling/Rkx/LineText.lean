import Rkx.LineEdit
import Rkx.Lib.TextCursor

/-!
# The text in the line buffer

The block of the line buffer holds a text with a cursor, and each editing function is an edit of that text.

* `Holds`: the text, a NUL behind it, the cursor and the size of the block;
* `refreshLine_holds`: the row of the terminal shows `window`, a part of the text around the cursor;
* `Edit.apply`, `Edit.writes`, `Edit.ret`: what an edit does to the text, writes and returns;
* `edit_holds`: the functions do that, and no access is outside of the block.
-/

set_option autoImplicit false

namespace Rkx

open Lib.CString Lib.Memory Lib.TextCursor

/-! ## The text in the buffer -/

/-- The block holds the text, a NUL behind it, and the cursor. -/
structure Holds (s : LineSetup) (l : LinenoiseState) (t : Text UInt8) : Prop where
  mem : ∃ rest, l.buf = t.before ++ t.after ++ 0 :: rest
  pos : l.pos = t.before.length
  len : l.len = t.before.length + t.after.length
  size : l.buf.length = s.buflen + 1

/-- The prompt leaves room for the cursor in a row of the terminal. -/
def LineSetup.Fits (s : LineSetup) : Prop := s.plen < s.cols

/-- What the edits do to a text of at most `room` bytes. -/
def Edit.apply (room : Nat) (t : Text UInt8) : Edit → Text UInt8
  | .insert c => if t.toList.length < room then t.insert c else t
  | .backspace => t.backspace
  | .delete => t.delete
  | .swap => t.transpose
  | .moveLeft => t.left
  | .moveRight => t.right
  | .moveHome => t.home
  | .moveEnd => t.atEnd
  | .killLine => .empty
  | .killToEnd => t.deleteToEnd
  | .clearScreen => t
  | .deletePrevWord => t.deleteWord isBlank

/-! ## The line is shown -/

theorem scrollTurns_eq {s : LineSetup} (hs : s.Fits) {len pos : Nat} (off : Nat) (h : pos ≤ len) :
    scrollTurns s off len pos =
      some (off + (s.plen + pos + 1 - s.cols), len - (s.plen + pos + 1 - s.cols), pos - (s.plen + pos + 1 - s.cols)) := by
  unfold LineSetup.Fits at hs
  induction pos generalizing off len with
  | zero =>
    unfold scrollTurns
    rw [if_neg (by omega)]
    simp
    omega
  | succ pos ih =>
    obtain ⟨len, rfl⟩ : ∃ k, len = k + 1 := ⟨len - 1, by omega⟩
    unfold scrollTurns
    split
    · rw [ih (off + 1) (by omega)]
      simp
      omega
    · simp
      omega

theorem clipTurns_eq {s : LineSetup} (hs : s.Fits) (len : Nat) : clipTurns s len = min len (s.cols - s.plen) := by
  unfold LineSetup.Fits at hs
  induction len with
  | zero => simp [clipTurns]
  | succ len ih =>
    unfold clipTurns
    split
    · rw [ih]
      omega
    · omega

/-- How many bytes of the line are scrolled out of the row. -/
def scrolled (s : LineSetup) (t : Text UInt8) : Nat := s.plen + t.before.length + 1 - s.cols

/-- The part of the line that the row shows. -/
def window (s : LineSetup) (t : Text UInt8) : List UInt8 := (t.toList.drop (scrolled s t)).take (s.cols - s.plen)

/-- What shows a line. -/
def shown (s : LineSetup) (t : Text UInt8) : List UInt8 :=
  [13] ++ s.prompt.bytes ++ window s t ++ eraseToRight ++ cursorTo (t.before.length - scrolled s t + s.plen)

variable {s : LineSetup} {l : LinenoiseState} {t : Text UInt8}

/-- **The line is shown** without a read outside of the buffer. -/
theorem refreshSingleLine_holds (hs : s.Fits) (h : Holds s l t) : refreshSingleLine s l = some (shown s t) := by
  obtain ⟨rest, hmem⟩ := h.mem
  have hpos := h.pos
  have hl := h.len
  have hk : scrolled s t ≤ t.before.length := by
    unfold scrolled
    unfold LineSetup.Fits at hs
    omega
  have hlen := congrArg List.length hmem
  simp only [List.length_append, List.length_cons] at hlen
  have hwindow : (l.buf.drop (scrolled s t)).take (min (l.len - scrolled s t) (s.cols - s.plen)) = window s t := by
    have hdrop : l.buf.drop (scrolled s t) = t.toList.drop (scrolled s t) ++ 0 :: rest := by
      rw [hmem, List.drop_append_of_le_length (by simp; omega)]
      rfl
    have hrow : (t.toList.drop (scrolled s t)).length = l.len - scrolled s t := by
      simp [Text.toList, hl]
    rw [hdrop, ← hrow, List.take_append_of_le_length (Nat.min_le_left _ _), Nat.min_comm, ← List.take_take,
      List.take_length, window]
  unfold refreshSingleLine
  rw [scrollTurns_eq hs 0 (by omega), hpos]
  simp only [Option.bind_eq_bind, Option.bind_some, Nat.zero_add, clipTurns_eq hs]
  rw [if_pos (by unfold scrolled at hk; omega)]
  unfold scrolled at hwindow
  unfold shown scrolled
  rw [hwindow]

theorem refreshLine_holds (hs : s.Fits) (h : Holds s l t) :
    refreshLine s l = some { l with out := l.out ++ shown s t } := by
  unfold refreshLine
  rw [refreshSingleLine_holds hs h]
  rfl

/-! ## The edits -/

/-- The function shows the line again, which now holds `t'`. -/
def Redraws (s : LineSetup) (l : LinenoiseState) (t' : Text UInt8) (r : Option LinenoiseState) : Prop :=
  ∃ buf pos len, Holds s { l with buf, pos, len } t' ∧
    r = some { l with buf, pos, len, out := l.out ++ shown s t' }

theorem redraws (hs : s.Fits) {buf : List UInt8} {pos len : Nat} {t' : Text UInt8}
    (h : Holds s { l with buf, pos, len } t') : Redraws s l t' (refreshLine s { l with buf, pos, len }) :=
  ⟨buf, pos, len, h, refreshLine_holds hs h⟩

/-- Only the cursor moves. -/
theorem Holds.move (h : Holds s l t) {t' : Text UInt8} (ht : t'.toList = t.toList) :
    Holds s { l with pos := t'.before.length } t' := by
  have hlen := congrArg List.length ht
  simp only [Text.toList, List.length_append] at hlen
  constructor
  case mem =>
    obtain ⟨rest, hrest⟩ := h.mem
    have happ : t'.before ++ t'.after = t.before ++ t.after := ht
    exact ⟨rest, by rw [happ]; exact hrest⟩
  case pos => rfl
  case len => rw [hlen]; exact h.len
  case size => exact h.size

theorem linenoiseEditMoveLeft_holds (hs : s.Fits) (h : Holds s l t) (ht : t.before ≠ []) :
    Redraws s l t.left (linenoiseEditMoveLeft s l) := by
  have hpos := h.pos
  have hne := List.length_pos_iff.2 ht
  have hleft := h.move (Text.toList_left t)
  unfold linenoiseEditMoveLeft
  rw [if_pos (by omega), hpos]
  simp only [Text.left, List.length_dropLast] at hleft ⊢
  exact redraws hs hleft

theorem linenoiseEditMoveRight_holds (hs : s.Fits) (h : Holds s l t) (ht : t.after ≠ []) :
    Redraws s l t.right (linenoiseEditMoveRight s l) := by
  have hpos := h.pos
  have hlen := h.len
  have hne := List.length_pos_iff.2 ht
  have hright := h.move (Text.toList_right t)
  have hone : (t.after.take 1).length = 1 := by simp; omega
  unfold linenoiseEditMoveRight
  rw [if_pos (by omega), hpos]
  simp only [Text.right, List.length_append, hone] at hright ⊢
  exact redraws hs hright

theorem linenoiseEditMoveHome_holds (hs : s.Fits) (h : Holds s l t) (ht : t.before ≠ []) :
    Redraws s l t.home (linenoiseEditMoveHome s l) := by
  have hpos := h.pos
  have hne := List.length_pos_iff.2 ht
  unfold linenoiseEditMoveHome
  rw [if_pos (by omega)]
  exact redraws hs (h.move (Text.toList_home t))

theorem linenoiseEditMoveEnd_holds (hs : s.Fits) (h : Holds s l t) (ht : t.after ≠ []) :
    Redraws s l t.atEnd (linenoiseEditMoveEnd s l) := by
  have hpos := h.pos
  have hlen := h.len
  have hne := List.length_pos_iff.2 ht
  have hend := h.move (Text.toList_atEnd t)
  have hlast : t.atEnd.before.length = l.len := by simp [Text.atEnd, Text.toList, hlen]
  rw [hlast] at hend
  unfold linenoiseEditMoveEnd
  rw [if_pos (by omega)]
  exact redraws hs hend

/-- The run behind one byte moves over it, and the line ends one byte earlier. -/
theorem exists_cut {m b a r : List UInt8} {x : UInt8} {i j n k : Nat} (hm : m = b ++ x :: a ++ 0 :: r)
    (hj : j = b.length) (hi : i = b.length + 1) (hn : n = a.length) (hk : k = b.length + a.length) :
    ∃ moved stored rest, memmove? m j i n = some moved ∧ store? moved k 0 = some stored ∧
      stored = b ++ a ++ 0 :: rest ∧ stored.length = m.length := by
  have hmove := memmove?_left (p := b) (d := [x]) (w := a) (r := 0 :: r) hi hn hj
  obtain ⟨y, hy⟩ : ∃ y, ([x] ++ a ++ 0 :: r).drop n = y :: 0 :: r := by
    have hlen : n < (x :: a).length := by simp [hn]
    refine ⟨(x :: a)[n], ?_⟩
    rw [List.singleton_append, List.drop_append_of_le_length (Nat.le_of_lt hlen), List.drop_eq_getElem_cons hlen]
    simp [hn]
  have hmem : b ++ [x] ++ a ++ 0 :: r = m := by simp [hm]
  rw [hy, hmem] at hmove
  have hstore := store?_append (i := k) (p := b ++ a) (by simp [hk]) y 0 (0 :: r)
  refine ⟨_, _, 0 :: r, hmove, hstore, rfl, ?_⟩
  rw [length_store? hstore, length_memmove? hmove]

theorem linenoiseEditDelete_holds (hs : s.Fits) (h : Holds s l t) (ht : t.after ≠ []) :
    Redraws s l t.delete (linenoiseEditDelete s l) := by
  obtain ⟨rest, hmem⟩ := h.mem
  obtain ⟨x, after, hafter⟩ := List.exists_cons_of_ne_nil ht
  have hpos := h.pos
  have hlen := h.len
  rw [hafter] at hmem hlen
  rw [List.length_cons] at hlen
  obtain ⟨moved, stored, rest', hmove, hstore, hcut, hsize⟩ := exists_cut (j := l.pos) (i := l.pos + 1)
    (n := l.len - l.pos - 1) (k := l.len - 1) hmem hpos (by omega) (by omega) (by omega)
  unfold linenoiseEditDelete
  rw [if_pos (by omega), hmove]
  simp only [Option.bind_eq_bind, Option.bind_some, hstore]
  refine redraws hs ⟨⟨rest', by simp [Text.delete, hafter, hcut]⟩, hpos, ?_, hsize.trans h.size⟩
  simp [Text.delete, hafter, hlen]

theorem linenoiseEditBackspace_holds (hs : s.Fits) (h : Holds s l t) (ht : t.before ≠ []) :
    Redraws s l t.backspace (linenoiseEditBackspace s l) := by
  obtain ⟨rest, hmem⟩ := h.mem
  obtain ⟨before, x, hbefore⟩ : ∃ b x, t.before = b ++ [x] := ⟨_, _, (List.dropLast_concat_getLast ht).symm⟩
  have hpos := h.pos
  have hlen := h.len
  rw [hbefore] at hmem hpos hlen
  rw [List.length_append, List.length_singleton] at hpos hlen
  obtain ⟨moved, stored, rest', hmove, hstore, hcut, hsize⟩ := exists_cut (m := l.buf) (b := before) (x := x)
    (a := t.after) (r := rest) (j := l.pos - 1) (i := l.pos) (n := l.len - l.pos) (k := l.len - 1) (by simp [hmem])
    (by omega) hpos (by omega) (by omega)
  unfold linenoiseEditBackspace
  rw [if_pos (by omega), hmove]
  simp only [Option.bind_eq_bind, Option.bind_some, hstore]
  refine redraws hs ⟨⟨rest', by simp [Text.backspace, hbefore, hcut]⟩, ?_, ?_, hsize.trans h.size⟩
  · simp [Text.backspace, hbefore, hpos]
  · simp [Text.backspace, hbefore, hlen]

/-! ### Words -/

/-- The loop goes back over the bytes with the predicate. -/
theorem backTurns_eq (p : UInt8 → Bool) (b m : List UInt8) :
    backTurns p (b ++ m) b.length = some (b.rdropWhile p).length := by
  induction b using List.reverseRecOn generalizing m with
  | nil => rfl
  | append_singleton b x ih =>
    rw [List.length_append, List.length_singleton, backTurns, List.rdropWhile_concat]
    have hread : (b ++ [x] ++ m)[b.length]? = some x := by simp
    rw [hread]
    simp only [Option.bind_eq_bind, Option.bind_some]
    split
    · rw [List.append_assoc, ih]
    · simp

theorem linenoiseEditDeletePrevWord_holds (hs : s.Fits) (h : Holds s l t) :
    Redraws s l (t.deleteWord isBlank) (linenoiseEditDeletePrevWord s l) := by
  obtain ⟨rest, hmem⟩ := h.mem
  have hpos := h.pos
  have hlen := h.len
  have hfirst := backTurns_eq isBlank t.before (t.after ++ 0 :: rest)
  obtain ⟨d, hd⟩ := List.rdropWhile_prefix isBlank (l := t.before)
  have hsecond := backTurns_eq (fun b => !isBlank b) (t.before.rdropWhile isBlank) (d ++ (t.after ++ 0 :: rest))
  rw [← List.append_assoc, hd] at hsecond
  obtain ⟨e, he⟩ := List.rdropWhile_prefix (fun b => !isBlank b) (l := t.before.rdropWhile isBlank)
  rw [← List.append_assoc, ← hmem, ← hpos] at hfirst
  rw [← List.append_assoc, ← hmem] at hsecond
  have hbefore : (t.deleteWord isBlank).before ++ (e ++ d) = t.before := by
    rw [← List.append_assoc, Text.deleteWord, he, hd]
  have hcount := congrArg List.length hbefore
  rw [List.length_append] at hcount
  -- the NUL moves with the run behind the cursor
  have hmove := memmove?_left (p := (t.deleteWord isBlank).before) (d := e ++ d) (w := t.after ++ [0]) (r := rest)
    (i := l.pos) (n := l.len - l.pos + 1) (by omega) (by simp; omega) rfl
  have hbuf : (t.deleteWord isBlank).before ++ (e ++ d) ++ (t.after ++ [0]) ++ rest = l.buf := by
    rw [hbefore, hmem]
    simp
  rw [hbuf] at hmove
  have hsize := length_memmove? hmove
  unfold linenoiseEditDeletePrevWord
  simp only [Option.bind_eq_bind, hfirst, Option.bind_some, hsecond]
  change Redraws s l _ ((memmove? l.buf (t.deleteWord isBlank).before.length l.pos _).bind _)
  rw [hmove]
  simp only [Option.bind_some]
  refine redraws hs ⟨⟨_, by simp only [List.append_assoc]; rfl⟩, rfl, ?_, hsize.trans h.size⟩
  simp only [Text.deleteWord] at hcount ⊢
  omega

/-! ### Stores at the cursor -/

theorem editKillLine_holds (hs : s.Fits) (h : Holds s l t) : Redraws s l .empty (editKillLine s l) := by
  have hsize := h.size
  obtain ⟨x, m, hm⟩ := List.exists_cons_of_length_pos (l := l.buf) (by omega)
  have hstore := store?_append (p := []) (i := 0) rfl x 0 m
  rw [List.nil_append, ← hm] at hstore
  unfold editKillLine
  rw [hstore]
  simp only [Option.bind_eq_bind, Option.bind_some]
  exact redraws hs ⟨⟨m, rfl⟩, rfl, rfl, by simpa [hm] using hsize⟩

theorem editKillToEnd_holds (hs : s.Fits) (h : Holds s l t) :
    Redraws s l t.deleteToEnd (editKillToEnd s l) := by
  obtain ⟨rest, hmem⟩ := h.mem
  obtain ⟨x, m, hm⟩ : ∃ x m, t.after ++ 0 :: rest = x :: m := by cases t.after <;> simp
  have hbuf : l.buf = t.before ++ x :: m := by rw [hmem, List.append_assoc, hm]
  have hstore := store?_append h.pos x 0 m
  rw [← hbuf] at hstore
  unfold editKillToEnd
  rw [hstore]
  simp only [Option.bind_eq_bind, Option.bind_some]
  refine redraws hs ⟨⟨m, by simp [Text.deleteToEnd]⟩, h.pos, ?_, (length_store? hstore).trans h.size⟩
  simp [Text.deleteToEnd, h.pos]

theorem editSwap_holds (hs : s.Fits) (h : Holds s l t) (hb : t.before ≠ []) (ha : t.after ≠ []) :
    Redraws s l t.transpose (editSwap s l) := by
  obtain ⟨rest, hmem⟩ := h.mem
  obtain ⟨before, b, hbefore⟩ : ∃ bs b, t.before = bs ++ [b] := ⟨_, _, (List.dropLast_concat_getLast hb).symm⟩
  obtain ⟨a, after, hafter⟩ := List.exists_cons_of_ne_nil ha
  have hpos := h.pos
  have hlen := h.len
  rw [hbefore, hafter] at hmem hlen
  rw [hbefore] at hpos
  simp only [List.length_append, List.length_cons, List.length_nil] at hpos hlen
  have hbuf : l.buf = before ++ b :: (a :: after ++ 0 :: rest) := by simp [hmem]
  have haux : l.buf[l.pos - 1]? = some b := by simp [hbuf, hpos]
  have hc : l.buf[l.pos]? = some a := by simp [hbuf, hpos]
  have hstore := store?_append (i := l.pos - 1) (p := before) (by omega) b a (a :: after ++ 0 :: rest)
  have hstore' := store?_append (i := l.pos) (p := before ++ [a]) (by simpa using hpos) a b (after ++ 0 :: rest)
  rw [← hbuf] at hstore
  have hsame : before ++ a :: (a :: after ++ 0 :: rest) = before ++ [a] ++ a :: (after ++ 0 :: rest) := by simp
  have hsize := (length_store? hstore').trans ((congrArg List.length hsame).symm.trans (length_store? hstore))
  unfold editSwap
  rw [if_pos (by omega), haux, hc]
  simp only [Option.bind_eq_bind, Option.bind_some, hstore, hsame, hstore']
  refine redraws hs ?_
  cases after with
  | nil =>
    have hlast : l.pos = l.len - 1 := by simp at hlen; omega
    refine ⟨⟨rest, by simp [Text.transpose, hbefore, hafter]⟩, ?_, ?_, hsize.trans h.size⟩
    · simp [Text.transpose, hbefore, hafter, ← hlast, hpos]
    · simp [Text.transpose, hbefore, hafter, hlen]
  | cons c after =>
    have hlast : l.pos ≠ l.len - 1 := by simp at hlen; omega
    refine ⟨⟨rest, by simp [Text.transpose, hbefore, hafter]⟩, ?_, ?_, hsize.trans h.size⟩
    · simp only [if_pos hlast]
      simp [Text.transpose, hbefore, hafter, hpos]
    · simp [Text.transpose, hbefore, hafter, hlen]
      omega

/-! ### Insertion -/

/-- What the insertion leaves in memory. -/
theorem Holds.insert (h : Holds s l t) {c : UInt8} {stored r : List UInt8}
    (hstored : stored = t.before ++ [c] ++ t.after ++ 0 :: r) (hsize : stored.length = l.buf.length) :
    Holds s { l with buf := stored, pos := l.pos + 1, len := l.len + 1 } (t.insert c) := by
  refine ⟨⟨r, hstored⟩, ?_, ?_, hsize.trans h.size⟩
  · simp [Text.insert, h.pos]
  · simp [Text.insert, h.len]
    omega

/-- At the end of the line the byte takes the place of the NUL. -/
theorem exists_appended (h : Holds s l t) (hroom : l.len < s.buflen) (hlast : l.len = l.pos) (c : UInt8) :
    ∃ stored stored', store? l.buf l.pos c = some stored ∧ store? stored (l.len + 1) 0 = some stored' ∧
      Holds s { l with buf := stored', pos := l.pos + 1, len := l.len + 1 } (t.insert c) := by
  obtain ⟨rest, hmem⟩ := h.mem
  have hpos := h.pos
  have hlen := h.len
  have hsize := h.size
  have hafter : t.after = [] := List.length_eq_zero_iff.1 (by omega)
  rw [hafter, List.append_nil] at hmem
  rw [hmem] at hsize
  simp only [List.length_append, List.length_cons] at hsize
  obtain ⟨x, rest, rfl⟩ := List.exists_cons_of_length_pos (l := rest) (by omega)
  have hstore := store?_append hpos 0 c (x :: rest)
  rw [← hmem, List.append_cons] at hstore
  have hstore' := store?_append (i := l.len + 1) (p := t.before ++ [c]) (by simp; omega) x 0 rest
  exact ⟨_, _, hstore, hstore', h.insert (r := rest) (by simp [hafter]) ((length_store? hstore').trans (length_store? hstore))⟩

/-- Inside the line the run behind the cursor makes room for the byte. -/
theorem exists_inserted (h : Holds s l t) (hroom : l.len < s.buflen) (c : UInt8) :
    ∃ moved stored stored', memmove? l.buf (l.pos + 1) l.pos (l.len - l.pos) = some moved ∧
      store? moved l.pos c = some stored ∧ store? stored (l.len + 1) 0 = some stored' ∧
      Holds s { l with buf := stored', pos := l.pos + 1, len := l.len + 1 } (t.insert c) := by
  obtain ⟨rest, hmem⟩ := h.mem
  have hpos := h.pos
  have hlen := h.len
  have hsize := h.size
  rw [hmem] at hsize
  simp only [List.length_append, List.length_cons] at hsize
  obtain ⟨x, rest, rfl⟩ := List.exists_cons_of_length_pos (l := rest) (by omega)
  obtain ⟨y, hmove⟩ := memmove?_right (p := t.before) (w := t.after) (x := 0) (r := x :: rest) (i := l.pos)
    (n := l.len - l.pos) hpos (by omega) rfl
  rw [← hmem] at hmove
  have hstore := store?_append hpos y c (t.after ++ x :: rest)
  have hsame : t.before ++ c :: (t.after ++ x :: rest) = t.before ++ [c] ++ t.after ++ x :: rest := by simp
  rw [hsame] at hstore
  have hstore' := store?_append (i := l.len + 1) (p := t.before ++ [c] ++ t.after) (by simp; omega) x 0 rest
  have hlength := (length_store? hstore').trans ((length_store? hstore).trans (length_memmove? hmove))
  exact ⟨_, _, _, hmove, hstore, hstore', h.insert rfl hlength⟩

/-- The byte alone is written: it goes to the end of a line that does not reach the end of the row. -/
def Typed (s : LineSetup) (t : Text UInt8) : Prop := t.after = [] ∧ s.plen + t.before.length + 1 < s.cols

theorem linenoiseEditInsert_typed (h : Holds s l t) (hroom : t.toList.length < s.buflen) (ht : Typed s t)
    (write : Bool) (c : UInt8) :
    ∃ buf pos len, Holds s { l with buf, pos, len } (t.insert c) ∧
      linenoiseEditInsert s write c l =
        some (if write then 0 else -1, { l with buf, pos, len, out := l.out ++ [c] }) := by
  obtain ⟨hafter, hrow⟩ := ht
  have hpos := h.pos
  have hlen := h.len
  rw [hafter, List.length_nil] at hlen
  simp only [Text.toList, hafter, List.append_nil] at hroom
  obtain ⟨stored, stored', hstore, hstore', hholds⟩ := exists_appended h (by omega) (by omega) c
  refine ⟨stored', l.pos + 1, l.len + 1, hholds, ?_⟩
  unfold linenoiseEditInsert
  rw [if_pos (by omega), if_pos (by omega), hstore]
  simp only [Option.bind_eq_bind, Option.bind_some, hstore']
  rw [if_pos (by omega)]
  rfl

theorem linenoiseEditInsert_holds (hs : s.Fits) (h : Holds s l t) (hroom : t.toList.length < s.buflen)
    (ht : ¬ Typed s t) (write : Bool) (c : UInt8) :
    ∃ r, Redraws s l (t.insert c) r ∧ linenoiseEditInsert s write c l = r.map (0, ·) := by
  have hpos := h.pos
  have hlen := h.len
  simp only [Text.toList, List.length_append] at hroom
  unfold linenoiseEditInsert
  rw [if_pos (by omega)]
  by_cases hlast : l.len = l.pos
  · have hafter : t.after = [] := List.length_eq_zero_iff.1 (by omega)
    obtain ⟨stored, stored', hstore, hstore', hholds⟩ := exists_appended h (by omega) hlast c
    refine ⟨_, redraws hs hholds, ?_⟩
    rw [if_pos hlast, hstore]
    simp only [Option.bind_eq_bind, Option.bind_some, hstore']
    rw [if_neg (fun hrow => ht ⟨hafter, by omega⟩), Option.map_eq_bind]
    rfl
  · obtain ⟨moved, stored, stored', hmove, hstore, hstore', hholds⟩ := exists_inserted h (by omega) c
    refine ⟨_, redraws hs hholds, ?_⟩
    rw [if_neg hlast, hmove]
    simp only [Option.bind_eq_bind, Option.bind_some, hstore, hstore', Option.map_eq_bind]
    rfl

/-! ### Every edit -/

/-- The edits that leave the line as it is and show nothing. -/
def Edit.Idle (room : Nat) (t : Text UInt8) : Edit → Prop
  | .insert _ => room ≤ t.toList.length
  | .backspace | .moveLeft | .moveHome => t.before = []
  | .delete | .moveRight | .moveEnd => t.after = []
  | .swap => t.before = [] ∨ t.after = []
  | .killLine | .killToEnd | .clearScreen | .deletePrevWord => False

instance (room : Nat) (t : Text UInt8) (e : Edit) : Decidable (e.Idle room t) := by
  cases e <;> unfold Edit.Idle <;> infer_instance

instance (s : LineSetup) (t : Text UInt8) : Decidable (Typed s t) := by
  unfold Typed
  infer_instance

/-- What an edit writes to the terminal. -/
def Edit.writes (s : LineSetup) (t : Text UInt8) (e : Edit) : List UInt8 :=
  if e.Idle s.buflen t then []
  else
    match e with
    | .insert c => if Typed s t then [c] else shown s (t.insert c)
    | .clearScreen => eraseDisplay ++ shown s t
    | e => shown s (e.apply s.buflen t)

/-- What its function returns. -/
def Edit.ret (s : LineSetup) (write : Bool) (t : Text UInt8) : Edit → Int
  | .insert _ => if t.toList.length < s.buflen ∧ Typed s t ∧ ¬ write then -1 else 0
  | _ => 0

theorem Edit.Idle.apply_eq {room : Nat} {e : Edit} (h : e.Idle room t) : e.apply room t = t := by
  cases e with
  | insert c => exact if_neg (Nat.not_lt.2 h)
  | swap =>
    rcases h with h | h
    · simp [Edit.apply, Text.transpose, h]
    · simp [Edit.apply, Text.transpose, h]
  | backspace | moveLeft | moveHome =>
    have hbefore : t.before = [] := h
    ext1 <;> simp [Edit.apply, Text.backspace, Text.left, Text.home, Text.toList, hbefore]
  | delete | moveRight | moveEnd =>
    have hafter : t.after = [] := h
    ext1 <;> simp [Edit.apply, Text.delete, Text.right, Text.atEnd, Text.toList, hafter]
  | killLine | killToEnd | clearScreen | deletePrevWord => cases h

/-- What an edit does with the line in the buffer. -/
structure Edits (s : LineSetup) (write : Bool) (l : LinenoiseState) (t : Text UInt8) (e : Edit)
    (r : Int × LinenoiseState) : Prop where
  ret : r.1 = e.ret s write t
  holds : Holds s r.2 (e.apply s.buflen t)
  index : r.2.historyIndex = l.historyIndex
  out : r.2.out = l.out ++ e.writes s t

theorem edits_idle {write : Bool} {e : Edit} (h : Holds s l t) (he : e.Idle s.buflen t) : Edits s write l t e (0, l) where
  ret := by
    cases e with
    | insert c => exact (if_neg fun hroom => absurd hroom.1 (Nat.not_lt.2 he)).symm
    | _ => rfl
  holds := by rwa [he.apply_eq]
  index := rfl
  out := by
    unfold Edit.writes
    rw [if_pos he, List.append_nil]

theorem Redraws.edits {write : Bool} {e : Edit} {r : Option LinenoiseState}
    (h : Redraws s l (e.apply s.buflen t) r) (hret : e.ret s write t = 0)
    (hout : e.writes s t = shown s (e.apply s.buflen t)) : ∃ x, r.map (0, ·) = some x ∧ Edits s write l t e x := by
  obtain ⟨buf, pos, len, hholds, hr⟩ := h
  refine ⟨_, congrArg (Option.map (0, ·)) hr, ?_⟩
  constructor
  case ret => exact hret.symm
  case holds => exact ⟨hholds.mem, hholds.pos, hholds.len, hholds.size⟩
  case index => rfl
  case out => rw [hout]

/-- **Each function edits the text**: it stays inside the buffer, leaves the edited text and shows it. -/
theorem edit_holds (hs : s.Fits) (h : Holds s l t) (write : Bool) (e : Edit) :
    ∃ r, edit s write l e = some r ∧ Edits s write l t e r := by
  by_cases he : e.Idle s.buflen t
  · refine ⟨(0, l), ?_, edits_idle h he⟩
    have hpos := h.pos
    have hlen := h.len
    cases e with
    | insert c =>
      have hfull : ¬ l.len < s.buflen := by
        simp only [Edit.Idle, Text.toList, List.length_append] at he
        omega
      exact if_neg hfull
    | backspace | moveLeft | moveHome =>
      have hzero : l.pos = 0 := by simpa [Edit.Idle, h.pos] using he
      simp [edit, linenoiseEditBackspace, linenoiseEditMoveLeft, linenoiseEditMoveHome, hzero]
    | delete | moveRight | moveEnd =>
      have hzero : t.after.length = 0 := by simpa [Edit.Idle] using he
      have hlast : l.pos = l.len := by omega
      simp [edit, linenoiseEditDelete, linenoiseEditMoveRight, linenoiseEditMoveEnd, hlast]
    | swap =>
      have hnot : ¬ (l.pos > 0 ∧ l.pos < l.len) := by
        rcases he with he | he
        · have hzero : t.before.length = 0 := by rw [he]; rfl
          omega
        · have hzero : t.after.length = 0 := by rw [he]; rfl
          omega
      simp [edit, editSwap, hnot]
    | killLine | killToEnd | clearScreen | deletePrevWord => cases he
  · have hout : ∀ e' : Edit, e' = e → (∀ c, e' ≠ .insert c) → e' ≠ .clearScreen →
        e'.writes s t = shown s (e'.apply s.buflen t) := by
      rintro e' rfl hi hc
      unfold Edit.writes
      rw [if_neg he]
      cases e' <;> first | rfl | exact absurd rfl (hi _) | exact absurd rfl hc
    cases e with
    | insert c =>
      have hroom : t.toList.length < s.buflen := Nat.lt_of_not_le he
      have happly : Edit.apply s.buflen t (.insert c) = t.insert c := if_pos hroom
      by_cases ht : Typed s t
      · obtain ⟨buf, pos, len, hholds, hr⟩ := linenoiseEditInsert_typed h hroom ht write c
        have hwrites : Edit.writes s t (.insert c) = [c] := (if_neg he).trans (if_pos ht)
        refine ⟨_, hr, ?_⟩
        constructor
        case ret => cases write <;> simp [Edit.ret, hroom, ht]
        case holds =>
          rw [happly]
          exact ⟨hholds.mem, hholds.pos, hholds.len, hholds.size⟩
        case index => rfl
        case out => rw [hwrites]
      · obtain ⟨r, hredraws, hr⟩ := linenoiseEditInsert_holds hs h hroom ht write c
        rw [← happly] at hredraws
        have hret : Edit.ret s write t (.insert c) = 0 := if_neg fun hc => ht hc.2.1
        have hwrites : Edit.writes s t (.insert c) = shown s (t.insert c) := (if_neg he).trans (if_neg ht)
        obtain ⟨x, hx, hedits⟩ := hredraws.edits (e := .insert c) hret (by rw [hwrites, happly])
        exact ⟨x, hr.trans hx, hedits⟩
    | backspace => exact (linenoiseEditBackspace_holds hs h he).edits rfl (hout _ rfl (by simp) (by simp))
    | delete => exact (linenoiseEditDelete_holds hs h he).edits rfl (hout _ rfl (by simp) (by simp))
    | swap =>
      obtain ⟨hb, ha⟩ := not_or.1 he
      exact (editSwap_holds hs h hb ha).edits rfl (hout _ rfl (by simp) (by simp))
    | moveLeft => exact (linenoiseEditMoveLeft_holds hs h he).edits rfl (hout _ rfl (by simp) (by simp))
    | moveRight => exact (linenoiseEditMoveRight_holds hs h he).edits rfl (hout _ rfl (by simp) (by simp))
    | moveHome => exact (linenoiseEditMoveHome_holds hs h he).edits rfl (hout _ rfl (by simp) (by simp))
    | moveEnd => exact (linenoiseEditMoveEnd_holds hs h he).edits rfl (hout _ rfl (by simp) (by simp))
    | killLine => exact (editKillLine_holds hs h).edits rfl (hout _ rfl (by simp) (by simp))
    | killToEnd => exact (editKillToEnd_holds hs h).edits rfl (hout _ rfl (by simp) (by simp))
    | deletePrevWord =>
      exact (linenoiseEditDeletePrevWord_holds hs h).edits rfl (hout _ rfl (by simp) (by simp))
    | clearScreen =>
      have hagain : Holds s { l with out := l.out ++ eraseDisplay } t := ⟨h.mem, h.pos, h.len, h.size⟩
      have hr := refreshLine_holds hs hagain
      have hwrites : Edit.writes s t .clearScreen = eraseDisplay ++ shown s t := if_neg he
      refine ⟨_, congrArg (Option.map (0, ·)) hr, ?_⟩
      constructor
      case ret => rfl
      case holds => exact ⟨h.mem, h.pos, h.len, h.size⟩
      case index => rfl
      case out => rw [hwrites, List.append_assoc]

end Rkx
