import Rkx.LineSession
import Rkx.Lib.Terminal

/-!
# What the terminal shows (`linenoise.c`)

The bytes that `linenoiseEdit` writes, as the row of a terminal takes them.

* `display`: the prompt, the part of the line around the cursor, and the cursor;
* `feedAll_writes`: an edit makes the row of the text the row of the edited text;
* `screen_shows`: at every turn of the loop the row is that of the text in the buffer.
-/

set_option autoImplicit false

namespace Rkx

open Lib.CString Lib.Memory Lib.OptionLoop Lib.Terminal Lib.TextCursor Lib.While

/-- The prompt and the part of the line that is shown. -/
def rowText (s : LineSetup) (t : Text UInt8) : List UInt8 := s.prompt.bytes ++ window s t

/-- The column of the cursor. -/
def column (s : LineSetup) (t : Text UInt8) : Nat := s.plen + t.before.length - scrolled s t

/-- The text that stays when what is behind it is erased: a terminal that takes the cursor to be on the last cell once that
    is written erases it. -/
def kept (on : Bool) (s : LineSetup) (t : Text UInt8) : List UInt8 :=
  if on then (rowText s t).take (s.cols - 1) else rowText s t

/-- The row that shows a text. -/
def display (on : Bool) (s : LineSetup) (t : Text UInt8) : Row where
  cells := kept on s t ++ List.replicate (s.cols - (kept on s t).length) blank
  cursor := column s t
  mode := .ground

variable {on : Bool} {s : LineSetup} {t : Text UInt8}

theorem length_window_le (hs : s.Fits) : s.plen + (window s t).length ≤ s.cols := by
  unfold LineSetup.Fits at hs
  unfold window
  rw [List.length_take]
  omega

/-- A prompt that is shown. -/
structure LineSetup.Shows (s : LineSetup) : Prop where
  fits : s.Fits
  nonempty : 0 < s.plen
  printable : ∀ b ∈ s.prompt.bytes, isPrintable b = true

theorem length_rowText_le (hs : s.Fits) : (rowText s t).length ≤ s.cols := by
  have h := length_window_le (t := t) hs
  unfold rowText
  rw [List.length_append]
  exact h

/-- What the erasing leaves of a row. -/
theorem erased_eq (hs : s.Fits) {rest : List UInt8} (hrest : (rowText s t ++ rest).length = s.cols) :
    (rowText s t ++ rest).take (eraseFrom on (rowText s t ++ rest) (rowText s t).length) ++
        List.replicate ((rowText s t ++ rest).length - eraseFrom on (rowText s t ++ rest) (rowText s t).length) blank =
      (display on s t).cells := by
  have hpos : 0 < s.cols := Nat.zero_lt_of_lt hs
  rw [List.length_append] at hrest
  unfold display kept eraseFrom
  rw [List.length_append, hrest]
  cases on with
  | false => simp
  | true =>
    by_cases hfull : (rowText s t).length = s.cols
    · rw [hfull]
      simp only [Bool.true_and, beq_self_eq_true, if_true]
      rw [List.take_append_of_le_length (by omega), List.length_take, Nat.min_eq_left (by omega)]
    · have hne : ((rowText s t).length == s.cols) = false := beq_eq_false_iff_ne.2 hfull
      simp only [Bool.true_and, hne, if_true]
      rw [List.take_of_length_le (show (rowText s t).length ≤ s.cols - 1 by omega)]
      simp

theorem length_display (hs : s.Fits) : (display on s t).cells.length = s.cols := by
  have hle := length_rowText_le (t := t) hs
  have hkept : (kept on s t).length ≤ s.cols := by
    unfold kept
    split
    · rw [List.length_take]
      omega
    · exact hle
  unfold display
  rw [List.length_append, List.length_replicate]
  omega

theorem column_eq (hs : s.Fits) : t.before.length - scrolled s t + s.plen = column s t ∧ column s t < s.cols ∧
    s.plen ≤ column s t := by
  unfold LineSetup.Fits at hs
  unfold column scrolled
  omega

/-- **A line that is shown again**, whatever the row has been. -/
theorem feedAll_shown (hs : s.Shows) (ht : ∀ b ∈ t.toList, isPrintable b = true) {r : Row}
    (hcells : r.cells.length = s.cols) (hmode : r.mode = .ground) : feedAll on r (shown s t) = some (display on s t) := by
  obtain ⟨cells, cursor, mode⟩ := r
  simp only at hmode hcells
  subst hmode
  obtain ⟨hfits, hprompt, hprintable⟩ := hs
  have hrow : ∀ b ∈ rowText s t, isPrintable b = true := by
    intro b hb
    obtain hb | hb := List.mem_append.1 hb
    · exact hprintable b hb
    · exact ht b (List.mem_of_mem_drop (List.mem_of_mem_take hb))
  have hle := length_rowText_le (t := t) hfits
  obtain ⟨hcolumn, hlast, hfirst⟩ := column_eq (t := t) hfits
  have hreturn : ∀ (cells : List UInt8) cursor, feedAll on ⟨cells, cursor, .ground⟩ [13] = some ⟨cells, 0, .ground⟩ :=
    fun _ _ => rfl
  have hprint : feedAll on ⟨cells, 0, .ground⟩ (rowText s t) =
      some ⟨rowText s t ++ cells.drop (rowText s t).length, (rowText s t).length, .ground⟩ := by
    have h := @feedAll_printable on [] (cells.take (rowText s t).length) (cells.drop (rowText s t).length) _ hrow
      (by rw [List.length_take]; omega)
    simpa using h
  have hrest : (rowText s t ++ cells.drop (rowText s t).length).length = s.cols := by
    rw [List.length_append, List.length_drop]
    omega
  have herase : feedAll on ⟨rowText s t ++ cells.drop (rowText s t).length, (rowText s t).length, .ground⟩ eraseToRight =
      some ⟨(display on s t).cells, (rowText s t).length, .ground⟩ := by
    rw [← erased_eq hfits hrest]
    exact @feedAll_escape on _ _ [48] _ _ (List.forall_mem_singleton.2 (by decide)) (by decide) rfl
  have hmove : feedAll on ⟨(display on s t).cells, (rowText s t).length, .ground⟩ (cursorTo (column s t)) =
      some (display on s t) := by
    have hcols : (display on s t).cells.length = s.cols := length_display hfits
    have hesc : feedAll on ⟨(display on s t).cells, 0, .ground⟩ (27 :: 91 :: ((decimal (column s t)).bytes ++ [67])) =
        some (display on s t) := by
      refine feedAll_escape (digits_decimal _) (by decide) ?_
      rw [number_decimal]
      show some (⟨_, min (0 + max (column s t) 1) ((display on s t).cells.length - 1), .ground⟩ : Row) = _
      rw [hcols, show min (0 + max (column s t) 1) (s.cols - 1) = column s t by omega]
      rfl
    exact (feedAll_append (hreturn _ _)).trans hesc
  unfold shown
  rw [hcolumn, List.append_assoc, List.append_assoc, List.append_assoc, feedAll_append (hreturn _ _),
    ← List.append_assoc]
  exact (feedAll_append hprint).trans ((feedAll_append herase).trans hmove)

/-- A text that is shown whole, with the cursor behind it. -/
theorem display_atEnd (hafter : t.after = []) (hroom : s.plen + t.before.length < s.cols) :
    display on s t = ⟨(s.prompt.bytes ++ t.before) ++ List.replicate (s.cols - (s.prompt.bytes ++ t.before).length) blank,
      (s.prompt.bytes ++ t.before).length, .ground⟩ := by
  have hlen : (s.prompt.bytes ++ t.before).length = s.plen + t.before.length := List.length_append
  have hscrolled : scrolled s t = 0 := by
    unfold scrolled
    omega
  have hrow : rowText s t = s.prompt.bytes ++ t.before := by
    unfold rowText window Text.toList
    rw [hscrolled, hafter, List.append_nil, List.drop_zero, List.take_of_length_le (by omega)]
  have hkept : kept on s t = s.prompt.bytes ++ t.before := by
    unfold kept
    rw [hrow]
    split
    · rw [List.take_of_length_le (by omega)]
    · rfl
  unfold display column
  rw [hkept, hscrolled, hlen]
  rfl

/-- **A character that is typed at the end** is shown by itself. -/
theorem feedAll_typed (ht : Typed s t) {c : UInt8} (hc : isPrintable c = true) :
    feedAll on (display on s t) [c] = some (display on s (t.insert c)) := by
  obtain ⟨hafter, hroom⟩ := ht
  have hlen : (s.prompt.bytes ++ t.before).length = s.plen + t.before.length := List.length_append
  have hlen' : (s.prompt.bytes ++ (t.before ++ [c])).length = (s.prompt.bytes ++ t.before).length + 1 := by
    simp [Nat.add_assoc]
  obtain ⟨k, hk⟩ : ∃ k, s.cols - (s.prompt.bytes ++ t.before).length = k + 1 :=
    ⟨s.cols - (s.prompt.bytes ++ t.before).length - 1, by omega⟩
  have hfeed := @feedAll_printable on (s.prompt.bytes ++ t.before) [blank] (List.replicate k blank) [c]
    (List.forall_mem_singleton.2 hc) rfl
  have hnext := @display_atEnd on s (t.insert c) hafter (by simp only [Text.insert, List.length_append]; exact hroom)
  simp only [Text.insert] at hnext
  rw [hlen', show s.cols - ((s.prompt.bytes ++ t.before).length + 1) = k by omega] at hnext
  rw [display_atEnd hafter (by omega), hk, List.replicate_succ]
  refine hfeed.trans (Eq.trans ?_ (congrArg some hnext.symm))
  rw [← List.append_assoc, ← List.append_assoc, List.length_singleton]

/-- The letters of an edited text are those of the text, and the one that is inserted. -/
theorem mem_apply {room : Nat} {e : Edit} {b : UInt8} (hb : b ∈ (e.apply room t).toList) :
    b ∈ t.toList ∨ e = .insert b := by
  cases e with
  | insert c =>
    simp only [Edit.apply] at hb
    split at hb
    · simp [Text.insert, Text.toList] at hb ⊢
      tauto
    · exact Or.inl hb
  | backspace =>
    left
    simp only [Edit.apply, Text.backspace, Text.toList, List.mem_append] at hb ⊢
    exact hb.imp_left fun h => List.dropLast_subset _ h
  | delete =>
    left
    simp only [Edit.apply, Text.delete, Text.toList, List.mem_append] at hb ⊢
    exact hb.imp_right List.mem_of_mem_tail
  | swap =>
    left
    simp only [Edit.apply, Text.transpose] at hb
    split at hb
    · rename_i c a hlast hafter
      obtain ⟨before, hbefore⟩ := List.getLast?_eq_some_iff.1 hlast
      simp [Text.toList, hbefore, hafter] at hb ⊢
      tauto
    · rename_i c a after _ hlast hafter
      obtain ⟨before, hbefore⟩ := List.getLast?_eq_some_iff.1 hlast
      simp [Text.toList, hbefore, hafter] at hb ⊢
      tauto
    · exact hb
  | moveLeft | moveRight | moveHome | moveEnd => exact Or.inl (by simpa [Edit.apply] using hb)
  | killLine => cases hb
  | killToEnd =>
    left
    simp only [Edit.apply, Text.deleteToEnd, Text.toList, List.append_nil] at hb
    exact List.mem_append_left _ hb
  | clearScreen => exact Or.inl hb
  | deletePrevWord =>
    left
    simp only [Edit.apply, Text.deleteWord, Text.toList, List.mem_append] at hb ⊢
    exact hb.imp_left fun h => (List.rdropWhile_prefix _ _).subset ((List.rdropWhile_prefix _ _).subset h)

/-- **An edit** makes the row that of the edited text. -/
theorem feedAll_writes (hs : s.Shows) (ht : ∀ b ∈ t.toList, isPrintable b = true) {e : Edit}
    (he : ∀ c, e = .insert c → isPrintable c = true) :
    feedAll on (display on s t) (e.writes s t) = some (display on s (e.apply s.buflen t)) := by
  have happly : ∀ b ∈ (e.apply s.buflen t).toList, isPrintable b = true := by
    intro b hb
    obtain hb | rfl := mem_apply hb
    · exact ht b hb
    · exact he b rfl
  have hshown : feedAll on (display on s t) (shown s (e.apply s.buflen t)) = some (display on s (e.apply s.buflen t)) :=
    feedAll_shown hs happly (length_display hs.fits) rfl
  unfold Edit.writes
  by_cases hidle : e.Idle s.buflen t
  · rw [if_pos hidle, hidle.apply_eq]
    rfl
  · rw [if_neg hidle]
    cases e with
    | insert c =>
      have hroom : t.toList.length < s.buflen := Nat.not_le.1 hidle
      simp only [Edit.apply, if_pos hroom] at hshown ⊢
      split
      · exact feedAll_typed ‹_› (he c rfl)
      · exact hshown
    | clearScreen =>
      have hclear : feedAll on (display on s t) eraseDisplay =
          some ⟨List.replicate (display on s t).cells.length blank, 0, .ground⟩ := rfl
      refine (feedAll_append hclear).trans (feedAll_shown hs ht ?_ rfl)
      rw [List.length_replicate, length_display hs.fits]
    | _ => exact hshown

/-! ## The loop -/

/-- The keys that `linenoiseEdit` knows. -/
def boundKeys : List UInt8 := [1, 2, 3, 4, 5, 6, 8, 9, 11, 12, 13, 14, 16, 20, 21, 23, 27, 127]

/-- Nothing else is typed but printable characters. -/
def Typeable (reads : List Read) : Prop := ∀ c, .byte c ∈ reads → isPrintable c = true ∨ c ∈ boundKeys

theorem escapeKey_ne_insert (reads : List Read) (d : UInt8) : (escapeKey reads).1 ≠ .edit (.insert d) := by
  unfold escapeKey bracketKey
  repeat' split
  all_goals simp

theorem isPrintable_of_keyOf {c d : UInt8} {reads : List Read} (hc : isPrintable c = true ∨ c ∈ boundKeys) (htab : c ≠ 9)
    (h : (keyOf c reads).1 = .edit (.insert d)) : isPrintable d = true := by
  unfold keyOf at h
  split at h <;> try cases h
  · exact absurd h (escapeKey_ne_insert reads d)
  · obtain hc | hc := hc
    · exact hc
    · simp only [boundKeys, List.mem_cons, List.not_mem_nil, or_false] at hc
      obtain rfl | rfl | rfl | rfl | rfl | rfl | rfl | rfl | rfl | rfl | rfl | rfl | rfl | rfl | rfl | rfl | rfl | rfl :=
        hc <;> simp_all

theorem mem_ofMem {m : List UInt8} {b : UInt8} (h : b ∈ (CStr.ofMem m).bytes) : b ∈ m :=
  (List.takeWhile_prefix _).subset h

/-- The row shows the line, and so it will be with whatever else may be shown. -/
structure OnScreen (on : Bool) (s : LineSetup) (y : LineSession) : Prop where
  row : feedAll on ⟨List.replicate s.cols blank, 0, .ground⟩ y.out = some (display on s y.text)
  text : ∀ b ∈ y.text.toList, isPrintable b = true
  entries : ∀ entry ∈ y.history.entries, ∀ b ∈ entry.bytes, isPrintable b = true
  keys : Typeable y.reads

theorem OnScreen.apply {y y' : LineSession} (hs : s.Shows) (h : OnScreen on s y) {write : Bool} {e : Edit}
    (he : ∀ c, e = .insert c → isPrintable c = true) (hnext : y.apply s write e = .next y') : OnScreen on s y' := by
  unfold LineSession.apply at hnext
  simp only at hnext
  split at hnext
  · cases hnext
    constructor
    · exact (feedAll_append h.row).trans (feedAll_writes hs h.text he)
    · intro b hb
      obtain hb | rfl := mem_apply hb
      · exact h.text b hb
      · exact he b rfl
    · exact h.entries
    · exact h.keys
  · cases hnext

/-- An entry of the history takes the place of the line. -/
theorem OnScreen.toEntry {y : LineSession} (hs : s.Shows) (h : OnScreen on s y) (dir : Dir) :
    OnScreen on s (y.toEntry s dir) := by
  unfold LineSession.toEntry
  split
  · have hentries : ∀ entry ∈ (y.history.set (y.history.entries.length - 1 - y.index) (.ofMem y.text.toList)).entries,
        ∀ b ∈ entry.bytes, isPrintable b = true := by
      intro entry hentry
      obtain hentry | rfl := List.mem_or_eq_of_mem_set hentry
      · exact h.entries entry hentry
      · exact fun b hb => h.text b (mem_ofMem hb)
    simp only
    split
    · exact ⟨h.row, h.text, hentries, h.keys⟩
    · rename_i index _
      have htext : ∀ b ∈ (LineSession.recalled s ((y.history.set (y.history.entries.length - 1 - y.index)
          (.ofMem y.text.toList)).entries.getD ((y.history.set (y.history.entries.length - 1 - y.index)
          (.ofMem y.text.toList)).entries.length - 1 - index) (.lit ""))).toList, isPrintable b = true := by
        intro b hb
        rw [LineSession.recalled, Text.toList, List.append_nil] at hb
        have hb := List.mem_of_mem_take hb
        rw [List.getD_eq_getElem?_getD] at hb
        cases hget : (y.history.set (y.history.entries.length - 1 - y.index) (.ofMem y.text.toList)).entries[
            (y.history.set (y.history.entries.length - 1 - y.index) (.ofMem y.text.toList)).entries.length - 1 - index]? with
        | none =>
          rw [hget] at hb
          cases hb
        | some entry =>
          rw [hget] at hb
          exact hentries entry (List.mem_of_getElem? hget) b hb
      exact ⟨(feedAll_append h.row).trans (feedAll_shown hs htext (length_display hs.fits) rfl), htext, hentries, h.keys⟩
  · exact h

/-- **A key.** -/
theorem OnScreen.turn {y y' : LineSession} (hs : s.Shows) (h : OnScreen on s y) {write : Nat → Bool}
    (hnext : y.turn s write = .next y') : OnScreen on s y' := by
  have hreads : ∀ reads, reads <:+ y.reads → OnScreen on s { y with reads } :=
    fun reads hsuffix => ⟨h.row, h.text, h.entries, fun c hc => h.keys c (hsuffix.subset hc)⟩
  have hrest := nextRead_suffix y.reads
  have hhead : ∀ c, (nextRead y.reads).1 = .byte c → .byte c ∈ y.reads := by
    intro c hc
    cases hy : y.reads with
    | nil =>
      rw [hy] at hc
      cases hc
    | cons r reads =>
      rw [hy] at hc
      exact hc ▸ List.mem_cons_self
  unfold LineSession.turn at hnext
  generalize nextRead y.reads = next at hnext hrest hhead
  obtain ⟨r, reads⟩ := next
  simp only at hnext hrest hhead
  cases r with
  | eof stale => cases hnext
  | error => cases hnext
  | byte c =>
    simp only at hnext
    split at hnext
    · cases hnext
      exact hreads _ hrest
    · rename_i htab
      have hkey : ∀ d, (keyOf c reads).1 = .edit (.insert d) → isPrintable d = true :=
        fun d => isPrintable_of_keyOf (h.keys c (hhead c rfl)) htab
      have hbehind := (keyOf_suffix c reads).trans hrest
      generalize keyOf c reads = k at hnext hkey hbehind
      obtain ⟨key, reads'⟩ := k
      simp only at hnext hkey hbehind
      cases key with
      | enter => cases hnext
      | interrupt => cases hnext
      | deleteOrEnd =>
        simp only at hnext
        split at hnext
        · exact (hreads _ hbehind).apply hs (fun _ h => by cases h) hnext
        · cases hnext
      | history dir =>
        cases hnext
        exact (hreads _ hbehind).toEntry hs dir
      | edit e => exact (hreads _ hbehind).apply hs (fun d hd => hkey d (congrArg _ hd)) hnext
      | nothing =>
        cases hnext
        exact hreads _ hbehind

end Rkx
