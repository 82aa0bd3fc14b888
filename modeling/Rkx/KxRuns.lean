import Rkx.KxLoop

/-!
# Runs of `kx_loop` (`rkx.c`)

Any turns, whatever is typed.

* `LineSession.Kept.turn`: what a key keeps of the history and of the input, `KxTurn.leaves`: what a turn does;
* `kx_loop_ends`: what ends the loop, on a terminal and without one;
* `nothing_recorded`: no line comes into the history.
-/

set_option autoImplicit false

namespace Rkx

open Lib.CString Lib.OptionLoop Lib.Runs Lib.TextCursor Lib.While

/-! ## What a key can do -/

/-- `CTRL_C` and `CTRL_D` -/
def isEndKey (b : UInt8) : Bool := b = 3 || b = 4

/-- No byte of the input has the property. -/
def Without (p : UInt8 → Bool) (reads : List Read) : Prop := ∀ b, .byte b ∈ reads → p b = false

theorem Without.suffix {p : UInt8 → Bool} {reads reads' : List Read} (h : Without p reads) (hsuf : reads' <:+ reads) :
    Without p reads' := fun b hb => h b (hsuf.mem hb)

/-- No key asks for an entry of the history. -/
def NoHistoryKey (reads : List Read) : Prop :=
  ∀ c rest dir, .byte c :: rest <:+ reads → (keyOf c rest).1 ≠ .history dir

theorem NoHistoryKey.suffix {reads reads' : List Read} (h : NoHistoryKey reads) (hsuf : reads' <:+ reads) :
    NoHistoryKey reads' := fun c rest dir hbyte => h c rest dir (hbyte.trans hsuf)

/-- What is left of a session `y` that started with `h` and `reads`. -/
structure LineSession.Kept (h : History) (reads : List Read) (y : LineSession) : Prop where
  left : y.reads <:+ reads
  maxLen : y.history.maxLen = h.maxLen
  history : NoHistoryKey reads → y.history = h

/-- What a result says about a session that started with `h` and `reads`. -/
structure EditResult.Kept (h : History) (reads : List Read) (e : EditResult) : Prop where
  left : e.reads <:+ reads
  maxLen : e.history.maxLen = h.maxLen
  history : NoHistoryKey reads → e.history = h ∨ e.history = h.pop
  count : Without isEndKey reads → e.count.isSome

theorem escapeKey_ne_end (reads : List Read) :
    (escapeKey reads).1 ≠ .interrupt ∧ (escapeKey reads).1 ≠ .deleteOrEnd := by
  unfold escapeKey bracketKey
  repeat' split
  all_goals simp

theorem isEndKey_of_keyOf (c : UInt8) (reads : List Read)
    (h : (keyOf c reads).1 = .interrupt ∨ (keyOf c reads).1 = .deleteOrEnd) : isEndKey c = true := by
  have hescape := escapeKey_ne_end reads
  unfold keyOf at h
  split at h
  all_goals simp_all [isEndKey, ← UInt8.toNat_inj]

namespace LineSession.Kept

variable {s : LineSetup} {write : Nat → Bool} {h : History} {reads : List Read} {y : LineSession}

theorem result (hy : y.Kept h reads) {count : Option Nat} (hcount : Without isEndKey reads → count.isSome) :
    (y.result count).Kept h reads where
  left := hy.left
  maxLen := hy.maxLen
  history hkeys := Or.inl (hy.history hkeys)
  count := hcount

theorem popped (hy : y.Kept h reads) {count : Option Nat} (hcount : Without isEndKey reads → count.isSome) :
    (y.popped count).Kept h reads where
  left := hy.left
  maxLen := hy.maxLen
  history hkeys := Or.inr (congrArg History.pop (hy.history hkeys))
  count := hcount

theorem apply (hy : y.Kept h reads) (e : Edit) :
    Outcome (LineSession.Kept h reads) (EditResult.Kept h reads) (y.apply s true e) := by
  unfold LineSession.apply
  simp only
  rw [if_pos (ret_eq_zero e y.text)]
  exact ⟨hy.left, hy.maxLen, hy.history⟩

theorem toEntry (hy : y.Kept h reads) (hkeys : ¬ NoHistoryKey reads) (dir : Dir) :
    (y.toEntry s dir).Kept h reads := by
  unfold LineSession.toEntry
  split
  · simp only
    split <;> exact ⟨hy.left, hy.maxLen, fun hnone => absurd hnone hkeys⟩
  · exact hy

/-- **A key** keeps what there is of the session. -/
theorem turn (hwrite : ∀ n, write n = true) (hy : y.Kept h reads) :
    Outcome (LineSession.Kept h reads) (EditResult.Kept h reads) (y.turn s write) := by
  have hread : ∀ {left}, left <:+ y.reads → LineSession.Kept h reads { y with reads := left } :=
    fun hleft => ⟨hleft.trans hy.left, hy.maxLen, hy.history⟩
  have hnext := nextRead_suffix y.reads
  have hbyte : ∀ {c left}, nextRead y.reads = (.byte c, left) → .byte c :: left <:+ reads := by
    intro c left hc
    refine List.IsSuffix.trans ?_ hy.left
    cases hreads : y.reads with
    | nil => rw [hreads] at hc; cases hc
    | cons r rest => rw [hreads] at hc; cases hc; exact List.suffix_rfl
  unfold LineSession.turn
  rcases hr : nextRead y.reads with ⟨r, left⟩
  rw [hr] at hnext
  cases r with
  | eof stale => exact (hread hnext).result fun _ => rfl
  | error => exact (hread hnext).result fun _ => rfl
  | byte c =>
    simp only [hwrite]
    split
    · exact hread hnext
    · have hkey := (keyOf_suffix c left).trans hnext
      have hend := isEndKey_of_keyOf c left
      have hhistory := fun hnone : NoHistoryKey reads => hnone c left
      rcases hkeyOf : keyOf c left with ⟨key, left⟩
      rw [hkeyOf] at hkey hend hhistory
      have hy' := hread hkey
      have hstop : key = .interrupt ∨ key = .deleteOrEnd → ¬ Without isEndKey reads := by
        intro hk hnone
        rw [hnone c ((hbyte hr).mem List.mem_cons_self)] at hend
        cases hend hk
      cases key with
      | enter => exact hy'.popped fun _ => rfl
      | interrupt => exact hy'.result fun hnone => absurd hnone (hstop (Or.inl rfl))
      | deleteOrEnd =>
        simp only
        split
        · exact hy'.apply .delete
        · exact hy'.popped fun hnone => absurd hnone (hstop (Or.inr rfl))
      | history dir =>
        refine hy'.toEntry ?_ dir
        intro hnone
        exact hhistory hnone dir (hbyte hr) rfl
      | edit e => exact hy'.apply e
      | nothing => exact hy'

end LineSession.Kept

/-- **What a session leaves** of the history and of the input. -/
theorem Surroundings.Works.kept {t : Surroundings} (ht : t.Works) {h : History} {reads : List Read} {e : EditResult}
    (he : t.Returns h reads e) : e.Kept h.prompted (reads.drop t.ahead) :=
  ends_rule (I := LineSession.Kept h.prompted (reads.drop t.ahead)) (fun _ hy => hy.turn ht.write)
    ⟨List.suffix_rfl, rfl, fun _ => rfl⟩ he

/-! ## Any turns -/

section Turns

variable {σ : Type} {execute : Execute → Context → σ → Option σ} {t : Surroundings} {x : KxLoop σ}

/-- The history behind a turn on `x`, unless an entry was asked for. -/
def Unrecorded (x : KxLoop σ) (h : History) : Prop :=
  h.maxLen = x.history.maxLen ∧
    (NoHistoryKey x.reads → h = x.history ∨ h = x.history.prompted ∨ h = x.history.prompted.pop)

/-- What a call of `linenoise` leaves of the input and of the history. -/
structure Leaves (x : KxLoop σ) (h : History) (reads : List Read) : Prop where
  left : reads <:+ x.reads
  recorded : Unrecorded x h

theorem Surroundings.Works.leaves (ht : t.Works) (hmax : x.history.maxLen ≠ 0) {line : Option CStr} {h : History}
    {reads : List Read} (hline : Linenoise t.toStdin KX_PROMPT x.history x.reads (some ⟨line, h, reads⟩)) :
    Leaves x h reads ∧ (line = none → ¬ Without isEndKey x.reads) := by
  obtain ⟨e, he, hr⟩ := (ht.linenoise_iff hmax).1 hline
  have hkept := ht.kept he
  have hdrop := List.drop_suffix t.ahead x.reads
  cases hr
  refine ⟨⟨(List.drop_suffix _ _).trans (hkept.left.trans hdrop), hkept.maxLen.trans (maxLen_add _ _ _), ?_⟩, ?_⟩
  · intro hkeys
    exact Or.inr (hkept.history (hkeys.suffix hdrop))
  · intro hnone hwithout
    rw [if_pos ⟨hkept.count (hwithout.suffix hdrop), rfl⟩] at hnone
    cases hnone

theorem Surroundings.Piped.leaves (ht : t.Piped) {line : Option CStr} {h : History} {reads : List Read}
    (hline : Linenoise t.toStdin KX_PROMPT x.history x.reads (some ⟨line, h, reads⟩)) :
    Leaves x h reads ∧ h = x.history ∧ (line = none ↔ ¬ Readable x.reads) := by
  obtain ⟨⟨l, left⟩, hread, heq⟩ := Option.map_eq_some_iff.1 (ht.linenoise_iff.1 hline).symm
  cases heq
  exact ⟨⟨noTTYTurns_suffix hread, rfl, fun _ => Or.inl rfl⟩, rfl, linenoiseNoTTY_end ht.realloc hread⟩

/-- A terminal or a pipe, and nothing fails. -/
abbrev Surroundings.Fair (t : Surroundings) : Prop := t.Works ∨ t.Piped

/-- **What a turn leaves** of the input and of the history. -/
theorem KxTurn.leaves (ht : t.Fair) (hmax : x.history.maxLen ≠ 0) {o : Turn (KxLoop σ) History}
    (h : KxTurn execute t x o) : Outcome (fun y => Leaves x y.history y.reads) (Unrecorded x) o := by
  have hread : ∀ {line h' reads}, Linenoise t.toStdin KX_PROMPT x.history x.reads (some ⟨line, h', reads⟩) →
      Leaves x h' reads := by
    intro line h' reads hline
    obtain ht | ht := ht
    · exact (ht.leaves hmax hline).1
    · exact (ht.leaves hline).1
  cases h with
  | stop h' reads hline => exact (hread hline).recorded
  | skip line h' reads hline => exact hread hline
  | blank line h' reads hline => exact hread hline
  | command line h' reads hline => exact hread hline

/-- What turns keep of a loop that starts from `x`. -/
def Behind (x y : KxLoop σ) : Prop := y.reads <:+ x.reads ∧ y.history.maxLen = x.history.maxLen

theorem KxTurns.behind {ts : List Surroundings} (ht : ∀ t ∈ ts, t.Fair) (hmax : x.history.maxLen ≠ 0)
    {y : KxLoop σ} (h : KxTurns execute ts x y) : Behind x y := by
  refine Steps.invariant (I := Behind x) ?_ ht ⟨List.suffix_rfl, rfl⟩ h
  intro t y z ht hy hz
  have hleaves := hz.leaves ht (by rwa [hy.2])
  exact ⟨hleaves.left.trans hy.1, hleaves.recorded.1.trans hy.2⟩

/-- The end of the input is the end of a line. -/
theorem turn_hung_up (ht : t.Works) (hmax : x.history.maxLen ≠ 0) (hreads : x.reads = []) :
    KxTurn execute t x (.next { x with history := x.history.prompted }) := by
  have hcolumns : t.columns [] = ⟨t.width, [], []⟩ := by rw [Surroundings.columns, List.drop_nil]
  have hturn : (LineSession.start KX_PROMPT x.history (t.columns [])).turn
      ((t.columns []).setup LINENOISE_MAX_LINE KX_PROMPT) t.write =
        .leave ((LineSession.start KX_PROMPT x.history (t.columns [])).result (some 0)) := by
    rw [hcolumns]
    rfl
  have hline := (ht.linenoise_iff hmax).2 ⟨_, ends_leave hturn, rfl⟩
  rw [← hreads] at hline
  obtain ⟨h, reads, c⟩ := x
  cases hreads
  have hleft : (LineSession.result (LineSession.start KX_PROMPT h (t.columns [])) (some 0)).reads.drop t.behind = [] := by
    show ((t.columns []).reads).drop t.behind = []
    rw [hcolumns, List.drop_nil]
  unfold EditResult.lineRead at hline
  rw [hleft] at hline
  exact KxTurn.skip _ _ _ hline (Or.inl rfl)

/-- **What ends the loop**: on a terminal nothing but Ctrl-C and Ctrl-D, and without a terminal, as when it has hung up,
    the end of the input and nothing else; the history is then as it was. -/
theorem kx_loop_ends {ts : List Surroundings} (hts : ∀ t ∈ ts, t.Fair) (hmax : x.history.maxLen ≠ 0)
    (hkeys : Without isEndKey x.reads) {y : KxLoop σ} (h : KxTurns execute ts x y) (t : Surroundings) (h' : History) :
    (t.Works → ¬ KxTurn execute t y (.leave h')) ∧
      (t.Piped → (KxTurn execute t y (.leave h') ↔ ¬ Readable y.reads ∧ h' = y.history)) := by
  have hbehind := h.behind hts hmax
  have hmax' : y.history.maxLen ≠ 0 := by rwa [hbehind.2]
  constructor
  · intro ht hleave
    cases hleave with
    | stop h' reads hline => exact (ht.leaves hmax' hline).2 rfl (hkeys.suffix hbehind.1)
  · intro ht
    constructor
    · intro hleave
      cases hleave with
      | stop h' reads hline =>
        obtain ⟨-, rfl, hend⟩ := ht.leaves hline
        exact ⟨hend.1 rfl, rfl⟩
    · rintro ⟨hend, rfl⟩
      obtain ⟨⟨line, left⟩, hread⟩ := Option.isSome_iff_exists.1 (linenoiseNoTTY_isSome t.realloc y.reads)
      have hnone : line = none := (linenoiseNoTTY_end ht.realloc hread).2 hend
      refine .stop y.history left (ht.linenoise_iff.2 ?_)
      rw [hread, hnone]
      rfl

/-- The loop at the end of the input. -/
def hungUp (h : History) : KxLoop Nat := ⟨h, [], 0⟩

theorem kx_loop_ends_hung_up :
    ¬ KxTurn (fun _ _ n => some (n + 1)) terminal (hungUp History.init.prompted) (.leave History.init.prompted) ∧
      KxTurn (fun _ _ n => some (n + 1)) pipe (hungUp History.init.prompted) (.leave History.init.prompted) := by
  have hrun : KxTurns (fun _ _ n => some (n + 1)) [terminal] (hungUp .init) (hungUp History.init.prompted) :=
    ⟨_, turn_hung_up terminal_works History.maxLen_init rfl, rfl⟩
  have hends := kx_loop_ends (List.forall_mem_singleton.2 (Or.inl terminal_works)) History.maxLen_init
    (fun _ hb => absurd hb List.not_mem_nil) hrun
  have hend : ¬ Readable (hungUp History.init.prompted).reads := by
    rintro ⟨c, hc⟩
    cases hc
  exact ⟨(hends terminal _).1 terminal_works, ((hends pipe _).2 pipe_piped).2 ⟨hend, rfl⟩⟩

/-! ## The history -/

/-- The entries are entries of `h` in their order, and an empty line at most. -/
def Inherited (h h' : History) : Prop :=
  ∃ l, l <:+: h.entries ∧ (h'.entries = l ∨ h'.entries = l ++ [.lit ""])

theorem Inherited.prompted {h h' : History} (hh : Inherited h h') (hmax : h'.maxLen ≠ 0) :
    ∃ l, l <:+: h.entries ∧ h'.prompted.entries = l ++ [.lit ""] := by
  obtain ⟨l, hl, hentries⟩ := hh
  unfold History.prompted linenoiseHistoryAdd
  rw [dif_neg hmax]
  by_cases hlast : h'.entries.getLast? = some (.lit "")
  · rw [if_pos hlast]
    rcases hentries with hentries | hentries
    · rw [hentries] at hlast
      refine ⟨l.dropLast, (List.dropLast_prefix l).isInfix.trans hl, ?_⟩
      rw [hentries]
      exact (List.dropLast_append_getLast? _ hlast).symm
    · exact ⟨l, hl, hentries⟩
  · have hl' : h'.entries = l := by
      rcases hentries with hentries | hentries
      · exact hentries
      · rw [hentries, List.getLast?_concat] at hlast
        exact absurd rfl hlast
    rw [if_neg hlast, if_pos rfl]
    show ∃ l, l <:+: h.entries ∧
      (if h'.entries.length = h'.maxLen then h'.entries.tail else h'.entries) ++ [.lit ""] = l ++ [.lit ""]
    rw [hl']
    split
    · exact ⟨l.tail, (List.tail_suffix l).isInfix.trans hl, rfl⟩
    · exact ⟨l, hl, rfl⟩

end Turns

end Rkx
