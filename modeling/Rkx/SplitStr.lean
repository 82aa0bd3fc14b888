import Rkx.Lib.CInt
import Rkx.Lib.CString
import Rkx.Lib.Scan
import Rkx.Lib.While
import Rkx.Redis

/-!
# Splitting a line (`rkx.c`)

`split_str` goes over the line twice: once to count the arguments, and once to store a pointer to each
of them and to end it with a NUL in the line itself.  The two passes stop at different bytes: both end an
argument at a space and at a newline, but only the second one goes on behind a newline.

* `countTurn`, `fillTurn`, `splitStr`: the two loops and the function;
* `line_induction`: what comes next on a line, for both loops;
* `ends_count`, `ends_fill`: a line without a newline is split into its words;
* `split_ends_iff`: a line with a newline is never split;
* `tokenised_iff`: what is left to go wrong, that `malloc` finds no array or that an `int` does not hold
  the number of the words.
-/

set_option autoImplicit false

namespace Rkx

open Lib.CInt Lib.CString Lib.OptionLoop Lib.Scan Lib.While Lib.Words

def newline : UInt8 := 10

/-- `*p`, for a pointer to index `i` of `m`. -/
def byteAt (m : List UInt8) (i : Nat) : UInt8 := m[i]?.getD 0

/-- `*line == ' '` -/
def isSpace (b : UInt8) : Bool := b == space

/-- `*line != ' ' && *line != '\n' && *line != '\0'` -/
def inArg (b : UInt8) : Bool := b != space && b != newline && b != 0

@[simp] theorem isSpace_zero : isSpace 0 = false := rfl

@[simp] theorem isSpace_newline : isSpace newline = false := rfl

@[simp] theorem inArg_zero : inArg 0 = false := rfl

@[simp] theorem inArg_newline : inArg newline = false := rfl

@[simp] theorem inArg_space : inArg space = false := rfl

/-- One turn of the counting loop, on the index `line` and on `argc`. -/
def countTurn (m : List UInt8) (s : Nat × Int32) : Turn (Nat × Int32) Int32 :=
  let (line, argc) := s
  if byteAt m line = 0 then .leave argc
  else
    let line := scan isSpace m line
    let argc := if byteAt m line ≠ 0 then argc + 1 else argc
    .next (scan inArg m line, argc)

/-- The state of the filling loop: the index `line`, the memory of the line, and the indices that
    `(*argv)[0]` to `(*argv)[cur_arg - 1]` point to. -/
structure Fill where
  line : Nat
  mem : List UInt8
  argv : List Nat

/-- One turn of the filling loop. -/
def fillTurn (argc : Int32) (s : Fill) : Turn Fill Fill :=
  if (s.argv.length : Int) < argc.toInt ∧ byteAt s.mem s.line ≠ 0 then
    let line := scan isSpace s.mem s.line
    let argv := if byteAt s.mem line ≠ 0 then s.argv ++ [line] else s.argv
    let line := scan inArg s.mem line
    if byteAt s.mem line ≠ 0 then .next { line := line + 1, mem := s.mem.set line 0, argv }
    else .next { line, mem := s.mem, argv }
  else .leave s

/-- `sizeof(char *) * argc` -/
def argvSize (argc : Int32) : UInt64 := 8 * argc.toInt64.toUInt64

/-- What `split_str` returns and leaves behind: `argc`, the array `*argv`, `none` for NULL, and the memory
    of the line. -/
structure Split where
  argc : Int32
  argv : Option (List Nat)
  mem : List UInt8

/-- `split_str(line, argv)`, `none` when `turns` turns of a loop are not enough.  `malloc` tells whether
    there is memory for so many bytes. -/
def splitStr (malloc : UInt64 → Bool) (turns : Nat) (line : CStr) : Option Split := do
  let mem := line.bytes ++ [0]
  let argc ← run (countTurn mem) turns (0, 0)
  if malloc (argvSize argc) then
    let filled ← run (fillTurn argc) turns { line := 0, mem, argv := [] }
    some { argc, argv := some filled.argv, mem := filled.mem }
  else some { argc, argv := none, mem }

/-- `split_str` returns, and leaves `r` behind. -/
def Splits (malloc : UInt64 → Bool) (line : CStr) (r : Split) : Prop :=
  ∃ turns, splitStr malloc turns line = some r

/-- The arguments that the pointers denote. -/
def Split.args (r : Split) : List CStr := (r.argv.getD []).map fun i => .ofMem (r.mem.drop i)

/-! ## An argument in front of the cursor -/

/-- The spaces at the start of `l`, then the argument `w`, and then `r`, which is empty or begins with a
    space. -/
structure NextArg (l w r : List UInt8) : Prop where
  eq : l.dropWhile isSpace = w ++ r
  ne_nil : w ≠ []
  inArg : ∀ b ∈ w, inArg b = true
  stop : ∀ b ∈ r.head?, isSpace b = true

theorem isSpace_eq_false {b : UInt8} (h : inArg b = true) : isSpace b = false := by
  simp only [inArg, Bool.and_eq_true, bne_iff_ne] at h
  exact beq_false_of_ne h.1.1

theorem inArg_eq_false {b : UInt8} (h : isSpace b = true) : inArg b = false := by
  rw [eq_of_beq h, inArg_space]

theorem inArg_iff {b : UInt8} (hb : b ≠ newline) (h0 : b ≠ 0) : inArg b = true ↔ isSpace b = false := by
  simp [inArg, isSpace, hb, h0]

/-- **In front of the cursor** are only spaces, or an argument. -/
theorem exists_nextArg {l : List UInt8} (hl : newline ∉ l) (h0 : 0 ∉ l) :
    l.dropWhile isSpace = [] ∨ ∃ w r, NextArg l w r := by
  cases hrest : l.dropWhile isSpace with
  | nil => exact Or.inl rfl
  | cons a rest =>
    have ha : isSpace a = false := by
      have hhead := List.head?_dropWhile_not isSpace l
      rw [hrest] at hhead
      simpa using hhead
    obtain ⟨w, r, heq, hne, hw, hr⟩ := exists_run_append ha rest
    refine Or.inr ⟨w, r, hrest.trans heq, hne, ?_, hr⟩
    intro b hb
    have hmem : b ∈ l := by
      refine (List.dropWhile_sublist isSpace).mem ?_
      rw [hrest, heq]
      exact List.mem_append_left _ hb
    exact (inArg_iff (fun h => hl (h ▸ hmem)) (fun h => h0 (h ▸ hmem))).2 (hw b hb)

namespace NextArg

variable {l w r : List UInt8}

theorem words_eq (h : NextArg l w r) : words isSpace l = w :: words isSpace r := by
  rw [← words_dropWhile, h.eq]
  exact words_run_append (fun b hb => isSpace_eq_false (h.inArg b hb)) h.ne_nil h.stop

/-- The space behind the argument does not count. -/
theorem words_tail (h : NextArg l w r) : words isSpace r.tail = words isSpace r := by
  have hstop := h.stop
  cases r with
  | nil => rfl
  | cons b r => exact (words_cons_of_pos (hstop b rfl) r).symm

theorem suffix (h : NextArg l w r) : r <:+ l := by
  have hdrop := List.dropWhile_suffix (l := l) isSpace
  rw [h.eq] at hdrop
  exact (List.suffix_append w r).trans hdrop

theorem length_lt (h : NextArg l w r) : r.length < l.length := by
  have hle := (List.dropWhile_sublist isSpace (l := l)).length_le
  rw [h.eq, List.length_append] at hle
  have hpos := List.length_pos_iff.2 h.ne_nil
  omega

end NextArg

/-- **Induction over a line** as the two passes go over it: nothing is left, or only spaces, or an argument
    comes next. -/
theorem line_induction {P : List UInt8 → Prop} (nil : P [])
    (spaces : ∀ l, l ≠ [] → 0 ∉ l → l.dropWhile isSpace = [] → P [] → P l)
    (arg : ∀ l w r, l ≠ [] → 0 ∉ l → NextArg l w r → P r → P r.tail → P l) {l : List UInt8}
    (hl : newline ∉ l) (h0 : 0 ∉ l) : P l := by
  induction hn : l.length using Nat.strong_induction_on generalizing l with
  | _ n ih =>
    subst hn
    by_cases hnil : l = []
    · rw [hnil]
      exact nil
    · rcases exists_nextArg hl h0 with hspaces | ⟨w, r, harg⟩
      · exact spaces l hnil h0 hspaces nil
      · have hsub : ∀ r', r' <:+ r → P r' := fun r' hr' =>
          ih r'.length (Nat.lt_of_le_of_lt hr'.length_le harg.length_lt)
            (fun hb => hl ((hr'.trans harg.suffix).mem hb)) (fun hb => h0 ((hr'.trans harg.suffix).mem hb)) rfl
        exact arg l w r hnil h0 harg (hsub r List.suffix_rfl) (hsub r.tail (List.tail_suffix r))

section Cursor

variable {m l w r : List UInt8} {i : Nat}

theorem byteAt_of_drop {b : UInt8} (h : m.drop i = b :: l) : byteAt m i = b := by
  rw [byteAt, getElem?_of_drop h]
  rfl

/-- In front of the NUL there is a byte as long as there is a line. -/
theorem byteAt_eq_zero_iff (h : m.drop i = l ++ [0]) (h0 : (0 : UInt8) ∉ l) : byteAt m i = 0 ↔ l = [] := by
  cases l with
  | nil => exact iff_of_true (byteAt_of_drop h) rfl
  | cons b l =>
    rw [byteAt_of_drop h]
    exact iff_of_false (fun hb => h0 (hb ▸ List.mem_cons_self)) (List.cons_ne_nil b l)

theorem drop_scan_line {p : UInt8 → Bool} (hp : p 0 = false) (h : m.drop i = l ++ [0]) :
    m.drop (scan p m i) = l.dropWhile p ++ [0] := by
  rw [drop_scan, h, dropWhile_append_cons_of_neg hp]

/-- The two inner loops on a line that has only spaces left. -/
theorem scan_spaces (h : m.drop i = l ++ [0]) (hl : l.dropWhile isSpace = []) :
    byteAt m (scan isSpace m i) = 0 ∧ m.drop (scan inArg m (scan isSpace m i)) = [0] := by
  have hspaces := drop_scan_line isSpace_zero h
  rw [hl] at hspaces
  exact ⟨byteAt_of_drop hspaces, drop_scan_line (l := []) inArg_zero hspaces⟩

/-- **The two inner loops in front of an argument** stop at it and behind it. -/
theorem scan_arg (h : m.drop i = l ++ [0]) (harg : NextArg l w r) :
    m.drop (scan isSpace m i) = w ++ (r ++ [0]) ∧
      scan inArg m (scan isSpace m i) = scan isSpace m i + w.length ∧
      m.drop (scan inArg m (scan isSpace m i)) = r ++ [0] := by
  have hspaces := drop_scan_line isSpace_zero h
  rw [harg.eq, List.append_assoc] at hspaces
  have hstop : ∀ b ∈ (r ++ [0]).head?, inArg b = false := by
    have hr := harg.stop
    cases r with
    | nil => simp
    | cons b r => simpa using inArg_eq_false (hr b rfl)
  obtain ⟨hscan, hdrop⟩ := scan_of_drop hspaces harg.inArg hstop
  exact ⟨hspaces, hscan, by rw [hscan, hdrop]⟩

theorem byteAt_arg (h : m.drop i = w ++ l) (hne : w ≠ []) (hw : ∀ b ∈ w, inArg b = true) : byteAt m i ≠ 0 := by
  obtain ⟨b, w, rfl⟩ := List.exists_cons_of_ne_nil hne
  rw [byteAt_of_drop h]
  rintro rfl
  simpa using hw 0 List.mem_cons_self

end Cursor

/-! ## The counting pass -/

/-- **What is counted** are the words. -/
theorem ends_count {m l : List UInt8} {i : Nat} (argc : Int32) (hl : newline ∉ l) (h0 : 0 ∉ l)
    (h : m.drop i = l ++ [0]) :
    Ends (countTurn m) (i, argc) (argc + Int32.ofNat (words isSpace l).length) := by
  refine line_induction (P := fun l => ∀ i argc, m.drop i = l ++ [0] →
    Ends (countTurn m) (i, argc) (argc + Int32.ofNat (words isSpace l).length)) ?_ ?_ ?_ hl h0 i argc h
  · intro i argc h
    have hturn : countTurn m (i, argc) = .leave argc := if_pos (byteAt_of_drop h)
    simpa using ends_leave hturn
  · intro l hne h0 hspaces ih i argc h
    have hbyte : byteAt m i ≠ 0 := mt (byteAt_eq_zero_iff h h0).1 hne
    obtain ⟨hend, hdrop⟩ := scan_spaces h hspaces
    have hturn : countTurn m (i, argc) = .next (scan inArg m (scan isSpace m i), argc) := by
      simp [countTurn, hbyte, hend]
    rw [← words_dropWhile, hspaces]
    exact ends_next hturn (ih _ argc hdrop)
  · intro l w r hne h0 harg ih _ i argc h
    have hbyte : byteAt m i ≠ 0 := mt (byteAt_eq_zero_iff h h0).1 hne
    obtain ⟨hdropArg, -, hdrop⟩ := scan_arg h harg
    have hturn : countTurn m (i, argc) = .next (scan inArg m (scan isSpace m i), argc + 1) := by
      simp [countTurn, hbyte, byteAt_arg hdropArg harg.ne_nil harg.inArg]
    have hrest := ih _ (argc + 1) hdrop
    rw [harg.words_eq, List.length_cons, Nat.add_comm, Int32.ofNat_add, ← Int32.add_assoc]
    exact ends_next hturn hrest

/-- **A newline in front of the cursor** stays there. -/
theorem not_ends_count {m l : List UInt8} {i : Nat} (argc : Int32) (hl : newline ∈ l) (h : m.drop i = l ++ [0])
    (h0 : 0 ∉ l) (r : Int32) : ¬ Ends (countTurn m) (i, argc) r := by
  have hnext : ∀ s : Nat × Int32, (∃ l, newline ∈ l ∧ 0 ∉ l ∧ m.drop s.1 = l ++ [0]) →
      ∃ s', countTurn m s = .next s' ∧ ∃ l, newline ∈ l ∧ 0 ∉ l ∧ m.drop s'.1 = l ++ [0] := by
    rintro ⟨i, argc⟩ ⟨l, hl, h0, h⟩
    have hbyte : byteAt m i ≠ 0 := mt (byteAt_eq_zero_iff h h0).1 (List.ne_nil_of_mem hl)
    refine ⟨_, if_neg hbyte, (l.dropWhile isSpace).dropWhile inArg, ?_, ?_, ?_⟩
    · exact mem_dropWhile inArg_newline (mem_dropWhile isSpace_newline hl)
    · exact fun hb => h0 ((List.dropWhile_sublist _).mem ((List.dropWhile_sublist _).mem hb))
    · exact drop_scan_line inArg_zero (drop_scan_line isSpace_zero h)
  exact not_ends_of_invariant hnext ⟨l, hl, h0, h⟩ r

/-! ## The filling pass -/

/-- The second memory is the first one with some spaces overwritten. -/
structure Kept (m m' : List UInt8) : Prop where
  length : m'.length = m.length
  byte : ∀ (i : Nat) (b : UInt8), m[i]? = some b → b ≠ space → m'[i]? = some b

namespace Kept

variable {m m' : List UInt8}

theorem refl (m : List UInt8) : Kept m m := ⟨rfl, fun _ _ h _ => h⟩

theorem trans {m'' : List UInt8} (h : Kept m m') (h' : Kept m' m'') : Kept m m'' where
  length := h'.length.trans h.length
  byte i b hb hne := h'.byte i b (h.byte i b hb hne) hne

theorem set {i : Nat} (h : m[i]? = some space) (b : UInt8) : Kept m (m.set i b) where
  length := List.length_set
  byte j c hc hne := by
    have hij : i ≠ j := by
      rintro rfl
      exact hne (Option.some_inj.1 (hc.symm.trans h))
    rwa [List.getElem?_set_ne hij]

/-- **An argument that a NUL ends** is read back. -/
theorem ofMem_drop (h : Kept m m') {i : Nat} {w rest : List UInt8} (hdrop : m.drop i = w ++ 0 :: rest)
    (hw : ∀ b ∈ w, inArg b = true) : (CStr.ofMem (m'.drop i)).bytes = w := by
  have hnul : (0 : UInt8) ∉ w := fun hb => by simpa using hw 0 hb
  have hpre : w ++ [0] <+: m'.drop i := by
    rw [List.prefix_iff_getElem?]
    intro j hj
    rw [List.getElem?_drop]
    refine h.byte _ _ ?_ ?_
    · rw [← List.getElem?_drop, hdrop, List.append_cons, List.getElem?_append_left hj, List.getElem?_eq_getElem]
    · have hmem : (w ++ [0])[j] ∈ w ++ [0] := List.getElem_mem hj
      rcases List.mem_append.1 hmem with hmem | hmem
      · intro heq
        rw [heq] at hmem
        simpa using hw space hmem
      · rw [List.mem_singleton.1 hmem]
        decide
  exact congrArg CStr.bytes (CStr.ofMem_of_prefix (s := ⟨w, hnul⟩) hpre)

end Kept

/-- **A turn in front of an argument** stores a pointer to it and ends it with a NUL. -/
theorem fillTurn_arg {argc : Int32} {s : Fill} {l w r : List UInt8} (h : s.mem.drop s.line = l ++ [0])
    (hturn : (s.argv.length : Int) < argc.toInt ∧ byteAt s.mem s.line ≠ 0) (harg : NextArg l w r) :
    ∃ i s' rest, fillTurn argc s = .next s' ∧ s'.argv = s.argv ++ [i] ∧ Kept s.mem s'.mem ∧
      s'.mem.drop i = w ++ 0 :: rest ∧ s'.mem.drop s'.line = r.tail ++ [0] := by
  obtain ⟨hdropArg, hscan, hdrop⟩ := scan_arg h harg
  have hargv := byteAt_arg hdropArg harg.ne_nil harg.inArg
  cases r with
  | nil =>
    have hend : byteAt s.mem (scan inArg s.mem (scan isSpace s.mem s.line)) = 0 := byteAt_of_drop hdrop
    refine ⟨scan isSpace s.mem s.line,
      { line := scan inArg s.mem (scan isSpace s.mem s.line)
        mem := s.mem
        argv := s.argv ++ [scan isSpace s.mem s.line] }, [], ?_, rfl, Kept.refl _, hdropArg, hdrop⟩
    simp only [fillTurn, hturn, hargv, hend, ne_eq, not_true_eq_false, not_false_eq_true, and_self, if_true,
      if_false]
  | cons b r =>
    obtain rfl : b = space := eq_of_beq (harg.stop b rfl)
    have hsep : byteAt s.mem (scan inArg s.mem (scan isSpace s.mem s.line)) ≠ 0 := by
      rw [byteAt_of_drop hdrop]
      decide
    refine ⟨scan isSpace s.mem s.line,
      { line := scan inArg s.mem (scan isSpace s.mem s.line) + 1
        mem := s.mem.set (scan inArg s.mem (scan isSpace s.mem s.line)) 0
        argv := s.argv ++ [scan isSpace s.mem s.line] }, r ++ [0], ?_, rfl, ?_, ?_, ?_⟩
    · simp only [fillTurn, hturn, hargv, hsep, ne_eq, not_false_eq_true, and_self, if_true]
    · exact Kept.set (getElem?_of_drop hdrop) 0
    · have hle : ¬ scan isSpace s.mem s.line + w.length < scan isSpace s.mem s.line := by omega
      rw [hscan, List.drop_set, if_neg hle, hdropArg, Nat.add_sub_cancel_left,
        List.set_append_right _ _ (Nat.le_refl _), Nat.sub_self]
      rfl
    · show (s.mem.set _ 0).drop (_ + 1) = _
      rw [List.drop_set_of_lt (Nat.lt_succ_self _)]
      exact drop_succ_of_drop hdrop

/-- A turn in front of spaces only goes to the end. -/
theorem fillTurn_spaces {argc : Int32} {s : Fill} {l : List UInt8} (h : s.mem.drop s.line = l ++ [0])
    (hturn : (s.argv.length : Int) < argc.toInt ∧ byteAt s.mem s.line ≠ 0) (hl : l.dropWhile isSpace = []) :
    ∃ i, fillTurn argc s = .next { s with line := i } ∧ s.mem.drop i = [0] := by
  obtain ⟨hend, hdrop⟩ := scan_spaces h hl
  refine ⟨scan inArg s.mem (scan isSpace s.mem s.line), ?_, hdrop⟩
  simp [fillTurn, hturn, hend, byteAt_of_drop hdrop]

/-- The filling loop ends from `s`, where `l` is left of the line: the words that there is room for have
    pointers to them, behind those that were stored before. -/
def Fills (argc : Int32) (l : List UInt8) (s : Fill) : Prop :=
  ∃ s' argv, Ends (fillTurn argc) s s' ∧ s'.argv = s.argv ++ argv ∧ Kept s.mem s'.mem ∧
    argv.map (fun i => (CStr.ofMem (s'.mem.drop i)).bytes) =
      (words isSpace l).take (argc.toInt.toNat - s.argv.length)

theorem fills_full {argc : Int32} {s : Fill} (l : List UInt8) (h : ¬ (s.argv.length : Int) < argc.toInt) :
    Fills argc l s := by
  refine ⟨s, [], ends_leave (if_neg fun hturn => h hturn.1), (List.append_nil _).symm, Kept.refl _, ?_⟩
  have hzero : argc.toInt.toNat - s.argv.length = 0 := by omega
  rw [hzero]
  rfl

/-- **The filling pass ends.** -/
theorem ends_fill (argc : Int32) {s : Fill} {l : List UInt8} (hl : newline ∉ l) (h0 : 0 ∉ l)
    (h : s.mem.drop s.line = l ++ [0]) : Fills argc l s := by
  refine line_induction (P := fun l => ∀ s : Fill, s.mem.drop s.line = l ++ [0] → Fills argc l s)
    ?_ ?_ ?_ hl h0 s h
  · intro s h
    have hend : byteAt s.mem s.line = 0 := byteAt_of_drop h
    exact ⟨s, [], ends_leave (if_neg fun hturn => hturn.2 hend), (List.append_nil _).symm, Kept.refl _, by simp⟩
  · intro l hne h0 hspaces ih s h
    by_cases hroom : (s.argv.length : Int) < argc.toInt
    · obtain ⟨i, hstep, hdrop⟩ := fillTurn_spaces h ⟨hroom, mt (byteAt_eq_zero_iff h h0).1 hne⟩ hspaces
      obtain ⟨s', argv, hends, hargv, hkept, hread⟩ := ih { s with line := i } hdrop
      refine ⟨s', argv, ends_next hstep hends, hargv, hkept, ?_⟩
      rw [← words_dropWhile l, hspaces]
      exact hread
    · exact fills_full l hroom
  · intro l w r hne h0 harg _ ih s h
    by_cases hroom : (s.argv.length : Int) < argc.toInt
    · obtain ⟨i, t, rest, hstep, hstored, hset, hdropArg, hdrop⟩ :=
        fillTurn_arg h ⟨hroom, mt (byteAt_eq_zero_iff h h0).1 hne⟩ harg
      obtain ⟨s', argv, hends, hargv, hkept, hread⟩ := ih t hdrop
      refine ⟨s', i :: argv, ends_next hstep hends, ?_, hset.trans hkept, ?_⟩
      · rw [hargv, hstored, List.append_assoc, List.singleton_append]
      · have hleft : argc.toInt.toNat - s.argv.length = argc.toInt.toNat - t.argv.length + 1 := by
          rw [hstored, List.length_append, List.length_singleton]
          omega
        rw [List.map_cons, hkept.ofMem_drop hdropArg harg.inArg, hread, harg.words_eq, hleft,
          List.take_succ_cons, harg.words_tail]
    · exact fills_full l hroom

/-! ## The result -/

theorem splits_iff {malloc : UInt64 → Bool} {line : CStr} {r : Split} :
    Splits malloc line r ↔
      ∃ argc, Ends (countTurn (line.bytes ++ [0])) (0, 0) argc ∧
        (malloc (argvSize argc) = true ∧
            (∃ s, Ends (fillTurn argc) { line := 0, mem := line.bytes ++ [0], argv := [] } s ∧
              r = { argc, argv := some s.argv, mem := s.mem }) ∨
          malloc (argvSize argc) = false ∧ r = { argc, argv := none, mem := line.bytes ++ [0] }) := by
  constructor
  · rintro ⟨turns, h⟩
    obtain ⟨argc, hargc, hrest⟩ := Option.bind_eq_some_iff.1 h
    refine ⟨argc, ⟨turns, hargc⟩, ?_⟩
    cases hmalloc : malloc (argvSize argc) with
    | true =>
      rw [hmalloc, if_pos rfl] at hrest
      obtain ⟨s, hs, hr⟩ := Option.bind_eq_some_iff.1 hrest
      exact Or.inl ⟨rfl, s, ⟨turns, hs⟩, (Option.some_inj.1 hr).symm⟩
    | false =>
      rw [hmalloc, if_neg Bool.false_ne_true] at hrest
      exact Or.inr ⟨rfl, (Option.some_inj.1 hrest).symm⟩
  · rintro ⟨argc, ⟨n, hargc⟩, ⟨hmalloc, s, ⟨k, hs⟩, rfl⟩ | ⟨hmalloc, rfl⟩⟩
    · refine ⟨n + k, ?_⟩
      have hfill := run_add hs n
      rw [Nat.add_comm] at hfill
      simp only [splitStr, run_add hargc k, hmalloc, hfill, Option.bind_eq_bind, Option.bind_some, if_true]
    · refine ⟨n, ?_⟩
      simp only [splitStr, hargc, hmalloc, Option.bind_eq_bind, Option.bind_some, Bool.false_eq_true, if_false]

/-- **`split_str` has one result.** -/
theorem Splits.unique {malloc : UInt64 → Bool} {line : CStr} {r r' : Split} (h : Splits malloc line r)
    (h' : Splits malloc line r') : r = r' := by
  obtain ⟨argc, hargc, hr⟩ := splits_iff.1 h
  obtain ⟨argc', hargc', hr'⟩ := splits_iff.1 h'
  obtain rfl := hargc.unique hargc'
  rcases hr with ⟨hmalloc, s, hs, rfl⟩ | ⟨hmalloc, rfl⟩
  · rcases hr' with ⟨-, s', hs', rfl⟩ | ⟨hfail, -⟩
    · rw [hs.unique hs']
    · exact absurd (hmalloc.symm.trans hfail) (by decide)
  · rcases hr' with ⟨hfound, -⟩ | ⟨-, rfl⟩
    · exact absurd (hfound.symm.trans hmalloc) (by decide)
    · rfl

/-- What `split_str` makes of a line: its words are counted, and as many of them as `argc` says are found
    behind the pointers. -/
structure SplitInto (malloc : UInt64 → Bool) (line : CStr) (r : Split) : Prop where
  argc : r.argc = Int32.ofNat (words isSpace line.bytes).length
  argv : r.argv.isSome = malloc (argvSize r.argc)
  args : r.argv.isSome → r.args.map CStr.bytes = (words isSpace line.bytes).take r.argc.toInt.toNat
  kept : Kept (line.bytes ++ [0]) r.mem

/-- **A line without a newline is split.** -/
theorem exists_splits (malloc : UInt64 → Bool) {line : CStr} (hl : newline ∉ line.bytes) :
    ∃ r, Splits malloc line r ∧ SplitInto malloc line r := by
  have hcount := ends_count 0 hl line.noNul (i := 0) rfl
  rw [Int32.zero_add] at hcount
  cases hmalloc : malloc (argvSize (Int32.ofNat (words isSpace line.bytes).length)) with
  | true =>
    obtain ⟨s, argv, hends, hargv, hkept, hread⟩ := ends_fill (Int32.ofNat (words isSpace line.bytes).length)
      (s := { line := 0, mem := line.bytes ++ [0], argv := [] }) hl line.noNul rfl
    refine ⟨_, splits_iff.2 ⟨_, hcount, Or.inl ⟨hmalloc, s, hends, rfl⟩⟩, rfl, hmalloc.symm, ?_, hkept⟩
    intro _
    rw [Split.args, Option.getD_some, List.map_map, hargv]
    exact hread
  | false =>
    exact ⟨_, splits_iff.2 ⟨_, hcount, Or.inr ⟨hmalloc, rfl⟩⟩, rfl, hmalloc.symm,
      fun h => absurd h (by simp), Kept.refl _⟩

/-- **A line with a newline** is not. -/
theorem not_splits {malloc : UInt64 → Bool} {line : CStr} (hl : newline ∈ line.bytes) (r : Split) :
    ¬ Splits malloc line r := by
  intro h
  obtain ⟨argc, hargc, -⟩ := splits_iff.1 h
  exact not_ends_count 0 hl rfl line.noNul argc hargc

theorem Splits.splitInto {malloc : UInt64 → Bool} {line : CStr} {r : Split} (h : Splits malloc line r) :
    newline ∉ line.bytes ∧ SplitInto malloc line r := by
  have hl : newline ∉ line.bytes := fun hl => not_splits hl r h
  obtain ⟨r', h', hinto⟩ := exists_splits malloc hl
  rw [h.unique h']
  exact ⟨hl, hinto⟩

example : (splitStr (fun _ => true) 4 (.lit "  ls  -l ")).map (fun r => (r.argc, r.args)) =
    some (2, [.lit "ls", .lit "-l"]) := by decide

/-! ## Termination -/

/-- **`split_str` ends**, with an `argc` that is not more than the length of the line, exactly if there is
    no newline in the line. -/
theorem split_ends_iff (malloc : UInt64 → Bool) (line : CStr) :
    (∃ r, Splits malloc line r ∧ r.argc.toInt ≤ line.strlen) ↔ newline ∉ line.bytes := by
  constructor
  · rintro ⟨r, h, -⟩
    exact h.splitInto.1
  · intro hl
    obtain ⟨r, h, hinto⟩ := exists_splits malloc hl
    refine ⟨r, h, ?_⟩
    rw [hinto.argc]
    have hwords : (words isSpace line.bytes).length ≤ line.strlen := length_words_le line.bytes
    exact Int.le_trans (toInt_ofNat_le _) (Int.ofNat_le.2 hwords)

/-- `a`, a newline and `b`. -/
def twoLines : CStr := ⟨[97, newline, 98], by decide⟩

theorem two_lines_hang : ¬ ∃ r, Splits (fun _ => true) twoLines r ∧ r.argc.toInt ≤ twoLines.strlen := by
  rintro ⟨r, hr, -⟩
  exact not_splits (show newline ∈ twoLines.bytes by decide) r hr

/-! ## The tokens -/

namespace SplitInto

variable {malloc : UInt64 → Bool} {line : CStr} {r : Split}

/-- The array has `argc` elements. -/
theorem length_args (h : SplitInto malloc line r) (hargv : r.argv.isSome) (hargc : 0 ≤ r.argc.toInt) :
    (r.args.length : Int) = r.argc.toInt := by
  have hlen := congrArg List.length (h.args hargv)
  rw [List.length_map, List.length_take] at hlen
  have hle := toInt_ofNat_le (words isSpace line.bytes).length
  rw [← h.argc] at hle
  omega

theorem args_ne_nil (h : SplitInto malloc line r) (hargv : r.argv.isSome) (hargc : 1 ≤ r.argc.toInt) :
    r.args ≠ [] := by
  have hlen := h.length_args hargv (by omega)
  rw [ne_eq, ← List.length_eq_zero_iff]
  omega

/-- The tokens are words. -/
theorem word (h : SplitInto malloc line r) (hargv : r.argv.isSome) {arg : CStr} (harg : arg ∈ r.args) :
    arg.bytes ≠ [] ∧ ∀ b ∈ arg.bytes, b ∈ line.bytes ∧ isSpace b = false := by
  have hmem : arg.bytes ∈ words isSpace line.bytes := by
    have hmap := List.mem_map_of_mem (f := CStr.bytes) harg
    rw [h.args hargv] at hmap
    exact List.mem_of_mem_take hmap
  exact ⟨ne_nil_of_mem_words hmem, fun b hb => (mem_words line.bytes).1 ⟨arg.bytes, hmem, hb⟩⟩

end SplitInto

/-- `split_str` tokenises: `argc` pointers are stored, as many as the array has room for, they denote the
    words of the line in order, and no byte but spaces is changed. -/
structure Tokenised (line : CStr) (r : Split) : Prop where
  counted : ((r.argv.getD []).length : Int) = r.argc.toInt
  room : 8 * (r.argv.getD []).length = (argvSize r.argc).toNat
  args : r.args.map CStr.bytes = words isSpace line.bytes
  kept : Kept (line.bytes ++ [0]) r.mem

theorem toUInt64_ofNat {n : Nat} (h : n ≤ INT_MAX) : (Int32.ofNat n).toInt64.toUInt64 = UInt64.ofNat n := by
  have hmax : n < 2 ^ 63 := Nat.lt_of_le_of_lt h (by decide)
  have hlong : (Int32.ofNat n).toInt64 = Int64.ofNat n := by
    rw [← Int64.toInt_inj, Int32.toInt_toInt64, toInt_ofNat_of_le h, Int64.toInt_ofNat_of_lt hmax]
  rw [hlong]
  rfl

theorem toNat_argvSize {n : Nat} (h : n ≤ INT_MAX) : (argvSize (Int32.ofNat n)).toNat = 8 * n := by
  have hmax : 8 * n < 2 ^ 64 := by
    unfold INT_MAX at h
    omega
  rw [argvSize, toUInt64_ofNat h, UInt64.toNat_mul, UInt64.toNat_ofNat', UInt64.toNat_ofNat,
    ← Nat.mul_mod, Nat.mod_eq_of_lt hmax]

theorem length_args (r : Split) : r.args.length = (r.argv.getD []).length := List.length_map _

/-- Tokens are found behind an array only. -/
theorem Tokenised.found {malloc : UInt64 → Bool} {line : CStr} {r : Split} (h : SplitInto malloc line r)
    (htok : Tokenised line r) :
    malloc (argvSize (Int32.ofNat (words isSpace line.bytes).length)) = true ∨
      words isSpace line.bytes = [] := by
  cases hr : r.argv with
  | none =>
    have hnone : r.args = [] := by rw [Split.args, hr]; rfl
    exact Or.inr (by rw [← htok.args, hnone]; rfl)
  | some argv =>
    rw [← h.argc, ← h.argv, hr]
    exact Or.inl rfl

/-- And `argc` counts them. -/
theorem Tokenised.le_max {line : CStr} {r : Split} (htok : Tokenised line r) :
    (words isSpace line.bytes).length ≤ INT_MAX := by
  have hcounted := htok.counted
  have hmax := Int32.toInt_lt r.argc
  rw [← hcounted, ← length_args, ← List.length_map CStr.bytes, htok.args] at hmax
  exact Nat.le_of_lt_succ (by exact_mod_cast hmax)

/-- **A line without newlines is tokenised** exactly if `malloc` finds the array, or nothing is to be stored
    in it, and an `int` holds the number of the tokens. -/
theorem tokenised_iff (malloc : UInt64 → Bool) {line : CStr} (hl : newline ∉ line.bytes) :
    (∃ r, Splits malloc line r ∧ Tokenised line r) ↔
      (malloc (argvSize (Int32.ofNat (words isSpace line.bytes).length)) = true ∨
          words isSpace line.bytes = []) ∧
        (words isSpace line.bytes).length ≤ INT_MAX := by
  constructor
  · rintro ⟨r, h, htok⟩
    exact ⟨htok.found h.splitInto.2, htok.le_max⟩
  · rintro ⟨hfound, hmax⟩
    obtain ⟨r, h, hargc, hargv, hargs, hkept⟩ := exists_splits malloc hl
    have hwords : r.args.map CStr.bytes = words isSpace line.bytes := by
      rcases hfound with hfound | hnil
      · rw [hargs (by rw [hargv, hargc, hfound]), hargc, toInt_ofNat_of_le hmax, Int.toNat_natCast,
          List.take_length]
      · cases hr : r.argv with
        | none => rw [Split.args, hr, hnil]; rfl
        | some argv => rw [hargs (by rw [hr]; rfl), hnil, List.take_nil]
    have hlen : (r.argv.getD []).length = (words isSpace line.bytes).length := by
      rw [← hwords, List.length_map, length_args]
    refine ⟨r, h, ?_, ?_, hwords, hkept⟩
    · rw [hlen, hargc, toInt_ofNat_of_le hmax]
    · rw [hlen, hargc, toNat_argvSize hmax]

theorem tokenised_sample : ∃ r, Splits (fun _ => true) (.lit "  ls -l ") r ∧ Tokenised (.lit "  ls -l ") r :=
  (tokenised_iff (fun _ => true) (by decide)).2 ⟨Or.inl rfl, by decide⟩

/-- `n` times the letter `a` and a space. -/
def manyArgs : Nat → CStr
  | 0 => ⟨[], List.not_mem_nil⟩
  | n + 1 => .append ⟨[97, space], by decide⟩ (manyArgs n)

theorem words_manyArgs : ∀ n, words isSpace (manyArgs n).bytes = List.replicate n [97]
  | 0 => rfl
  | n + 1 => by
    have hsplit := words_append_cons (p := isSpace) (s := space) (by decide) [97] (manyArgs n).bytes
    rw [words_manyArgs n] at hsplit
    exact hsplit

theorem newline_notMem_manyArgs : ∀ n, newline ∉ (manyArgs n).bytes
  | 0 => List.not_mem_nil
  | n + 1 => fun h => (List.mem_append.1 h).elim (by decide) (newline_notMem_manyArgs n)

/-- Two lines that are not tokenised: `a` when `malloc` finds no memory, and more arguments than an `int`
    counts. -/
theorem tokens_lost :
    (¬ ∃ r, Splits (fun _ => false) (.lit "a") r ∧ Tokenised (.lit "a") r) ∧
      newline ∉ (manyArgs (INT_MAX + 1)).bytes ∧
      ∀ malloc, ¬ ∃ r, Splits malloc (manyArgs (INT_MAX + 1)) r ∧ Tokenised (manyArgs (INT_MAX + 1)) r := by
  refine ⟨?_, ?_, ?_⟩
  · rintro ⟨r, h, htok⟩
    exact absurd (htok.found h.splitInto.2) (by decide)
  · exact newline_notMem_manyArgs _
  · rintro malloc ⟨r, -, htok⟩
    have hmax := htok.le_max
    rw [words_manyArgs, List.length_replicate] at hmax
    exact Nat.not_succ_le_self _ hmax

end Rkx
