import Rkx.Redis

/-!
# Formatting twice

`kx_sync_send_cmd` formats a template of `acs` with its arguments, and `redisCommand` takes the
result as a format of its own.

* `conversions?`: the conversions of a template, `Passed`: arguments that fit them;
* `atoms`, `filledWords`: the template cut into words, each conversion replaced by its argument;
* `percent_mem_vsnprintf_iff`: a percent of the finished text comes from an argument;
* `sends_verbatim_iff`: the server receives the filled words exactly if no string argument has a
  percent.
-/

set_option autoImplicit false

namespace Rkx

open Lib.CString Lib.Words

/-! ## Templates and their arguments -/

inductive Conv where
  | s
  | lu
  | d
  deriving DecidableEq

/-- The conversions of a template, `none` when a percent begins none of them. -/
def conversions? : List UInt8 → Option (List Conv)
  | [] => some []
  | b :: fmt =>
    if b = percent then
      match fmt with
      | 115 :: fmt => (conversions? fmt).map (.s :: ·)
      | 108 :: 117 :: fmt => (conversions? fmt).map (.lu :: ·)
      | 100 :: fmt => (conversions? fmt).map (.d :: ·)
      | _ => none
    else conversions? fmt

/-- `%s` takes a string, `%lu` and `%d` take a number. -/
def Conv.Takes : Conv → FmtArg → Prop
  | .s, .s _ => True
  | .lu, .num _ => True
  | .d, .num _ => True
  | _, _ => False

/-- The arguments of a template: one of the right kind for each conversion. -/
def Passed (fmt : List UInt8) (args : List FmtArg) : Prop :=
  ∃ cs, conversions? fmt = some cs ∧ List.Forall₂ Conv.Takes cs args

/-- A byte of the template, or an argument that stands for a conversion. -/
inductive Atom where
  | byte (b : UInt8)
  | arg (a : FmtArg)

def Atom.text : Atom → List UInt8
  | .byte b => [b]
  | .arg a => a.text

def Atom.isSpace : Atom → Bool
  | .byte b => b == space
  | .arg _ => false

/-- The template with its conversions replaced. -/
def atoms : List UInt8 → List FmtArg → List Atom
  | 37 :: 115 :: fmt, a :: args => .arg a :: atoms fmt args
  | 37 :: 108 :: 117 :: fmt, a :: args => .arg a :: atoms fmt args
  | 37 :: 100 :: fmt, a :: args => .arg a :: atoms fmt args
  | b :: fmt, args => .byte b :: atoms fmt args
  | [], _ => []

/-- The words of the template, each conversion replaced by its argument. -/
def filledWords (fmt : List UInt8) (args : List FmtArg) : List (List UInt8) :=
  (words Atom.isSpace (atoms fmt args)).map (List.flatMap Atom.text)

theorem vsnprintf_eq_atoms (fmt : List UInt8) (args : List FmtArg) :
    vsnprintf fmt args = (atoms fmt args).flatMap Atom.text := by
  induction fmt, args using vsnprintf.induct with
  | case1 fmt a args ih | case2 fmt a args ih | case3 fmt a args ih =>
    rw [vsnprintf, atoms, List.flatMap_cons, ih]
    rfl
  | case4 b fmt args h1 h2 h3 ih =>
    rw [vsnprintf, atoms, List.flatMap_cons, ih]
    · rfl
    all_goals assumption
  | case5 args => rfl

/-! ## Where a percent comes from -/

/-- Behind a conversion the other arguments fit. -/
theorem Passed.tail {c : Conv} {fmt fmt' : List UInt8} {a : FmtArg} {args : List FmtArg}
    (hc : conversions? fmt = (conversions? fmt').map (c :: ·)) (h : Passed fmt (a :: args)) :
    Passed fmt' args := by
  obtain ⟨cs, hcs, htakes⟩ := h
  rw [hc] at hcs
  obtain ⟨cs', hcs', rfl⟩ := Option.map_eq_some_iff.1 hcs
  exact ⟨cs', hcs', (List.forall₂_cons.1 htakes).2⟩

/-- A byte that `vsnprintf` copies is not a percent. -/
theorem Passed.of_byte {b : UInt8} {fmt : List UInt8} {args : List FmtArg}
    (hs : ∀ fmt' a args', args = a :: args' → b = 37 → fmt = 115 :: fmt' → False)
    (hlu : ∀ fmt' a args', args = a :: args' → b = 37 → fmt = 108 :: 117 :: fmt' → False)
    (hd : ∀ fmt' a args', args = a :: args' → b = 37 → fmt = 100 :: fmt' → False)
    (h : Passed (b :: fmt) args) : b ≠ percent ∧ Passed fmt args := by
  obtain ⟨cs, hcs, htakes⟩ := h
  rw [conversions?.eq_def] at hcs
  dsimp only at hcs
  split at hcs
  · -- a percent begins a conversion, which has an argument
    rename_i hb
    exfalso
    split at hcs
    · obtain ⟨cs', -, rfl⟩ := Option.map_eq_some_iff.1 hcs
      obtain ⟨a, args', -, -, rfl⟩ := List.forall₂_cons_left_iff.1 htakes
      exact hs _ a args' rfl hb rfl
    · obtain ⟨cs', -, rfl⟩ := Option.map_eq_some_iff.1 hcs
      obtain ⟨a, args', -, -, rfl⟩ := List.forall₂_cons_left_iff.1 htakes
      exact hlu _ a args' rfl hb rfl
    · obtain ⟨cs', -, rfl⟩ := Option.map_eq_some_iff.1 hcs
      obtain ⟨a, args', -, -, rfl⟩ := List.forall₂_cons_left_iff.1 htakes
      exact hd _ a args' rfl hb rfl
    · cases hcs
  · rename_i hb
    exact ⟨hb, cs, hcs, htakes⟩

/-- **A percent of the text comes from an argument.** -/
theorem percent_mem_vsnprintf_iff (fmt : List UInt8) (args : List FmtArg) (h : Passed fmt args) :
    percent ∈ vsnprintf fmt args ↔ ∃ a ∈ args, percent ∈ a.text := by
  induction fmt, args using vsnprintf.induct with
  | case1 fmt a args ih | case2 fmt a args ih | case3 fmt a args ih =>
    rw [vsnprintf, List.mem_append, ih (h.tail rfl), List.exists_mem_cons_iff]
  | case4 b fmt args hs hlu hd ih =>
    obtain ⟨hb, hrest⟩ := h.of_byte hs hlu hd
    rw [vsnprintf.eq_4 args b fmt hs hlu hd, List.mem_cons, ih hrest]
    exact or_iff_right (Ne.symm hb)
  | case5 args =>
    obtain ⟨cs, hcs, htakes⟩ := h
    cases hcs
    rw [List.forall₂_nil_left_iff.1 htakes]
    simp [vsnprintf]

/-! ## The words of the text -/

/-- A word that is neither empty nor has a space. -/
def FmtArg.Token (a : FmtArg) : Prop := a.text ≠ [] ∧ space ∉ a.text

theorem mem_of_arg_mem_atoms {fmt : List UInt8} {args : List FmtArg} {a : FmtArg}
    (h : .arg a ∈ atoms fmt args) : a ∈ args := by
  induction fmt, args using atoms.induct with
  | case1 fmt c args ih | case2 fmt c args ih | case3 fmt c args ih =>
    rw [atoms, List.mem_cons] at h
    rcases h with h | h
    · cases h
      exact List.mem_cons_self
    · exact List.mem_cons_of_mem _ (ih h)
  | case4 b fmt args hs hlu hd ih =>
    rw [atoms, List.mem_cons] at h
    · rcases h with h | h
      · cases h
      · exact ih h
    all_goals assumption
  | case5 args => cases h

/-- **The text has the filled words** when the arguments are tokens. -/
theorem words_vsnprintf {fmt : List UInt8} {args : List FmtArg} (h : ∀ a ∈ args, a.Token) :
    words (· == space) (vsnprintf fmt args) = filledWords fmt args := by
  rw [vsnprintf_eq_atoms, filledWords]
  apply words_flatMap
  constructor
  case sep =>
    intro x _ hx
    cases x with
    | byte b => exact ⟨b, rfl, hx⟩
    | arg a => cases hx
  case ne_nil =>
    intro x hx _
    cases x with
    | byte b => exact List.cons_ne_nil b []
    | arg a => exact (h a (mem_of_arg_mem_atoms hx)).1
  case word =>
    intro x hx hspace b hb
    cases x with
    | byte c => rw [List.mem_singleton.1 hb]; exact hspace
    | arg a =>
      have hspace := (h a (mem_of_arg_mem_atoms hx)).2
      exact beq_false_of_ne (ne_of_mem_of_not_mem hb hspace)

/-! ## The commands of the program -/

/-- `kx_search_action` finds every action of the table. -/
theorem kxSearchAction_of_mem : ∀ ac ∈ acs, kxSearchAction ac.type = some ac := by
  intro ac h
  simp only [acs, List.mem_cons, List.not_mem_nil, or_false] at h
  rcases h with rfl | rfl | rfl | rfl | rfl | rfl | rfl | rfl <;> rfl

/-- Every percent of the table begins a conversion. -/
theorem conversions?_acs : ∀ ac ∈ acs, (conversions? ac.cmdline.bytes).isSome = true := by
  decide +kernel

/-- A call of `kx_sync_send_cmd` with an action of the table, and for its conversions arguments of
    which the strings are words. -/
structure SentCommand where
  ac : Action
  mem : ac ∈ acs
  args : List FmtArg
  passed : Passed ac.cmdline.bytes args
  tokens : ∀ v, .s v ∈ args → v.bytes ≠ [] ∧ space ∉ v.bytes

namespace SentCommand

/-- The server receives the words of the template, each conversion replaced by its argument, and no
    further argument is looked for; `alloc` is the outcome of `zmalloc`. -/
def Verbatim (alloc : Bool) (c : SentCommand) : Prop :=
  ∃ text, kxSyncSendCmd alloc c.ac.type c.args = .ok (some text) ∧
    redisCommand text.bytes = some (filledWords c.ac.cmdline.bytes c.args)

theorem token_of_mem (c : SentCommand) (a : FmtArg) (ha : a ∈ c.args) : a.Token := by
  cases a with
  | s v => exact c.tokens v ha
  | num n =>
    refine ⟨decimal_ne_nil n, ?_⟩
    intro h
    exact absurd (digit_of_mem_toDigits h).1 (by decide)

theorem percent_mem_text_iff (c : SentCommand) :
    (∃ a ∈ c.args, percent ∈ a.text) ↔ ∃ v, .s v ∈ c.args ∧ percent ∈ v.bytes := by
  constructor
  · rintro ⟨a, ha, hp⟩
    cases a with
    | s v => exact ⟨v, ha, hp⟩
    | num n => exact absurd (digit_of_mem_toDigits hp).1 (by decide)
  · rintro ⟨v, hv, hp⟩
    exact ⟨_, hv, hp⟩

end SentCommand

theorem zero_notMem_vsnprintf (fmt : List UInt8) (args : List FmtArg) (h : (0 : UInt8) ∉ fmt) :
    (0 : UInt8) ∉ vsnprintf fmt args := by
  have htext : ∀ a : FmtArg, (0 : UInt8) ∉ a.text := by
    intro a
    cases a with
    | s v => exact v.noNul
    | num n => exact (decimal n).noNul
  induction fmt, args using vsnprintf.induct with
  | case1 fmt a args ih | case2 fmt a args ih | case3 fmt a args ih =>
    rw [vsnprintf, List.mem_append, not_or]
    simp only [List.mem_cons, not_or] at h
    exact ⟨htext a, ih (by tauto)⟩
  | case4 b fmt args hs hlu hd ih =>
    rw [List.mem_cons, not_or] at h
    rw [vsnprintf.eq_4 args b fmt hs hlu hd, List.mem_cons, not_or]
    exact ⟨h.1, ih h.2⟩
  | case5 args => exact List.not_mem_nil

/-- What `kx_sync_send_cmd` hands to `redisCommand`. -/
theorem kxSyncSendCmd_eq {ac : Action} (h : ac ∈ acs) (args : List FmtArg) :
    ∃ text, kxSyncSendCmd true ac.type args = .ok (some text) ∧
      text.bytes = vsnprintf ac.cmdline.bytes args := by
  refine ⟨CStr.ofMem (vsnprintf ac.cmdline.bytes args), ?_,
    CStr.ofMem_bytes_of_noNul (zero_notMem_vsnprintf _ _ ac.cmdline.noNul)⟩
  rw [kxSyncSendCmd, kxSearchAction_of_mem ac h]
  rfl

theorem kxSyncSendCmd_ok {ac : Action} (hac : ac ∈ acs) {alloc : Bool} {args : List FmtArg}
    {text : Option CStr} (h : kxSyncSendCmd alloc ac.type args = .ok text) :
    alloc = true ∧ ∃ t, text = some t ∧ t.bytes = vsnprintf ac.cmdline.bytes args := by
  cases alloc with
  | false =>
    rw [kxSyncSendCmd, kxSearchAction_of_mem ac hac] at h
    cases h
  | true =>
    obtain ⟨t, hsend, ht⟩ := kxSyncSendCmd_eq hac args
    cases hsend.symm.trans h
    exact ⟨rfl, t, rfl, ht⟩

/-- **Arguments arrive verbatim** exactly if none of the strings has a percent. -/
theorem sends_verbatim_iff (alloc : Bool) (c : SentCommand) :
    c.Verbatim alloc ↔ alloc = true ∧ ∀ v, .s v ∈ c.args → percent ∉ v.bytes := by
  cases alloc with
  | false =>
    refine iff_of_false ?_ (fun h => Bool.noConfusion h.1)
    rintro ⟨text, hsend, -⟩
    rw [kxSyncSendCmd, kxSearchAction_of_mem c.ac c.mem] at hsend
    cases hsend
  | true =>
    obtain ⟨text, hsend, htext⟩ := kxSyncSendCmd_eq c.mem c.args
    have hverbatim : c.Verbatim true ↔
        redisCommand text.bytes = some (filledWords c.ac.cmdline.bytes c.args) := by
      constructor
      · rintro ⟨text', hsend', h⟩
        cases hsend.symm.trans hsend'
        exact h
      · intro h
        exact ⟨text, hsend, h⟩
    rw [hverbatim, htext, ← words_vsnprintf c.token_of_mem, redisCommand_words_iff,
      percent_mem_vsnprintf_iff _ _ c.passed, c.percent_mem_text_iff]
    simp only [true_and, not_exists, not_and]

/-- The registration of bob with the password `50%off`. -/
def percentPassword : SentCommand where
  ac := ⟨.USER_REG, .lit "HMSET node:%s:user:%s username %s password %s isonline %d"⟩
  mem := by simp [acs]
  args := [.s (.lit "m1"), .s (.lit "bob"), .s (.lit "bob"), .s (.lit "50%off"), .num 1]
  passed := ⟨[.s, .s, .s, .s, .d], by decide +kernel, by simp [Conv.Takes]⟩
  tokens := by
    intro v hv
    simp only [List.mem_cons, FmtArg.s.injEq, reduceCtorEq, List.not_mem_nil, or_false] at hv
    rcases hv with rfl | rfl | rfl | rfl <;> decide

/-- `redisCommand` looks for an argument behind the percent of the password. -/
theorem sends_percentPassword :
    ¬ percentPassword.Verbatim true ∧
      redisCommand (vsnprintf percentPassword.ac.cmdline.bytes percentPassword.args) = none := by
  have hnone : redisCommand (vsnprintf percentPassword.ac.cmdline.bytes percentPassword.args) = none := by
    decide +kernel
  refine ⟨?_, hnone⟩
  rintro ⟨text, hsend, harrive⟩
  obtain ⟨text', hsend', htext⟩ := kxSyncSendCmd_eq percentPassword.mem percentPassword.args
  cases hsend.symm.trans hsend'
  rw [htext, hnone] at harrive
  cases harrive

end Rkx
