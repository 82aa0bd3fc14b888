import Mathlib.Data.List.Forall2
import Rkx.Lib.Words
import Rkx.Net

/-!
# `redisCommand` and the server

`kx_command` hands its finished text to `redisCommand` as a format, without arguments.  A format is
split into words at spaces, `%%` in it is a literal percent and any other `%` looks for an argument.

* `redisCommand`: the words that the server receives;
* `redisCommand_words_iff`: the words of the text itself, exactly if it has no percent;
* `redisCommand_joined_iff`: the words that were put together to the text, exactly if none of them is
  empty or has a space or a percent;
* `RedisDb`, `serverExec`: the hashes of the server, and `HMSET`.
-/

set_option autoImplicit false

namespace Rkx

open Lib.CString Lib.Words

def space : UInt8 := 32

def percent : UInt8 := 37

/-- A word of a format: `none` when a conversion looks for an argument. -/
def unescape : List UInt8 → Option (List UInt8)
  | [] => some []
  | b :: rest =>
    if b = percent then
      match rest with
      | c :: rest => if c = percent then (unescape rest).map (percent :: ·) else none
      | [] => none
    else (unescape rest).map (b :: ·)

/-- `redisCommand(c, fmt)`: the words that are sent, `none` when an argument is looked for that was
    not passed. -/
def redisCommand (fmt : List UInt8) : Option (List (List UInt8)) :=
  (words (· == space) fmt).mapM unescape

/-! ## Formats without conversions -/

theorem unescape_cons {b : UInt8} (hb : b ≠ percent) (w : List UInt8) :
    unescape (b :: w) = (unescape w).map (b :: ·) := by
  rw [unescape.eq_def]
  exact if_neg hb

/-- **What is left of a word**: no other bytes, and fewer of them unless it had no percent. -/
theorem unescape_spec {w v : List UInt8} (h : unescape w = some v) :
    v ⊆ w ∧ (w ≠ [] → v ≠ []) ∧ v.length ≤ w.length ∧
      (v.length = w.length → v = w ∧ percent ∉ w) := by
  induction w using unescape.induct generalizing v with
  | case1 =>
    cases h
    simp
  | case2 rest ih =>
    simp only [unescape, if_true] at h
    obtain ⟨u, hu, rfl⟩ := Option.map_eq_some_iff.1 h
    obtain ⟨hsub, -, hle, -⟩ := ih hu
    refine ⟨?_, by simp, by simp only [List.length_cons]; omega, ?_⟩
    · exact List.cons_subset.2 ⟨List.mem_cons_self, fun b hb =>
        List.mem_cons_of_mem _ (List.mem_cons_of_mem _ (hsub hb))⟩
    · intro hlen
      simp only [List.length_cons] at hlen
      omega
  | case3 c rest hc =>
    simp [unescape, hc] at h
  | case4 =>
    simp [unescape] at h
  | case5 b rest hb ih =>
    rw [unescape_cons hb] at h
    obtain ⟨u, hu, rfl⟩ := Option.map_eq_some_iff.1 h
    obtain ⟨hsub, -, hle, heq⟩ := ih hu
    refine ⟨?_, by simp, by simp only [List.length_cons]; omega, ?_⟩
    · exact List.cons_subset.2 ⟨List.mem_cons_self, fun a ha => List.mem_cons_of_mem _ (hsub ha)⟩
    · intro hlen
      simp only [List.length_cons, Nat.add_right_cancel_iff] at hlen
      obtain ⟨rfl, hmem⟩ := heq hlen
      refine ⟨rfl, ?_⟩
      rw [List.mem_cons, not_or]
      exact ⟨Ne.symm hb, hmem⟩

/-- A word is kept exactly if it has no percent. -/
theorem unescape_eq_self_iff (w : List UInt8) : unescape w = some w ↔ percent ∉ w := by
  constructor
  · intro h
    exact ((unescape_spec h).2.2.2 rfl).2
  · intro h
    induction w with
    | nil => rfl
    | cons b w ih =>
      rw [List.mem_cons, not_or] at h
      rw [unescape_cons (Ne.symm h.1), ih h.2]
      rfl

theorem mapM_eq_some_iff {α β : Type} {f : α → Option β} {l : List α} {l' : List β} :
    l.mapM f = some l' ↔ List.Forall₂ (fun a b => f a = some b) l l' := by
  induction l generalizing l' with
  | nil =>
    rw [List.forall₂_nil_left_iff, List.mapM_nil]
    exact ⟨fun h => (Option.some.inj h).symm, fun h => by rw [h]; rfl⟩
  | cons a l ih =>
    rw [List.mapM_cons, List.forall₂_cons_left_iff]
    simp only [← ih, Option.bind_eq_bind, Option.bind_eq_some_iff, Option.pure_def,
      Option.some.injEq]
    constructor
    · rintro ⟨b, hb, u, hu, rfl⟩
      exact ⟨b, u, hb, hu, rfl⟩
    · rintro ⟨b, u, hb, hu, rfl⟩
      exact ⟨b, hb, u, hu, rfl⟩

/-- Every result of a pass over a list comes from one of its elements. -/
theorem exists_of_forall₂ {α β : Type} {r : α → β → Prop} {l : List α} {l' : List β}
    (h : List.Forall₂ r l l') {b : β} (hb : b ∈ l') : ∃ a ∈ l, r a b := by
  induction h with
  | nil => cases hb
  | cons hab _ ih =>
    rcases List.mem_cons.1 hb with rfl | hb
    · exact ⟨_, List.mem_cons_self, hab⟩
    · obtain ⟨a, ha, hr⟩ := ih hb
      exact ⟨a, List.mem_cons_of_mem _ ha, hr⟩

theorem mapM_unescape_self_iff (ws : List (List UInt8)) :
    ws.mapM unescape = some ws ↔ ∀ w ∈ ws, percent ∉ w := by
  rw [mapM_eq_some_iff, List.forall₂_same]
  simp only [unescape_eq_self_iff]

/-- **The text's own words arrive** exactly if it has no percent. -/
theorem redisCommand_words_iff (fmt : List UInt8) :
    redisCommand fmt = some (words (· == space) fmt) ↔ percent ∉ fmt := by
  rw [redisCommand, mapM_unescape_self_iff]
  have hmem := mem_words (p := (· == space)) (a := percent) fmt
  constructor
  · intro h hp
    obtain ⟨w, hw, hpw⟩ := hmem.2 ⟨hp, rfl⟩
    exact h w hw hpw
  · intro h w hw hpw
    exact h (hmem.1 ⟨w, hw, hpw⟩).1

/-- Words put together to a text, with single spaces. -/
def joined (ws : List (List UInt8)) : List UInt8 := List.intercalate [space] ws

/-- What arrives of any text is words without spaces. -/
theorem token_of_redisCommand {fmt : List UInt8} {ws : List (List UInt8)}
    (h : redisCommand fmt = some ws) {v : List UInt8} (hv : v ∈ ws) : v ≠ [] ∧ space ∉ v := by
  obtain ⟨w, hw, hwv⟩ := exists_of_forall₂ (mapM_eq_some_iff.1 h) hv
  obtain ⟨hsub, hne, -⟩ := unescape_spec hwv
  refine ⟨hne (ne_nil_of_mem_words hw), ?_⟩
  intro hspace
  have hsep := ((mem_words fmt).1 ⟨w, hw, hsub hspace⟩).2
  exact absurd hsep (by decide)

/-- **The words put together arrive** exactly if each is a word without a percent. -/
theorem redisCommand_joined_iff (ws : List (List UInt8)) :
    redisCommand (joined ws) = some ws ↔ ∀ w ∈ ws, w ≠ [] ∧ space ∉ w ∧ percent ∉ w := by
  constructor
  · intro h w hw
    have htokens : ∀ v ∈ ws, v ≠ [] ∧ space ∉ v := fun v hv => token_of_redisCommand h hv
    rw [redisCommand, joined, words_intercalate htokens, mapM_unescape_self_iff] at h
    exact ⟨(htokens w hw).1, (htokens w hw).2, h w hw⟩
  · intro h
    rw [redisCommand, joined, words_intercalate (fun w hw => ⟨(h w hw).1, (h w hw).2.1⟩),
      mapM_unescape_self_iff]
    exact fun w hw => (h w hw).2.2

/-! ## Plain words -/

/-- Words that `redisCommand` takes as they are. -/
def Plain (w : List UInt8) : Prop := w ≠ [] ∧ space ∉ w ∧ percent ∉ w

theorem unescape_of_plain {w : List UInt8} (h : Plain w) : unescape w = some w :=
  (unescape_eq_self_iff w).2 h.2.2

theorem plain_decimal (n : Nat) : Plain (decimal n).bytes := by
  refine ⟨decimal_ne_nil n, ?_, ?_⟩
  · intro h
    exact absurd (digit_of_mem_toDigits h).1 (by decide)
  · intro h
    exact absurd (digit_of_mem_toDigits h).1 (by decide)

theorem Plain.append {v w : List UInt8} (hv : Plain v) (hw : Plain w) : Plain (v ++ w) := by
  refine ⟨List.append_ne_nil_of_left_ne_nil hv.1 w, ?_, ?_⟩
  · rw [List.mem_append, not_or]
    exact ⟨hv.2.1, hw.2.1⟩
  · rw [List.mem_append, not_or]
    exact ⟨hv.2.2, hw.2.2⟩

instance (w : List UInt8) : Decidable (Plain w) := inferInstanceAs (Decidable (_ ∧ _ ∧ _))

/-! ## The server -/

/-- The hashes of the server: the value of a field of the hash at a key. -/
abbrev RedisDb := List UInt8 → List UInt8 → Option (List UInt8)

/-- A hash after fields have been set, given as names and values in turn. -/
def setFields (hash : List UInt8 → Option (List UInt8)) :
    List (List UInt8) → List UInt8 → Option (List UInt8)
  | field :: value :: rest => setFields (Function.update hash field (some value)) rest
  | _ => hash

/-- The hashes after a command: `HMSET` of a key and pairs sets the fields of the hash at the key,
    anything else leaves them alone. -/
def serverExec (db : RedisDb) : List (List UInt8) → RedisDb
  | cmd :: key :: field :: value :: rest =>
    if cmd = (CStr.lit "HMSET").bytes ∧ rest.length % 2 = 0 then
      Function.update db key (setFields (db key) (field :: value :: rest))
    else db
  | _ => db

/-- The hashes after a text has been handed to `redisCommand`; `stray` is what arrives when it looks
    for an argument. -/
def serverReceive (stray : List UInt8 → List (List UInt8)) (db : RedisDb) (text : List UInt8) :
    RedisDb :=
  serverExec db ((redisCommand text).getD (stray text))

theorem serverReceive_some {stray : List UInt8 → List (List UInt8)} {db : RedisDb} {text : List UInt8}
    {ws : List (List UInt8)} (h : redisCommand text = some ws) :
    serverReceive stray db text = serverExec db ws := by
  rw [serverReceive, h, Option.getD_some]

/-- A value of a hash after fields have been set was there before or is one of those given. -/
theorem setFields_values {hash : List UInt8 → Option (List UInt8)} {pairs : List (List UInt8)}
    {field value : List UInt8} (h : setFields hash pairs field = some value) :
    hash field = some value ∨ value ∈ pairs := by
  induction hash, pairs using setFields.induct with
  | case1 hash f v rest ih =>
    rw [setFields] at h
    rcases ih h with hold | hnew
    · by_cases hf : field = f
      · rw [hf, Function.update_self] at hold
        cases hold
        exact Or.inr (List.mem_cons_of_mem _ List.mem_cons_self)
      · rw [Function.update_of_ne hf] at hold
        exact Or.inl hold
    · exact Or.inr (List.mem_cons_of_mem _ (List.mem_cons_of_mem _ hnew))
  | case2 hash pairs hpairs =>
    rw [setFields] at h
    · exact Or.inl h
    · exact hpairs

/-- A value of the server after a command was there before or is, with its key, a word of the command. -/
theorem serverExec_values {db : RedisDb} {ws : List (List UInt8)} {key field value : List UInt8}
    (h : serverExec db ws key field = some value) :
    db key field = some value ∨ key ∈ ws ∧ value ∈ ws := by
  unfold serverExec at h
  split at h
  · rename_i cmd k f v rest
    split at h
    · by_cases hk : key = k
      · rw [hk, Function.update_self] at h
        rcases setFields_values h with hold | hnew
        · rw [← hk] at hold
          exact Or.inl hold
        · exact Or.inr ⟨by simp [hk], List.mem_cons_of_mem _ (List.mem_cons_of_mem _ hnew)⟩
      · rw [Function.update_of_ne hk] at h
        exact Or.inl h
    · exact Or.inl h
  · exact Or.inl h

/-- All values of the server are words without spaces. -/
def Tokens (db : RedisDb) : Prop := ∀ key field value, db key field = some value → value ≠ [] ∧ space ∉ value

theorem tokens_serverExec {db : RedisDb} (hdb : Tokens db) {ws : List (List UInt8)}
    (hws : ∀ w ∈ ws, w ≠ [] ∧ space ∉ w) : Tokens (serverExec db ws) := by
  intro key field value hvalue
  rcases serverExec_values hvalue with hold | ⟨-, hnew⟩
  · exact hdb _ _ _ hold
  · exact hws value hnew

/-- Nothing arrives of a text with conversions. -/
def lost : List UInt8 → List (List UInt8) := fun _ => []

end Rkx
