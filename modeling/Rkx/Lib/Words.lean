import Mathlib.Data.List.Basic

/-!
# Words of a list

A list is cut at its separators, the elements with `p`, into words: the runs between them that are
not empty.

* `words`: the words in order, `mem_words`, and `words_induction` over them;
* `words_flatMap`: a map that keeps separators and spells out the other elements maps the words;
* `words_intercalate`: words put behind each other with single separators.
-/

set_option autoImplicit false

namespace Lib.Words

variable {α β : Type*} {p : α → Bool} {q : β → Bool}

/-- The words of a list whose separators are the elements with `p`. -/
def words (p : α → Bool) (l : List α) : List (List α) := (l.splitOnP p).filter fun w => !w.isEmpty

@[simp] theorem words_nil : words p [] = [] := rfl

theorem ne_nil_of_mem_words {l w : List α} (h : w ∈ words p l) : w ≠ [] := by
  have hw := (List.mem_filter.1 h).2
  intro he
  rw [he] at hw
  cases hw

/-- The runs between the separators hold the other elements. -/
theorem mem_splitOnP {a : α} (l : List α) :
    (∃ w ∈ l.splitOnP p, a ∈ w) ↔ a ∈ l ∧ p a = false := by
  induction l with
  | nil => simp
  | cons b l ih =>
    rw [List.splitOnP_cons_eq_if_modifyHead]
    cases hb : p b with
    | true =>
      have hne : a = b → p a = true := by
        rintro rfl
        exact hb
      rw [if_pos rfl, List.exists_mem_cons_iff, ih, List.mem_cons]
      grind
    | false =>
      obtain ⟨w, ws, hws⟩ := List.exists_cons_of_ne_nil (List.splitOnP_ne_nil p l)
      rw [hws, List.exists_mem_cons_iff] at ih
      have heq : a = b → p a = false := by
        rintro rfl
        exact hb
      rw [hws, if_neg Bool.false_ne_true, List.modifyHead_cons, List.exists_mem_cons_iff,
        List.mem_cons, List.mem_cons, or_assoc, ih]
      grind

/-- **The words hold the elements that are no separators.** -/
theorem mem_words {a : α} (l : List α) : (∃ w ∈ words p l, a ∈ w) ↔ a ∈ l ∧ p a = false := by
  rw [← mem_splitOnP]
  constructor
  · rintro ⟨w, hw, ha⟩
    exact ⟨w, (List.mem_filter.1 hw).1, ha⟩
  · rintro ⟨w, hw, ha⟩
    refine ⟨w, List.mem_filter.2 ⟨hw, ?_⟩, ha⟩
    cases w with
    | nil => cases ha
    | cons b w => rfl

/-- A run without separators goes in front of the first of the runs behind it. -/
theorem splitOnP_append {w : List α} (hw : ∀ a ∈ w, p a = false) (l : List α) :
    (w ++ l).splitOnP p = (l.splitOnP p).modifyHead (w ++ ·) := by
  induction w with
  | nil =>
    obtain ⟨v, vs, h⟩ := List.exists_cons_of_ne_nil (List.splitOnP_ne_nil p l)
    rw [List.nil_append, h]
    rfl
  | cons b w ih =>
    have hb : ¬ p b = true := by
      rw [hw b List.mem_cons_self]
      exact Bool.false_ne_true
    obtain ⟨v, vs, h⟩ := List.exists_cons_of_ne_nil (List.splitOnP_ne_nil p l)
    rw [List.cons_append, List.splitOnP_cons_eq_if_modifyHead, if_neg hb,
      ih (fun a ha => hw a (List.mem_cons_of_mem _ ha)), h]
    rfl

/-- **A separator** ends the words before it. -/
theorem words_append_cons {s : α} (hs : p s = true) (u v : List α) :
    words p (u ++ s :: v) = words p u ++ words p v := by
  rw [words, List.splitOnP_append_cons u v hs, List.filter_append]
  rfl

/-- A separator in front changes nothing. -/
theorem words_cons_of_pos {s : α} (hs : p s = true) (l : List α) : words p (s :: l) = words p l :=
  words_append_cons hs [] l

theorem words_eq_singleton {w : List α} (hw : ∀ a ∈ w, p a = false) (hne : w ≠ []) : words p w = [w] := by
  rw [words, List.splitOnP_eq_singleton hw]
  cases w with
  | nil => exact absurd rfl hne
  | cons a w => rfl

theorem words_dropWhile (l : List α) : words p (l.dropWhile p) = words p l := by
  induction l with
  | nil => rfl
  | cons a l ih =>
    by_cases ha : p a = true
    · rw [List.dropWhile_cons_of_pos ha, ih, words_cons_of_pos ha]
    · rw [List.dropWhile_cons_of_neg ha]

/-- **A run without separators**, up to the end or the next separator, is the first word. -/
theorem words_run_append {w l : List α} (hw : ∀ a ∈ w, p a = false) (hne : w ≠ [])
    (hl : ∀ a ∈ l.head?, p a = true) : words p (w ++ l) = w :: words p l := by
  cases l with
  | nil => rw [List.append_nil, words_eq_singleton hw hne]; rfl
  | cons s l =>
    have hs := hl s rfl
    rw [words_append_cons hs, words_eq_singleton hw hne, words_cons_of_pos hs, List.singleton_append]

/-- Separators behind change nothing. -/
theorem words_append_of_pos {v : List α} (hv : ∀ a ∈ v, p a = true) (u : List α) : words p (u ++ v) = words p u := by
  induction v generalizing u with
  | nil => rw [List.append_nil]
  | cons s v ih =>
    rw [words_append_cons (hv s List.mem_cons_self), ← List.nil_append v,
      ih (fun a ha => hv a (List.mem_cons_of_mem _ ha)), words_nil, List.append_nil]

/-- **A run without separators** at the end, up to the start or the separator before it, is the last word. -/
theorem words_append_run {u w : List α} (hu : ∀ a ∈ u.getLast?, p a = true) (hw : ∀ a ∈ w, p a = false)
    (hne : w ≠ []) : words p (u ++ w) = words p u ++ [w] := by
  rcases List.eq_nil_or_concat u with rfl | ⟨before, s, rfl⟩
  · rw [List.nil_append, words_eq_singleton hw hne]
    rfl
  · have hs : p s = true := hu s (by simp)
    rw [List.concat_eq_append, List.append_assoc, List.singleton_append, words_append_cons hs,
      words_append_cons hs, words_eq_singleton hw hne, words_nil, List.append_nil]

/-- The word in front of a list that begins with one, and what follows it. -/
theorem exists_run_append {a : α} (ha : p a = false) (l : List α) :
    ∃ w r, a :: l = w ++ r ∧ w ≠ [] ∧ (∀ b ∈ w, p b = false) ∧ ∀ b ∈ r.head?, p b = true := by
  induction l generalizing a with
  | nil => exact ⟨[a], [], rfl, List.cons_ne_nil _ _, by simpa using ha, by simp⟩
  | cons b l ih =>
    cases hb : p b with
    | true => exact ⟨[a], b :: l, rfl, List.cons_ne_nil _ _, by simpa using ha, by simpa using hb⟩
    | false =>
      obtain ⟨w, r, heq, -, hw, hr⟩ := ih hb
      refine ⟨a :: w, r, by rw [heq]; rfl, List.cons_ne_nil _ _, ?_, hr⟩
      simpa using ⟨ha, hw⟩

/-- **Induction over a list** as it is cut into words: nothing is left, or a separator comes next, or a word
    up to the next separator. -/
@[elab_as_elim] theorem words_induction {P : List α → Prop} (nil : P [])
    (sep : ∀ s l, p s = true → P l → P (s :: l))
    (run : ∀ w r, w ≠ [] → (∀ a ∈ w, p a = false) → (∀ a ∈ r.head?, p a = true) → P r → P (w ++ r))
    (l : List α) : P l := by
  induction hn : l.length using Nat.strongRecOn generalizing l with
  | ind n ih =>
    subst hn
    cases l with
    | nil => exact nil
    | cons a l =>
      cases ha : p a with
      | true => exact sep a l ha (ih l.length (Nat.lt_succ_self _) l rfl)
      | false =>
        obtain ⟨w, r, heq, hne, hw, hr⟩ := exists_run_append ha l
        have hlt : r.length < (a :: l).length := by
          have hpos := List.length_pos_iff.2 hne
          rw [heq, List.length_append]
          omega
        rw [heq]
        exact run w r hne hw hr (ih r.length hlt r rfl)

theorem length_words_le (l : List α) : (words p l).length ≤ l.length := by
  induction l using words_induction (p := p) with
  | nil => exact Nat.le_refl 0
  | sep s l hs ih =>
    rw [words_cons_of_pos hs]
    exact Nat.le_succ_of_le ih
  | run w r hne hw hr ih =>
    have hpos := List.length_pos_iff.2 hne
    rw [words_run_append hw hne hr, List.length_cons, List.length_append]
    omega

/-- **A word** is a part of the list. -/
theorem infix_of_mem_words {w l : List α} (h : w ∈ words p l) : w <:+: l := by
  induction l using words_induction (p := p) with
  | nil => cases h
  | sep s l hs ih =>
    rw [words_cons_of_pos hs] at h
    exact (ih h).trans (List.suffix_cons s l).isInfix
  | run v r hne hv hr ih =>
    rw [words_run_append hv hne hr, List.mem_cons] at h
    rcases h with rfl | h
    · exact (List.prefix_append w r).isInfix
    · exact (ih h).trans (List.suffix_append v r).isInfix

/-- `f` spells each separator of the list as a separator and each other element as a word. -/
structure Spells (p : α → Bool) (q : β → Bool) (f : α → List β) (l : List α) : Prop where
  sep : ∀ a ∈ l, p a = true → ∃ b, f a = [b] ∧ q b = true
  ne_nil : ∀ a ∈ l, p a = false → f a ≠ []
  word : ∀ a ∈ l, p a = false → ∀ b ∈ f a, q b = false

theorem Spells.tail {f : α → List β} {a : α} {l : List α} (h : Spells p q f (a :: l)) :
    Spells p q f l where
  sep b hb := h.sep b (List.mem_cons_of_mem _ hb)
  ne_nil b hb := h.ne_nil b (List.mem_cons_of_mem _ hb)
  word b hb := h.word b (List.mem_cons_of_mem _ hb)

theorem splitOnP_flatMap {f : α → List β} {l : List α} (hf : Spells p q f l) :
    (l.flatMap f).splitOnP q = (l.splitOnP p).map (List.flatMap f) := by
  induction l with
  | nil => rfl
  | cons a l ih =>
    rw [List.flatMap_cons, List.splitOnP_cons_eq_if_modifyHead]
    cases ha : p a with
    | true =>
      obtain ⟨b, hb, hq⟩ := hf.sep a List.mem_cons_self ha
      rw [hb, List.singleton_append, List.splitOnP_cons_eq_if_modifyHead, if_pos hq, if_pos rfl,
        ih hf.tail]
      rfl
    | false =>
      obtain ⟨v, vs, h⟩ := List.exists_cons_of_ne_nil (List.splitOnP_ne_nil p l)
      rw [splitOnP_append (hf.word a List.mem_cons_self ha), ih hf.tail, h, if_neg Bool.false_ne_true]
      rfl

/-- **The words of the spelled list** are the words of the list, spelled. -/
theorem words_flatMap {f : α → List β} {l : List α} (hf : Spells p q f l) :
    words q (l.flatMap f) = (words p l).map (List.flatMap f) := by
  unfold words
  rw [splitOnP_flatMap hf, List.filter_map]
  congr 1
  apply List.filter_congr
  intro w hw
  cases w with
  | nil => rfl
  | cons a w =>
    obtain ⟨hal, ha⟩ := (mem_splitOnP l).1 ⟨a :: w, hw, List.mem_cons_self⟩
    have hne : (a :: w).flatMap f ≠ [] := by
      rw [List.flatMap_cons]
      exact List.append_ne_nil_of_left_ne_nil (hf.ne_nil a hal ha) _
    simpa using hne

/-- **Words put behind each other** with single separators. -/
theorem words_intercalate [DecidableEq α] {s : α} {ws : List (List α)}
    (hws : ∀ w ∈ ws, w ≠ [] ∧ s ∉ w) : words (· == s) (List.intercalate [s] ws) = ws := by
  cases ws with
  | nil => rfl
  | cons w ws =>
    unfold words
    have hsplit := List.splitOn_intercalate s (fun v hv => (hws v hv).2) (List.cons_ne_nil w ws)
    rw [List.splitOn_eq_splitOnP] at hsplit
    rw [hsplit, List.filter_eq_self]
    intro v hv
    simpa using (hws v hv).1

/-- Words with a separator behind each are words with separators between them and one behind the last. -/
theorem flatMap_append_singleton {s : α} {ws : List (List α)} (h : ws ≠ []) :
    ws.flatMap (· ++ [s]) = List.intercalate [s] ws ++ [s] := by
  induction ws with
  | nil => exact absurd rfl h
  | cons w ws ih =>
    cases ws with
    | nil => simp [List.intercalate]
    | cons v ws =>
      rw [List.flatMap_cons, ih (List.cons_ne_nil v ws), List.intercalate_cons_cons]
      simp only [List.append_assoc]

end Lib.Words
