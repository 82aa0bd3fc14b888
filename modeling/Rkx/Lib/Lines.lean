import Mathlib.Data.List.Basic

/-!
# Files read line by line

* `takeLine`, `fgets`: the bytes up to a newline, that one included, and no more than fit in the buffer;
* `pieces`: what repeated calls yield (`pieces_fgets`), `of_mem_pieces`;
* `pieces_line`, `pieces_full`: a line that fits and one that does not.
-/

set_option autoImplicit false

namespace Lib.Lines

/-- The newline. -/
def LF : UInt8 := 10

/-- The bytes that a call takes, `n` at most. -/
def takeLine : Nat → List UInt8 → List UInt8
  | 0, _ => []
  | _ + 1, [] => []
  | n + 1, b :: s => if b = LF then [b] else b :: takeLine n s

/-- `fgets(buf, size, fp)`: the bytes stored in front of the NUL, and the rest of the file. -/
def fgets (size : Nat) (fp : List UInt8) : Option (List UInt8 × List UInt8) :=
  if fp = [] then none
  else
    let line := takeLine (size - 1) fp
    some (line, fp.drop line.length)

theorem length_takeLine_pos (n : Nat) (b : UInt8) (s : List UInt8) : 0 < (takeLine (n + 1) (b :: s)).length := by
  unfold takeLine
  split <;> simp

/-- What repeated calls of `fgets` with a buffer of `n + 2` bytes yield. -/
def pieces (n : Nat) (s : List UInt8) : List (List UInt8) :=
  match s with
  | [] => []
  | b :: s => takeLine (n + 1) (b :: s) :: pieces n ((b :: s).drop (takeLine (n + 1) (b :: s)).length)
termination_by s.length
decreasing_by
  have hpos := length_takeLine_pos n b s
  rw [List.length_drop, List.length_cons]
  omega

theorem pieces_fgets (n : Nat) (s : List UInt8) :
    pieces n s =
      match fgets (n + 2) s with
      | none => []
      | some (line, rest) => line :: pieces n rest := by
  cases s with
  | nil => rw [pieces]; rfl
  | cons b s => rw [pieces]; rfl

theorem pieces_of_ne_nil {s : List UInt8} (h : s ≠ []) (n : Nat) :
    pieces n s = takeLine (n + 1) s :: pieces n (s.drop (takeLine (n + 1) s).length) := by
  rw [pieces_fgets, fgets, if_neg h]
  rfl

/-- A line that fits is one piece. -/
theorem pieces_line {n : Nat} {w : List UInt8} (hw : LF ∉ w) (hlen : w.length ≤ n) (rest : List UInt8) :
    pieces n (w ++ LF :: rest) = (w ++ [LF]) :: pieces n rest := by
  have htake : ∀ (k : Nat) (v : List UInt8), LF ∉ v → v.length < k → takeLine k (v ++ LF :: rest) = v ++ [LF] := by
    intro k v
    induction v generalizing k with
    | nil =>
      intro _ hk
      obtain ⟨k, rfl⟩ : ∃ j, k = j + 1 := ⟨k - 1, by simp at hk; omega⟩
      simp [takeLine]
    | cons b v ih =>
      intro hv hk
      obtain ⟨k, rfl⟩ : ∃ j, k = j + 1 := ⟨k - 1, by simp at hk; omega⟩
      obtain ⟨hb, hv⟩ := not_or.1 (mt List.mem_cons.2 hv)
      rw [List.cons_append, takeLine, if_neg (Ne.symm hb), ih k hv (by simpa using hk)]
      rfl
  have hline := htake (n + 1) w hw (by omega)
  have hne : w ++ LF :: rest ≠ [] := by simp
  have hcut : w ++ LF :: rest = w ++ [LF] ++ rest := by simp
  rw [pieces_of_ne_nil hne, hline, hcut, List.drop_left]

/-- A line that does not fit fills the buffer first. -/
theorem pieces_full {n : Nat} {w : List UInt8} (hw : LF ∉ w) (hlen : w.length = n + 1) (rest : List UInt8) :
    pieces n (w ++ rest) = w :: pieces n rest := by
  have htake : ∀ v : List UInt8, LF ∉ v → takeLine v.length (v ++ rest) = v := by
    intro v
    induction v with
    | nil => intro _; rfl
    | cons b v ih =>
      intro hv
      obtain ⟨hb, hv⟩ := not_or.1 (mt List.mem_cons.2 hv)
      rw [List.cons_append, List.length_cons, takeLine, if_neg (Ne.symm hb), ih hv]
  have hline := htake w hw
  rw [hlen] at hline
  have hne : w ++ rest ≠ [] := List.append_ne_nil_of_left_ne_nil (List.ne_nil_of_length_pos (by omega)) rest
  rw [pieces_of_ne_nil hne, hline, List.drop_left]

/-- A piece fits in the buffer, and a newline only ends it. -/
theorem of_mem_pieces {n : Nat} {s p : List UInt8} (h : p ∈ pieces n s) : p.length ≤ n + 1 ∧ LF ∉ p.dropLast := by
  have htake : ∀ (k : Nat) (v : List UInt8), (takeLine k v).length ≤ k ∧ LF ∉ (takeLine k v).dropLast := by
    intro k
    induction k with
    | zero => intro v; simp [takeLine]
    | succ k ih =>
      intro v
      cases v with
      | nil => simp [takeLine]
      | cons b v =>
        unfold takeLine
        split
        · simp
        · rename_i hb
          obtain ⟨hlen, hmem⟩ := ih v
          refine ⟨by simpa using hlen, ?_⟩
          cases hline : takeLine k v with
          | nil => simp
          | cons c w =>
            rw [hline] at hmem
            rw [List.dropLast_cons_cons, List.mem_cons, not_or]
            exact ⟨Ne.symm hb, hmem⟩
  induction s using pieces.induct n with
  | case1 => rw [pieces] at h; cases h
  | case2 b s ih =>
    rw [pieces] at h
    rcases List.mem_cons.1 h with rfl | h
    · exact htake _ _
    · exact ih h

end Lib.Lines
