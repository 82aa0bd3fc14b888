import Mathlib.Data.List.Basic

/-!
# A row of a terminal

* `feed`, `feedAll`: what bytes do to the row that the cursor is in; bytes that leave the row have no result;
* `feedAll_printable`, `feedAll_escape`: a text, and an escape sequence with a number.
-/

set_option autoImplicit false

namespace Lib.Terminal

/-- What the last bytes have begun: nothing, `ESC`, or `ESC [` and a number. -/
inductive Mode where
  | ground
  | escape
  | bracket (n : Nat)
  deriving DecidableEq

/-- The cells of the row, and the cursor, which is behind them once the last one has been written. -/
structure Row where
  cells : List UInt8
  cursor : Nat
  mode : Mode
  deriving DecidableEq

def blank : UInt8 := 32

def isPrintable (b : UInt8) : Bool := 32 ≤ b && b ≤ 126

/-- The first cell that is erased; `on` tells whether a cursor behind the cells is taken to be on the last one. -/
def eraseFrom (on : Bool) (cells : List UInt8) (cursor : Nat) : Nat :=
  if on && cursor == cells.length then cursor - 1 else cursor

/-- The end of an escape sequence with a number. -/
def command (on : Bool) (cells : List UInt8) (cursor n : Nat) (b : UInt8) : Option Row :=
  match b.toNat with
  | 67 => some ⟨cells, min (cursor + max n 1) (cells.length - 1), .ground⟩
  | 72 => some ⟨cells, 0, .ground⟩
  | 74 => if n = 2 then some ⟨List.replicate cells.length blank, cursor, .ground⟩ else none
  | 75 =>
    if n = 0 then
      let first := eraseFrom on cells cursor
      some ⟨cells.take first ++ List.replicate (cells.length - first) blank, cursor, .ground⟩
    else none
  | _ => none

/-- One byte. -/
def feed (on : Bool) (r : Row) (b : UInt8) : Option Row :=
  match r.mode with
  | .ground =>
    if b = 13 then some ⟨r.cells, 0, .ground⟩
    else if b = 27 then some ⟨r.cells, r.cursor, .escape⟩
    else if isPrintable b && r.cursor < r.cells.length then some ⟨r.cells.set r.cursor b, r.cursor + 1, .ground⟩
    else none
  | .escape => if b = 91 then some ⟨r.cells, r.cursor, .bracket 0⟩ else none
  | .bracket n =>
    if 48 ≤ b ∧ b ≤ 57 then some ⟨r.cells, r.cursor, .bracket (10 * n + (b.toNat - 48))⟩
    else command on r.cells r.cursor n b

def feedAll (on : Bool) (r : Row) : List UInt8 → Option Row
  | [] => some r
  | b :: bytes => do feedAll on (← feed on r b) bytes

variable {on : Bool} {r r' : Row}

theorem feedAll_cons {b : UInt8} {bytes : List UInt8} (h : feed on r b = some r') :
    feedAll on r (b :: bytes) = feedAll on r' bytes := by
  rw [feedAll, h]
  rfl

theorem feedAll_append {xs ys : List UInt8} (h : feedAll on r xs = some r') :
    feedAll on r (xs ++ ys) = feedAll on r' ys := by
  induction xs generalizing r with
  | nil =>
    cases h
    rfl
  | cons b xs ih =>
    rw [List.cons_append]
    cases hb : feed on r b with
    | none =>
      rw [feedAll, hb] at h
      cases h
    | some r₁ =>
      rw [feedAll_cons hb] at h ⊢
      exact ih h

/-- **A text** takes the cells behind the cursor. -/
theorem feedAll_printable {p q rest xs : List UInt8} (hxs : ∀ b ∈ xs, isPrintable b = true) (hq : q.length = xs.length) :
    feedAll on ⟨p ++ (q ++ rest), p.length, .ground⟩ xs = some ⟨p ++ (xs ++ rest), p.length + xs.length, .ground⟩ := by
  induction xs generalizing p q with
  | nil =>
    obtain rfl := List.eq_nil_of_length_eq_zero hq
    rfl
  | cons b xs ih =>
    obtain ⟨c, q, rfl⟩ := List.exists_cons_of_length_eq_add_one hq
    have hb := hxs b List.mem_cons_self
    have hcr : b ≠ 13 := by
      rintro rfl
      cases hb
    have hesc : b ≠ 27 := by
      rintro rfl
      cases hb
    have hfeed : feed on ⟨p ++ (c :: q ++ rest), p.length, .ground⟩ b =
        some ⟨(p ++ [b]) ++ (q ++ rest), (p ++ [b]).length, .ground⟩ := by
      simp [feed, hcr, hesc, hb]
    rw [feedAll_cons hfeed, ih (fun c hc => hxs c (List.mem_cons_of_mem _ hc)) (Nat.succ.inj hq)]
    simp [Nat.add_assoc, Nat.add_comm xs.length]

/-- The number that digits write. -/
def number (digits : List UInt8) (n : Nat) : Nat := digits.foldl (fun n b => 10 * n + (b.toNat - 48)) n

theorem feedAll_digits {n : Nat} {digits : List UInt8} (hdigits : ∀ b ∈ digits, 48 ≤ b.toNat ∧ b.toNat ≤ 57)
    {cells : List UInt8} {cursor : Nat} :
    feedAll on ⟨cells, cursor, .bracket n⟩ digits = some ⟨cells, cursor, .bracket (number digits n)⟩ := by
  induction digits generalizing n with
  | nil => rfl
  | cons b digits ih =>
    obtain ⟨hlo, hhi⟩ := hdigits b List.mem_cons_self
    have hfeed : feed on ⟨cells, cursor, .bracket n⟩ b = some ⟨cells, cursor, .bracket (10 * n + (b.toNat - 48))⟩ :=
      if_pos ⟨UInt8.le_iff_toNat_le.2 hlo, UInt8.le_iff_toNat_le.2 hhi⟩
    rw [feedAll_cons hfeed, ih fun c hc => hdigits c (List.mem_cons_of_mem _ hc)]
    rfl

/-- **An escape sequence.** -/
theorem feedAll_escape {cells digits : List UInt8} {cursor : Nat} {b : UInt8}
    (hdigits : ∀ b ∈ digits, 48 ≤ b.toNat ∧ b.toNat ≤ 57) (hb : 57 < b.toNat)
    (h : command on cells cursor (number digits 0) b = some r') :
    feedAll on ⟨cells, cursor, .ground⟩ (27 :: 91 :: (digits ++ [b])) = some r' := by
  have hesc : feed on ⟨cells, cursor, .ground⟩ 27 = some ⟨cells, cursor, .escape⟩ := rfl
  have hopen : feed on ⟨cells, cursor, .escape⟩ 91 = some ⟨cells, cursor, .bracket 0⟩ := rfl
  have hfeed : feed on ⟨cells, cursor, .bracket (number digits 0)⟩ b = some r' := by
    refine (if_neg ?_).trans h
    rintro ⟨-, hle⟩
    exact absurd (UInt8.le_iff_toNat_le.1 hle) (Nat.not_le.2 hb)
  rw [feedAll_cons hesc, feedAll_cons hopen, feedAll_append (feedAll_digits hdigits), feedAll_cons hfeed]
  rfl

end Lib.Terminal
