import Mathlib.Data.List.DropRight

/-!
# A text with a cursor

* `Text`: the elements in front of the cursor and those behind it;
* the moves, which keep the elements (`toList_left` and the like), and the edits at the cursor.
-/

set_option autoImplicit false

namespace Lib.TextCursor

variable {α : Type*}

@[ext] structure Text (α : Type*) where
  before : List α
  after : List α
  deriving DecidableEq

namespace Text

def toList (t : Text α) : List α := t.before ++ t.after

def empty : Text α := ⟨[], []⟩

/-! ## Moves -/

def left (t : Text α) : Text α := ⟨t.before.dropLast, t.before.getLast?.toList ++ t.after⟩

def right (t : Text α) : Text α := ⟨t.before ++ t.after.take 1, t.after.drop 1⟩

def home (t : Text α) : Text α := ⟨[], t.toList⟩

def atEnd (t : Text α) : Text α := ⟨t.toList, []⟩

@[simp] theorem toList_left (t : Text α) : t.left.toList = t.toList := by
  rcases List.eq_nil_or_concat t.before with h | ⟨before, a, h⟩ <;> simp [toList, left, h]

@[simp] theorem toList_right (t : Text α) : t.right.toList = t.toList := by
  cases h : t.after <;> simp [toList, right, h]

@[simp] theorem toList_home (t : Text α) : t.home.toList = t.toList := rfl

@[simp] theorem toList_atEnd (t : Text α) : t.atEnd.toList = t.toList := List.append_nil _

/-! ## Edits -/

def insert (a : α) (t : Text α) : Text α := ⟨t.before ++ [a], t.after⟩

def delete (t : Text α) : Text α := ⟨t.before, t.after.tail⟩

def backspace (t : Text α) : Text α := ⟨t.before.dropLast, t.after⟩

/-- The elements around the cursor change places, and the cursor moves on unless it is at the last one. -/
def transpose (t : Text α) : Text α :=
  match t.before.getLast?, t.after with
  | some b, [a] => ⟨t.before.dropLast ++ [a], [b]⟩
  | some b, a :: after => ⟨t.before.dropLast ++ [a, b], after⟩
  | _, _ => t

/-- The spaces in front of the cursor go, and the word in front of them. -/
def deleteWord (space : α → Bool) (t : Text α) : Text α :=
  ⟨(t.before.rdropWhile space).rdropWhile (fun a => !space a), t.after⟩

def deleteToEnd (t : Text α) : Text α := ⟨t.before, []⟩

end Text

end Lib.TextCursor
