import Mathlib.Data.List.Nodup
import Mathlib.Logic.Function.Basic

/-!
# Doubly linked cells

* `Heap`: the object at each address, `modify?`, `free?`;
* `Seg`: cells that are linked both ways, between two addresses that are not theirs;
* `seg_append`: two segments in a row, `Seg.congr`: what a segment does not depend on;
* `Seg.setNext`, `Seg.setPrev`: the two ends linked to other addresses.
-/

set_option autoImplicit false

namespace Lib.Linked

open Function

/-! ## Heaps -/

variable {A β : Type*}

/-- The object at each address, if there is one. -/
abbrev Heap (A β : Type*) := A → Option β

/-! ## Segments -/

structure Cell (A β : Type*) where
  prev : A
  next : A
  value : β

/-- The address of the first cell, or the one behind. -/
def first : List (A × β) → A → A
  | [], n => n
  | (a, _) :: _, _ => a

/-- The address of the last cell, or the one in front. -/
def last : A → List (A × β) → A
  | p, [] => p
  | _, (a, _) :: l => last a l

def addrs (l : List (A × β)) : List A := l.map Prod.fst

@[simp] theorem first_nil (n : A) : first ([] : List (A × β)) n = n := rfl

@[simp] theorem first_cons (a : A) (v : β) (l : List (A × β)) (n : A) : first ((a, v) :: l) n = a := rfl

@[simp] theorem last_nil (p : A) : last p ([] : List (A × β)) = p := rfl

@[simp] theorem last_cons (p a : A) (v : β) (l : List (A × β)) : last p ((a, v) :: l) = last a l := rfl

@[simp] theorem addrs_nil : addrs ([] : List (A × β)) = [] := rfl

@[simp] theorem addrs_cons (a : A) (v : β) (l : List (A × β)) : addrs ((a, v) :: l) = a :: addrs l := rfl

@[simp] theorem addrs_append (l l' : List (A × β)) : addrs (l ++ l') = addrs l ++ addrs l' := List.map_append

@[simp] theorem length_addrs (l : List (A × β)) : (addrs l).length = l.length := List.length_map _

theorem first_append (l l' : List (A × β)) (n : A) : first (l ++ l') n = first l (first l' n) := by
  cases l <;> rfl

theorem last_append (p : A) (l l' : List (A × β)) : last p (l ++ l') = last (last p l) l' := by
  induction l generalizing p with
  | nil => rfl
  | cons x l ih => exact ih x.1

theorem first_mem {l : List (A × β)} (hl : l ≠ []) (n : A) : first l n ∈ addrs l := by
  cases l with
  | nil => exact absurd rfl hl
  | cons x l => exact List.mem_cons_self

theorem last_mem {l : List (A × β)} (hl : l ≠ []) (p : A) : last p l ∈ addrs l := by
  induction l generalizing p with
  | nil => exact absurd rfl hl
  | cons x l ih =>
    obtain rfl | hne := eq_or_ne l []
    · exact List.mem_cons_self
    · exact List.mem_cons_of_mem _ (ih hne x.1)

/-- Cells in a row: the first one has `p` in front, the last one `n` behind it. -/
def Seg (h : Heap A (Cell A β)) : A → List (A × β) → A → Prop
  | _, [], _ => True
  | p, (a, v) :: l, n => h a = some ⟨p, first l n, v⟩ ∧ Seg h a l n

variable {h h' : Heap A (Cell A β)} {p n : A} {l l' : List (A × β)}

theorem seg_append : Seg h p (l ++ l') n ↔ Seg h p l (first l' n) ∧ Seg h (last p l) l' n := by
  induction l generalizing p with
  | nil => exact (iff_of_eq (true_and _)).symm
  | cons x l ih =>
    rw [List.cons_append, Seg, Seg, ih, first_append, and_assoc]
    rfl

/-- Only the cells themselves matter. -/
theorem Seg.congr (hs : Seg h p l n) (heq : ∀ a ∈ addrs l, h' a = h a) : Seg h' p l n := by
  induction l generalizing p with
  | nil => trivial
  | cons x l ih =>
    refine ⟨(heq _ List.mem_cons_self).trans hs.1, ih hs.2 ?_⟩
    exact fun a ha => heq a (List.mem_cons_of_mem _ ha)

/-- The cell at an address. -/
theorem Seg.at {a : A} {v : β} (hs : Seg h p (l ++ (a, v) :: l') n) :
    h a = some ⟨last p l, first l' n, v⟩ := (seg_append.1 hs).2.1

theorem Seg.ne_none (hs : Seg h p l n) {a : A} (ha : a ∈ addrs l) : h a ≠ none := by
  obtain ⟨x, hx, rfl⟩ := List.mem_map.1 ha
  obtain ⟨s, t, rfl⟩ := List.append_of_mem hx
  rw [hs.at]
  exact Option.some_ne_none _

/-! ## Changes -/

variable [DecidableEq A]

/-- An object that is not there has no result. -/
def Heap.modify? {γ : Type*} (h : Heap A γ) (a : A) (f : γ → γ) : Option (Heap A γ) :=
  (h a).map fun b => update h a (some (f b))

def Heap.free? {γ : Type*} (h : Heap A γ) (a : A) : Option (Heap A γ) := (h a).map fun _ => update h a none

theorem Heap.modify?_eq {γ : Type*} {h : Heap A γ} {a : A} {b : γ} (hb : h a = some b) (f : γ → γ) :
    h.modify? a f = some (update h a (some (f b))) := by
  rw [Heap.modify?, hb, Option.map_some]

theorem Heap.free?_eq {γ : Type*} {h : Heap A γ} {a : A} {b : γ} (hb : h a = some b) :
    h.free? a = some (update h a none) := by
  rw [Heap.free?, hb, Option.map_some]

theorem Seg.update (hs : Seg h p l n) {a : A} (ha : a ∉ addrs l) (c : Option (Cell A β)) :
    Seg (Function.update h a c) p l n :=
  hs.congr fun _ hb => Function.update_of_ne (ne_of_mem_of_not_mem hb ha) _ _

/-- **The last cell** gets another address behind it. -/
theorem Seg.setNext (hs : Seg h p l n) (hl : l ≠ []) (hnodup : (addrs l).Nodup) (m : A) :
    ∃ h', h.modify? (last p l) ({ · with next := m }) = some h' ∧ Seg h' p l m ∧ ∀ a ≠ last p l, h' a = h a := by
  obtain ⟨l, ⟨a, v⟩, rfl⟩ : ∃ l' x, l = l' ++ [x] := ⟨_, _, (List.dropLast_concat_getLast hl).symm⟩
  have hcell : h a = some ⟨last p l, n, v⟩ := hs.at
  have hfront := (seg_append.1 hs).1
  have ha : a ∉ addrs l := by
    rw [addrs_append, List.nodup_append] at hnodup
    exact fun hmem => hnodup.2.2 a hmem a List.mem_cons_self rfl
  rw [last_append, last_cons, last_nil]
  refine ⟨_, Heap.modify?_eq hcell _, ?_, fun b hb => Function.update_of_ne hb _ _⟩
  exact seg_append.2 ⟨hfront.update ha _, Function.update_self _ _ _, trivial⟩

/-- **The first cell** gets another address in front of it. -/
theorem Seg.setPrev (hs : Seg h p l n) (hl : l ≠ []) (hnodup : (addrs l).Nodup) (m : A) :
    ∃ h', h.modify? (first l n) ({ · with prev := m }) = some h' ∧ Seg h' m l n ∧ ∀ a ≠ first l n, h' a = h a := by
  obtain ⟨⟨a, v⟩, l, rfl⟩ := List.exists_cons_of_ne_nil hl
  refine ⟨_, Heap.modify?_eq hs.1 _, ?_, fun b hb => Function.update_of_ne hb _ _⟩
  exact ⟨Function.update_self _ _ _, hs.2.update (List.nodup_cons.1 hnodup).1 _⟩

end Lib.Linked
