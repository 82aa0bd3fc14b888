import Mathlib.Data.List.Basic

/-!
# Lists sorted in place

* `Rearranges`: another order of the elements between two positions, `Rearranges.trans`, `rearranges_swap`;
* `Desc`, `OrderedBut`: an order between two positions, and everywhere but inside of some segments;
* `OrderedBut.refine`: a segment that is put in order, or cut into segments;
* `Rearranges.middle`: the part of the list that was rearranged.
-/

set_option autoImplicit false

namespace Lib.InPlace

variable {α : Type*}

/-- The elements from `l` to `r` are in another order, and the others are where they were. -/
structure Rearranges (l r : Nat) (ids ids' : List α) : Prop where
  perm : ids'.Perm ids
  outside : ∀ x, x < l ∨ r < x → ids'[x]? = ids[x]?
  inside : ∀ x, l ≤ x → x ≤ r → ∃ y, l ≤ y ∧ y ≤ r ∧ ids'[x]? = ids[y]?

theorem Rearranges.refl (l r : Nat) (ids : List α) : Rearranges l r ids ids where
  perm := .refl _
  outside _ _ := rfl
  inside x hl hr := ⟨x, hl, hr, rfl⟩

theorem Rearranges.length_eq {l r : Nat} {ids ids' : List α} (h : Rearranges l r ids ids') :
    ids'.length = ids.length := h.perm.length_eq

theorem Rearranges.trans {l r : Nat} {ids ids' ids'' : List α} (h : Rearranges l r ids ids')
    (h' : Rearranges l r ids' ids'') : Rearranges l r ids ids'' where
  perm := h'.perm.trans h.perm
  outside x hx := (h'.outside x hx).trans (h.outside x hx)
  inside x hl hr := by
    obtain ⟨y, hly, hyr, hy⟩ := h'.inside x hl hr
    obtain ⟨z, hlz, hzr, hz⟩ := h.inside y hly hyr
    exact ⟨z, hlz, hzr, hy.trans hz⟩

theorem Rearranges.mono {l l' r r' : Nat} {ids ids' : List α} (h : Rearranges l r ids ids') (hl : l' ≤ l)
    (hr : r ≤ r') : Rearranges l' r' ids ids' where
  perm := h.perm
  outside x hx := h.outside x (by omega)
  inside x hlx hxr := by
    by_cases hx : l ≤ x ∧ x ≤ r
    · obtain ⟨y, hly, hyr, hy⟩ := h.inside x hx.1 hx.2
      exact ⟨y, by omega, by omega, hy⟩
    · exact ⟨x, hlx, hxr, h.outside x (by omega)⟩

theorem getElem?_swap {ids : List α} {i j : Nat} {a b : α} (hi : ids[i]? = some a) (hj : ids[j]? = some b) (x : Nat) :
    ((ids.set i b).set j a)[x]? = if x = j then some a else if x = i then some b else ids[x]? := by
  grind

/-- **Two elements** change places. -/
theorem rearranges_swap {l r : Nat} {ids : List α} {i j : Nat} {a b : α} (hli : l ≤ i) (hir : i ≤ r) (hlj : l ≤ j)
    (hjr : j ≤ r) (hi : ids[i]? = some a) (hj : ids[j]? = some b) :
    Rearranges l r ids ((ids.set i b).set j a) where
  perm := by
    obtain ⟨hilt, rfl⟩ := List.getElem?_eq_some_iff.1 hi
    obtain ⟨hjlt, rfl⟩ := List.getElem?_eq_some_iff.1 hj
    exact List.set_set_perm hilt hjlt
  outside x hx := by
    rw [getElem?_swap hi hj, if_neg (by omega), if_neg (by omega)]
  inside x hlx hxr := by
    rw [getElem?_swap hi hj]
    split
    · exact ⟨i, hli, hir, hi.symm⟩
    · split
      · exact ⟨j, hlj, hjr, hj.symm⟩
      · exact ⟨x, hlx, hxr, rfl⟩

/-- The part that is rearranged, between the others. -/
theorem Rearranges.middle {a : α} {l rest ids' : List α} (h : Rearranges 1 l.length (a :: l ++ rest) ids') :
    ∃ l', ids' = a :: l' ++ rest ∧ l'.Perm l := by
  have hlen := h.length_eq
  rw [List.cons_append, List.length_cons, List.length_append] at hlen
  obtain ⟨b, t, rfl⟩ : ∃ b t, ids' = b :: t := List.exists_cons_of_ne_nil (List.ne_nil_of_length_pos (by omega))
  have hhead := h.outside 0 (Or.inl Nat.zero_lt_one)
  obtain rfl : b = a := Option.some_inj.1 hhead
  have hdrop : t.drop l.length = rest := by
    apply List.ext_getElem?
    intro x
    have hx := h.outside (l.length + x + 1) (Or.inr (by omega))
    rw [List.getElem?_cons_succ, List.cons_append, List.getElem?_cons_succ,
      List.getElem?_append_right (by omega), Nat.add_sub_cancel_left] at hx
    rw [List.getElem?_drop, hx]
  have ht : t = t.take l.length ++ rest := by rw [← hdrop, List.take_append_drop]
  refine ⟨t.take l.length, by rw [List.cons_append, ← ht], ?_⟩
  have hperm := h.perm
  rw [ht, List.cons_append] at hperm
  exact (List.perm_append_right_iff rest).1 (List.Perm.cons_inv hperm)

/-! ## Orders -/

variable [LE α]

/-- The elements from `l` to `r` descend. -/
def Desc (l r : Nat) (ids : List α) : Prop :=
  ∀ x y a b, l ≤ x → x < y → y ≤ r → ids[x]? = some a → ids[y]? = some b → b ≤ a

/-- The elements from `1` to `n` descend, but for those of one segment. -/
def OrderedBut (segs : List (Nat × Nat)) (n : Nat) (ids : List α) : Prop :=
  ∀ x y a b, 1 ≤ x → x < y → y ≤ n → (∀ s ∈ segs, ¬ (s.1 ≤ x ∧ y ≤ s.2)) → ids[x]? = some a → ids[y]? = some b → b ≤ a

/-- Segments that do not meet. -/
def Apart (s t : Nat × Nat) : Prop := s.2 < t.1 ∨ t.2 < s.1

/-- **A segment is refined**: its elements are rearranged until they descend but for those of smaller segments. -/
theorem OrderedBut.refine {l r n : Nat} {segs : List (Nat × Nat)} (new : List (Nat × Nat)) {ids ids' : List α}
    (h : OrderedBut ((l, r) :: segs) n ids) (hl : 1 ≤ l) (hr : r ≤ n) (hapart : ∀ s ∈ segs, Apart (l, r) s)
    (hids : Rearranges l r ids ids')
    (hnew : ∀ x y a b, l ≤ x → x < y → y ≤ r → (∀ s ∈ new, ¬ (s.1 ≤ x ∧ y ≤ s.2)) → ids'[x]? = some a →
      ids'[y]? = some b → b ≤ a) :
    OrderedBut (new ++ segs) n ids' := by
  intro x y a b hx hxy hy hsegs ha hb
  -- a pair of the old list, at least one of the two outside of the segment
  have hold : ∀ x' y', 1 ≤ x' → x' < y' → y' ≤ n → (x' < l ∨ r < y') → (x' = x ∨ l ≤ x' ∧ x' ≤ r) →
      (y' = y ∨ l ≤ y' ∧ y' ≤ r) → ids[x']? = some a → ids[y']? = some b → b ≤ a := by
    intro x' y' hx' hxy' hy' hout hx'' hy'' ha' hb'
    refine h x' y' a b hx' hxy' hy' ?_ ha' hb'
    intro s hs
    obtain rfl | hs := List.mem_cons.1 hs
    · simp only
      omega
    · have hs' := hsegs s (List.mem_append_right _ hs)
      have hsapart := hapart s hs
      unfold Apart at hsapart
      simp only at hsapart
      omega
  by_cases hxl : x < l ∨ r < x
  · rw [hids.outside x hxl] at ha
    by_cases hyl : y < l ∨ r < y
    · rw [hids.outside y hyl] at hb
      exact hold x y hx hxy hy (by omega) (Or.inl rfl) (Or.inl rfl) ha hb
    · obtain ⟨y', hly, hyr, hy'⟩ := hids.inside y (by omega) (by omega)
      rw [hy'] at hb
      exact hold x y' hx (by omega) (by omega) (by omega) (Or.inl rfl) (Or.inr ⟨hly, hyr⟩) ha hb
  · by_cases hyl : y < l ∨ r < y
    · rw [hids.outside y hyl] at hb
      obtain ⟨x', hlx, hxr, hx'⟩ := hids.inside x (by omega) (by omega)
      rw [hx'] at ha
      exact hold x' y (by omega) (by omega) hy (by omega) (Or.inr ⟨hlx, hxr⟩) (Or.inl rfl) ha hb
    · exact hnew x y a b (by omega) hxy (by omega) (fun s hs => hsegs s (List.mem_append_left _ hs)) ha hb

theorem OrderedBut.sorted {l r n : Nat} {segs : List (Nat × Nat)} {ids ids' : List α}
    (h : OrderedBut ((l, r) :: segs) n ids) (hl : 1 ≤ l) (hr : r ≤ n) (hapart : ∀ s ∈ segs, Apart (l, r) s)
    (hids : Rearranges l r ids ids') (hdesc : Desc l r ids') : OrderedBut segs n ids' :=
  h.refine [] hl hr hapart hids fun x y a b hlx hxy hyr _ => hdesc x y a b hlx hxy hyr

theorem OrderedBut.desc {n : Nat} {ids : List α} (h : OrderedBut [] n ids) : Desc 1 n ids :=
  fun x y a b hx hxy hy => h x y a b hx hxy hy (List.forall_mem_nil _)

theorem Desc.pairwise {a : α} {l rest : List α} (h : Desc 1 l.length (a :: l ++ rest)) :
    l.Pairwise fun x y => y ≤ x := by
  rw [List.pairwise_iff_getElem]
  intro i j hi hj hij
  refine h (i + 1) (j + 1) _ _ (by omega) (by omega) (by omega) ?_ ?_
  · rw [List.cons_append, List.getElem?_cons_succ, List.getElem?_append_left hi, List.getElem?_eq_getElem hi]
  · rw [List.cons_append, List.getElem?_cons_succ, List.getElem?_append_left hj, List.getElem?_eq_getElem hj]

end Lib.InPlace
