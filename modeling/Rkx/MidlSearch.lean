import Mathlib.Data.List.Induction
import Rkx.MidlSort

/-!
# Searches in ID lists, and lists of IDs with pointers

* `searchLoop_place`: the binary search, over any comparison that is positive first and negative last;
* `mdbMidlSearch_splits`: what the search in a sorted list finds;
* `Id2l`: an array that holds a list of IDs with pointers in ascending order;
* `mdbMid2lSearch_splits`, `Id2l.insert`: what the functions do with such an array;
* `inserts_refine`: any insertions and searches are those of a finite map.
-/

set_option autoImplicit false

namespace Rkx.Midl

/-! ## The binary search -/

/-- Positive first, then zero, and then negative. -/
structure Falls (cmp : Nat → Option Int) (n : Nat) : Prop where
  reads : ∀ i, 1 ≤ i → i ≤ n → ∃ v, cmp i = some v
  pos : ∀ i j u v, 1 ≤ i → i < j → j ≤ n → cmp i = some u → cmp j = some v → 0 < v → 0 < u
  neg : ∀ i j u v, 1 ≤ i → i < j → j ≤ n → cmp i = some u → cmp j = some v → u < 0 → v < 0

/-- A position where it is zero, or, if there is none, the first one where it is negative. -/
structure Place (cmp : Nat → Option Int) (n x : Nat) : Prop where
  one_le : 1 ≤ x
  le : x ≤ n + 1
  found : x ≤ n ∧ cmp x = some 0 ∨
    (∀ i v, 1 ≤ i → i < x → cmp i = some v → 0 < v) ∧ ∀ i v, x ≤ i → i ≤ n → cmp i = some v → v < 0

/-- **The loop** keeps positive values up to `base`, and negative ones behind the `n` next positions. -/
theorem searchLoop_place {cmp : Nat → Option Int} {N : Nat} (h : Falls cmp N) {n base cursor : Nat} {val : Int}
    (hN : base + n ≤ N) (hbefore : ∀ i v, 1 ≤ i → i ≤ base → cmp i = some v → 0 < v)
    (hbehind : ∀ i v, base + n < i → i ≤ N → cmp i = some v → v < 0)
    (hlast : n = 0 → 0 < val ∧ cursor = base ∨ val ≤ 0 ∧ cursor = base + 1) :
    ∃ x, searchLoop cmp n base cursor val = some x ∧ Place cmp N x := by
  induction n using Nat.strongRecOn generalizing base cursor val with
  | ind n ih =>
    rw [searchLoop]
    split
    · rename_i hn
      have hhalf : n / 2 < n := Nat.div_lt_self hn (by omega)
      obtain ⟨v, hv⟩ := h.reads (base + n / 2 + 1) (by omega) (by omega)
      simp only [hv, Option.bind_eq_bind, Option.bind_some]
      split
      · -- the first half
        rename_i hneg
        refine ih (n / 2) hhalf (by omega) hbefore ?_ fun hzero => Or.inr ⟨by omega, by omega⟩
        intro i w hi hiN hw
        obtain rfl | hlt := Nat.eq_or_lt_of_le (show base + n / 2 + 1 ≤ i by omega)
        · rw [hv] at hw
          cases hw
          exact hneg
        · exact h.neg _ i v w (by omega) hlt hiN hv hw hneg
      · split
        · -- the second half
          rename_i hpos
          refine ih (n - (n / 2 + 1)) (by omega) (by omega) ?_ ?_ fun hzero => Or.inl ⟨hpos, rfl⟩
          · intro i w hi hib hw
            obtain rfl | hlt := Nat.eq_or_lt_of_le hib
            · rw [hv] at hw
              cases hw
              exact hpos
            · exact h.pos i _ w v hi hlt (by omega) hw hv hpos
          · exact fun i w hi hiN hw => hbehind i w (by omega) hiN hw
        · obtain rfl : v = 0 := by omega
          exact ⟨_, rfl, by omega, by omega, Or.inl ⟨by omega, hv⟩⟩
    · obtain rfl : n = 0 := by omega
      obtain ⟨hval, rfl⟩ | ⟨hval, rfl⟩ := hlast rfl
      · rw [if_pos hval]
        exact ⟨_, rfl, by omega, by omega, Or.inr ⟨fun i w hi hix => hbefore i w hi (by omega),
          fun i w hix => hbehind i w (by omega)⟩⟩
      · rw [if_neg (by omega)]
        exact ⟨_, rfl, by omega, by omega, Or.inr ⟨fun i w hi hix => hbefore i w hi (by omega),
          fun i w hix => hbehind i w (by omega)⟩⟩

/-- **A search in a list** whose elements the comparison puts in order. -/
theorem searchLoop_splits {β : Type} (f : β → Int) (cmp : Nat → Option Int) {l : List β}
    (hcmp : ∀ i (hi : i < l.length), cmp (i + 1) = some (f l[i]))
    (horder : l.Pairwise fun x y => (0 < f y → 0 < f x) ∧ (f x < 0 → f y < 0)) :
    ∃ a b, l = a ++ b ∧ searchLoop cmp l.length 0 1 0 = some (a.length + 1) ∧
      ((∃ y b', b = y :: b' ∧ f y = 0) ∨ (∀ y ∈ a, 0 < f y) ∧ ∀ y ∈ b, f y < 0) := by
  have hget : ∀ i, 1 ≤ i → i ≤ l.length → ∃ k, ∃ hk : k < l.length, i = k + 1 ∧ cmp i = some (f l[k]) := by
    intro i hi hil
    obtain ⟨k, rfl⟩ : ∃ k, i = k + 1 := ⟨i - 1, by omega⟩
    exact ⟨k, by omega, rfl, hcmp k (by omega)⟩
  have hpair : ∀ i j u v, 1 ≤ i → i < j → j ≤ l.length → cmp i = some u → cmp j = some v →
      (0 < v → 0 < u) ∧ (u < 0 → v < 0) := by
    intro i j u v hi hij hj hu hv
    obtain ⟨i, hil, rfl, hi'⟩ := hget i hi (by omega)
    obtain ⟨j, hjl, rfl, hj'⟩ := hget j (by omega) hj
    rw [hi', Option.some_inj] at hu
    rw [hj', Option.some_inj] at hv
    subst hu hv
    exact List.pairwise_iff_getElem.1 horder i j hil hjl (by omega)
  have hfalls : Falls cmp l.length := by
    refine ⟨?_, ?_, ?_⟩
    · intro i hi hil
      obtain ⟨k, hk, -, hv⟩ := hget i hi hil
      exact ⟨_, hv⟩
    · exact fun i j u v hi hij hj hu hv => (hpair i j u v hi hij hj hu hv).1
    · exact fun i j u v hi hij hj hu hv => (hpair i j u v hi hij hj hu hv).2
  obtain ⟨x, hx, hone, hle, hfound⟩ := @searchLoop_place cmp l.length hfalls l.length 0 1 0 (by omega)
    (by omega) (by omega) fun _ => Or.inr ⟨Int.le_refl 0, rfl⟩
  have hlen : (l.take (x - 1)).length = x - 1 := by
    rw [List.length_take]
    omega
  refine ⟨l.take (x - 1), l.drop (x - 1), (List.take_append_drop _ _).symm, by rw [hx, hlen]; congr 1; omega, ?_⟩
  obtain ⟨hxl, hzero⟩ | ⟨hbefore, hbehind⟩ := hfound
  · left
    obtain ⟨k, hk, rfl, hv⟩ := hget x hone hxl
    rw [hzero, Option.some_inj] at hv
    exact ⟨l[k], l.drop (k + 1), by rw [Nat.add_sub_cancel, List.drop_eq_getElem_cons hk], hv.symm⟩
  · right
    constructor
    · intro y hy
      obtain ⟨i, hi, rfl⟩ := List.mem_take_iff_getElem.1 hy
      exact hbefore (i + 1) _ (by omega) (by omega) (hcmp i (by omega))
    · intro y hy
      obtain ⟨i, hi, rfl⟩ := List.mem_drop_iff_getElem.1 hy
      have hi' : x - 1 + i < l.length := by omega
      exact hbehind (x - 1 + i + 1) _ (by omega) (by omega) (hcmp (x - 1 + i) hi')

theorem CMP_pos {x y : MDB_ID} : 0 < CMP x y ↔ y < x := by
  unfold CMP
  split
  · rename_i h
    simp [UInt64.lt_asymm h]
  · split <;> simp_all

theorem CMP_neg {x y : MDB_ID} : CMP x y < 0 ↔ x < y := by
  unfold CMP
  split
  · rename_i h
    simp [h]
  · split <;> simp_all

theorem CMP_eq_zero {x y : MDB_ID} (h : CMP x y = 0) : x = y := by
  have hle : y ≤ x := UInt64.not_lt.1 fun hlt => by
    have := CMP_neg.2 hlt
    omega
  have hge : x ≤ y := UInt64.not_lt.1 fun hlt => by
    have := CMP_pos.2 hlt
    omega
  exact UInt64.le_antisymm hge hle

/-- **`mdb_midl_search`** in a descending list splits it where the ID is, or belongs. -/
theorem mdbMidlSearch_splits {n : MDB_ID} {l : List MDB_ID} (rest : List MDB_ID) (hn : n.toNat = l.length)
    (hmax : l.length < UInt32.size) (hdesc : l.Pairwise fun x y => y ≤ x) (id : MDB_ID) :
    ∃ a b, l = a ++ b ∧ mdbMidlSearch (n :: l ++ rest) id = some (a.length + 1) ∧
      (b.head? = some id ∨ (∀ y ∈ a, id < y) ∧ ∀ y ∈ b, y < id) := by
  have hcmp : ∀ i (hi : i < l.length), (n :: l ++ rest)[i + 1]?.map (fun x => CMP x id) = some (CMP l[i] id) := by
    intro i hi
    rw [List.cons_append, List.getElem?_cons_succ, List.getElem?_append_left hi, List.getElem?_eq_getElem hi,
      Option.map_some]
  obtain ⟨a, b, hl, hsearch, hsplit⟩ := searchLoop_splits (fun x : MDB_ID => CMP x id)
    (fun cursor => (n :: l ++ rest)[cursor]?.map fun x => CMP x id) hcmp
    (hdesc.imp fun hxy => ⟨fun hy => CMP_pos.2 (UInt64.lt_of_lt_of_le (CMP_pos.1 hy) hxy),
      fun hx => CMP_neg.2 (UInt64.lt_of_le_of_lt hxy (CMP_neg.1 hx))⟩)
  refine ⟨a, b, hl, ?_, ?_⟩
  · unfold mdbMidlSearch
    rw [List.cons_append, List.getElem?_cons_zero]
    simp only [Option.bind_eq_bind, Option.bind_some]
    rw [hn, Nat.mod_eq_of_lt hmax]
    exact hsearch
  · obtain ⟨y, b', hb, hy⟩ | ⟨hbefore, hbehind⟩ := hsplit
    · exact Or.inl (by rw [hb, List.head?_cons, CMP_eq_zero hy])
    · exact Or.inr ⟨fun y hy => CMP_pos.1 (hbefore y hy), fun y hy => CMP_neg.1 (hbehind y hy)⟩

/-! ## Lists of IDs with pointers -/

variable {α : Type}

/-- An array of `MDB_IDL_UM_SIZE` elements that holds the list. -/
structure Id2l (l ids : List (MdbId2 α)) : Prop where
  ascending : l.Pairwise fun x y => x.mid < y.mid
  shape : ∃ head rest, ids = head :: (l ++ rest) ∧ head.mid.toNat = l.length
  size : ids.length = MDB_IDL_UM_SIZE

theorem Id2l.length_le {l ids : List (MdbId2 α)} (h : Id2l l ids) : l.length ≤ MDB_IDL_UM_MAX := by
  obtain ⟨-, ⟨head, rest, rfl, -⟩, hsize⟩ := h
  rw [List.length_cons, List.length_append] at hsize
  unfold MDB_IDL_UM_SIZE at hsize
  unfold MDB_IDL_UM_MAX
  omega

/-- **The search** splits the list at the ID. -/
theorem Id2l.search {l ids : List (MdbId2 α)} (h : Id2l l ids) (id : MDB_ID) :
    ∃ a b, l = a ++ b ∧ mdbMid2lSearch ids id = some (a.length + 1) ∧
      ((∃ y b', b = y :: b' ∧ y.mid = id) ∨ (∀ y ∈ a, y.mid < id) ∧ ∀ y ∈ b, id < y.mid) := by
  have hmax := h.length_le
  obtain ⟨hasc, ⟨head, rest, rfl, hhead⟩, -⟩ := h
  have hcmp : ∀ i (hi : i < l.length),
      (head :: (l ++ rest))[i + 1]?.map (fun x => CMP id x.mid) = some (CMP id l[i].mid) := fun i hi => by
    rw [List.getElem?_cons_succ, List.getElem?_append_left hi, List.getElem?_eq_getElem hi, Option.map_some]
  obtain ⟨a, b, hl, hsearch, hsplit⟩ := searchLoop_splits (fun x : MdbId2 α => CMP id x.mid)
    (fun cursor => (head :: (l ++ rest))[cursor]?.map fun x => CMP id x.mid) hcmp
    (hasc.imp fun hxy => ⟨fun hy => CMP_pos.2 (UInt64.lt_trans hxy (CMP_pos.1 hy)),
      fun hx => CMP_neg.2 (UInt64.lt_trans (CMP_neg.1 hx) hxy)⟩)
  refine ⟨a, b, hl, ?_, ?_⟩
  · unfold mdbMid2lSearch
    rw [List.getElem?_cons_zero]
    simp only [Option.bind_eq_bind, Option.bind_some]
    rw [hhead, Nat.mod_eq_of_lt (by unfold MDB_IDL_UM_MAX at hmax; unfold UInt32.size; omega)]
    exact hsearch
  · obtain ⟨y, b', hb, hy⟩ | ⟨hbefore, hbehind⟩ := hsplit
    · exact Or.inl ⟨y, b', hb, (CMP_eq_zero hy).symm⟩
    · exact Or.inr ⟨fun y hy => CMP_pos.1 (hbefore y hy), fun y hy => CMP_neg.1 (hbehind y hy)⟩

/-- The elements behind a place move up by one. -/
theorem shiftUp_moves (p b : List (MdbId2 α)) (y : MdbId2 α) (rest : List (MdbId2 α)) :
    ∃ z, shiftUp (p ++ (b ++ y :: rest)) p.length b.length = some (p ++ z :: (b ++ rest)) := by
  induction b using List.reverseRecOn generalizing y rest with
  | nil => exact ⟨y, rfl⟩
  | append_singleton b w ih =>
    obtain ⟨z, hz⟩ := ih w (w :: rest)
    refine ⟨z, ?_⟩
    have hget : (p ++ (b ++ [w] ++ y :: rest))[p.length + b.length]? = some w := by
      rw [List.getElem?_append_right (by omega), Nat.add_sub_cancel_left, List.append_assoc,
        List.getElem?_append_right (Nat.le_refl _), Nat.sub_self]
      rfl
    have hset : (p ++ (b ++ [w] ++ y :: rest)).set (p.length + b.length + 1) w = p ++ (b ++ w :: w :: rest) := by
      rw [List.set_append_right _ _ (by omega), List.append_assoc, List.set_append_right _ _ (by omega)]
      rw [show p.length + b.length + 1 - p.length - b.length = 1 by omega]
      rfl
    rw [List.length_append, List.length_singleton, shiftUp, hget]
    simp only [Option.bind_eq_bind, Option.bind_some]
    rw [store?_eq (by simp only [List.length_append, List.length_cons]; omega), Option.bind_some, hset, hz]
    rw [List.append_assoc, List.singleton_append]

/-- The element behind `a` has the ID, if there is one and it has. -/
theorem hasId_eq {head : MdbId2 α} {a b : List (MdbId2 α)} (hhead : head.mid.toNat = a.length + b.length)
    (rest : List (MdbId2 α)) (id : MDB_ID) :
    hasId (head :: (a ++ b ++ rest)) (a.length + 1) head id = some (b.head?.any fun y => y.mid == id) := by
  unfold hasId
  cases b with
  | nil => rw [if_neg (by rw [List.length_nil] at hhead; omega), List.head?_nil, Option.any_none]
  | cons y b =>
    rw [List.length_cons] at hhead
    rw [if_pos (by omega), List.getElem?_cons_succ, List.append_assoc, List.getElem?_append_right (Nat.le_refl _),
      Nat.sub_self, List.cons_append, List.getElem?_cons_zero, Option.map_some, List.head?_cons, Option.any_some]

/-- **An insertion** puts the ID in its place, or changes nothing. -/
theorem Id2l.insert {l ids : List (MdbId2 α)} (h : Id2l l ids) (id : MdbId2 α) :
    (∃ y ∈ l, y.mid = id.mid) ∧ mdbMid2lInsert ids id = some (ids, -1) ∨
      (∀ y ∈ l, y.mid ≠ id.mid) ∧ l.length = MDB_IDL_UM_MAX ∧ mdbMid2lInsert ids id = some (ids, -2) ∨
      ∃ a b ids', l = a ++ b ∧ (∀ y ∈ l, y.mid ≠ id.mid) ∧ l.length < MDB_IDL_UM_MAX ∧
        mdbMid2lInsert ids id = some (ids', 0) ∧ Id2l (a ++ id :: b) ids' := by
  have hmax := h.length_le
  obtain ⟨a, b, rfl, hsearch, hsplit⟩ := h.search id.mid
  obtain ⟨hasc, ⟨head, rest, rfl, hhead⟩, hsize⟩ := h
  rw [List.length_append] at hhead hmax
  unfold mdbMid2lInsert
  rw [hsearch, List.getElem?_cons_zero]
  simp only [Option.bind_eq_bind, Option.bind_some]
  rw [if_neg (by omega), hasId_eq hhead rest, Option.bind_some]
  obtain ⟨y, b', rfl, hy⟩ | ⟨hbefore, hbehind⟩ := hsplit
  · left
    rw [List.head?_cons, Option.any_some, if_pos (beq_iff_eq.2 hy)]
    exact ⟨⟨y, List.mem_append_right _ List.mem_cons_self, hy⟩, rfl⟩
  · right
    have hnew : ∀ y ∈ a ++ b, y.mid ≠ id.mid := by
      intro y hy heq
      obtain hy | hy := List.mem_append.1 hy
      · exact UInt64.lt_irrefl _ (heq ▸ hbefore y hy)
      · exact UInt64.lt_irrefl _ (heq ▸ hbehind y hy)
    rw [if_neg]
    swap
    · intro heq
      cases b with
      | nil => cases heq
      | cons y b =>
        rw [List.head?_cons, Option.any_some, beq_iff_eq] at heq
        exact hnew y (List.mem_append_right _ List.mem_cons_self) heq
    by_cases hfull : MDB_IDL_UM_MAX ≤ head.mid.toNat
    · left
      rw [if_pos hfull]
      exact ⟨hnew, by rw [List.length_append]; omega, rfl⟩
    · right
      obtain ⟨y, rest, rfl⟩ : ∃ y r, rest = y :: r := by
        apply List.exists_cons_of_ne_nil
        rintro rfl
        simp only [List.length_cons, List.length_append, List.length_nil] at hsize
        unfold MDB_IDL_UM_SIZE at hsize
        unfold MDB_IDL_UM_MAX at hfull
        omega
      have hsucc : (head.mid + 1).toNat = a.length + b.length + 1 := by
        unfold MDB_IDL_UM_MAX at hfull
        rw [UInt64.toNat_add, hhead, UInt64.toNat_one, Nat.mod_eq_of_lt (by omega)]
      rw [if_neg hfull, store?_eq (by rw [List.length_cons]; omega), Option.bind_some, List.set_cons_zero]
      obtain ⟨z, hz⟩ := shiftUp_moves ({ head with mid := head.mid + 1 } :: a) b y rest
      rw [hsucc, show a.length + b.length + 1 - (a.length + 1) = b.length by omega]
      rw [List.length_cons, List.cons_append, ← List.append_assoc] at hz
      rw [hz, Option.bind_some, List.cons_append,
        store?_eq (by simp only [List.length_cons, List.length_append]; omega), Option.bind_some]
      refine ⟨a, b, _, rfl, hnew, by rw [List.length_append]; omega, rfl, ?_, ?_, ?_⟩
      · obtain ⟨ha, hb, hab⟩ := List.pairwise_append.1 hasc
        refine List.pairwise_append.2 ⟨ha, List.pairwise_cons.2 ⟨hbehind, hb⟩, ?_⟩
        intro x hx w hw
        obtain rfl | hw := List.mem_cons.1 hw
        · exact hbefore x hx
        · exact hab x hx w hw
      · refine ⟨{ head with mid := head.mid + 1 }, rest, ?_, ?_⟩
        · rw [List.set_cons_succ, List.set_append_right _ _ (Nat.le_refl _), Nat.sub_self, List.set_cons_zero,
            List.append_assoc, List.cons_append]
        · rw [hsucc, List.length_append, List.length_cons]
          omega
      · rw [← hsize]
        simp only [List.length_set, List.length_cons, List.length_append]
        omega

/-- The pointer of an ID. -/
def ptrOf (l : List (MdbId2 α)) (id : MDB_ID) : Option α := (l.find? fun y => y.mid = id).map (·.mptr)

theorem ptrOf_eq_some {l : List (MdbId2 α)} (h : l.Pairwise fun x y => x.mid ≠ y.mid) {y : MdbId2 α} (hy : y ∈ l) :
    ptrOf l y.mid = some y.mptr := by
  induction l with
  | nil => cases hy
  | cons z l ih =>
    obtain ⟨hz, hl⟩ := List.pairwise_cons.1 h
    unfold ptrOf
    rw [List.find?_cons]
    obtain rfl | hy := List.mem_cons.1 hy
    · rw [decide_eq_true rfl, Option.map_some]
    · rw [decide_eq_false (hz y hy)]
      exact ih hl hy

theorem ptrOf_eq_none {l : List (MdbId2 α)} {id : MDB_ID} (h : ∀ y ∈ l, y.mid ≠ id) : ptrOf l id = none := by
  unfold ptrOf
  rw [List.find?_eq_none.2 fun y hy => by rw [decide_eq_true_eq]; exact h y hy, Option.map_none]

theorem Id2l.mid_ne {l ids : List (MdbId2 α)} (h : Id2l l ids) : l.Pairwise fun x y => x.mid ≠ y.mid := by
  refine h.ascending.imp ?_
  intro x y hxy heq
  rw [heq] at hxy
  exact UInt64.lt_irrefl _ hxy

/-- **A page is looked up** by its number. -/
theorem Id2l.dirtyPage?_eq {l ids : List (MdbId2 α)} (h : Id2l l ids) (pgno : MDB_ID) :
    dirtyPage? ids pgno = some (ptrOf l pgno) := by
  have hne := h.mid_ne
  obtain ⟨a, b, rfl, hsearch, hsplit⟩ := h.search pgno
  obtain ⟨-, ⟨head, rest, rfl, hhead⟩, -⟩ := h
  rw [List.length_append] at hhead
  have hget : (head :: (a ++ b ++ rest))[a.length + 1]? = (b ++ rest)[0]? := by
    rw [List.getElem?_cons_succ, List.append_assoc, List.getElem?_append_right (Nat.le_refl _), Nat.sub_self]
  unfold dirtyPage?
  rw [hsearch, List.getElem?_cons_zero]
  simp only [Option.bind_eq_bind, Option.bind_some]
  rw [hget]
  obtain ⟨y, b', rfl, rfl⟩ | ⟨hbefore, hbehind⟩ := hsplit
  · rw [ptrOf_eq_some hne (List.mem_append_right a List.mem_cons_self)]
    rw [List.length_cons] at hhead
    have hnz : head.mid ≠ 0 := by
      rintro hzero
      rw [hzero, UInt64.toNat_zero] at hhead
      omega
    rw [if_neg hnz, if_pos (by omega), List.cons_append, List.getElem?_cons_zero, Option.bind_some, if_pos rfl]
    rfl
  · rw [ptrOf_eq_none]
    swap
    · intro y hy heq
      subst heq
      obtain hy | hy := List.mem_append.1 hy
      · exact UInt64.lt_irrefl _ (hbefore y hy)
      · exact UInt64.lt_irrefl _ (hbehind y hy)
    split
    · rfl
    · split
      · obtain _ | ⟨y, b⟩ := b
        · rw [List.length_nil] at hhead
          omega
        · have hy : y.mid ≠ pgno := by
            rintro rfl
            exact UInt64.lt_irrefl _ (hbehind y List.mem_cons_self)
          rw [List.cons_append, List.getElem?_cons_zero, Option.bind_some, if_neg hy]
          rfl
      · rfl

/-! ## Runs -/

/-- A call with a list, or a look at it. -/
inductive ListCall (α : Type) where
  | insert (id : MdbId2 α)
  | page (pgno : MDB_ID)

/-- What is returned: a code or a page. -/
inductive ListAnswer (α : Type) where
  | code (rc : Int)
  | page (p : Option α)

def ListCall.exec (ids : List (MdbId2 α)) : ListCall α → Option (List (MdbId2 α) × ListAnswer α)
  | .insert id => (mdbMid2lInsert ids id).map fun r => (r.1, .code r.2)
  | .page pgno => (dirtyPage? ids pgno).map fun p => (ids, .page p)

/-- The calls of a transaction, in order. -/
def listRun (ids : List (MdbId2 α)) : List (ListCall α) → Option (List (MdbId2 α) × List (ListAnswer α))
  | [] => some (ids, [])
  | call :: calls => do
    let (ids, answer) ← call.exec ids
    let (ids, answers) ← listRun ids calls
    return (ids, answer :: answers)

/-- The same with the IDs in the order in which they came: the first pointer of an ID stays. -/
def ListCall.expected (m : List (MdbId2 α)) : ListCall α → List (MdbId2 α) × ListAnswer α
  | .insert id =>
    if (ptrOf m id.mid).isSome then (m, .code (-1))
    else if m.length = MDB_IDL_UM_MAX then (m, .code (-2))
    else (id :: m, .code 0)
  | .page pgno => (m, .page (ptrOf m pgno))

def expectedRun (m : List (MdbId2 α)) : List (ListCall α) → List (MdbId2 α) × List (ListAnswer α)
  | [] => (m, [])
  | call :: calls =>
    let (m, answer) := call.expected m
    let (m, answers) := expectedRun m calls
    (m, answer :: answers)

theorem ptrOf_perm {l m : List (MdbId2 α)} (hperm : l.Perm m) (hne : l.Pairwise fun x y => x.mid ≠ y.mid)
    (id : MDB_ID) : ptrOf l id = ptrOf m id := by
  have hne' : m.Pairwise fun x y => x.mid ≠ y.mid := (hperm.pairwise_iff fun h => Ne.symm h).1 hne
  by_cases h : ∃ y ∈ l, y.mid = id
  · obtain ⟨y, hy, rfl⟩ := h
    rw [ptrOf_eq_some hne hy, ptrOf_eq_some hne' (hperm.mem_iff.1 hy)]
  · rw [ptrOf_eq_none fun y hy heq => h ⟨y, hy, heq⟩,
      ptrOf_eq_none fun y hy heq => h ⟨y, hperm.mem_iff.2 hy, heq⟩]

/-- One call. -/
theorem ListCall.exec_expected {l m ids : List (MdbId2 α)} (hperm : l.Perm m) (h : Id2l l ids) (call : ListCall α) :
    ∃ ids' l', call.exec ids = some (ids', (call.expected m).2) ∧ l'.Perm (call.expected m).1 ∧ Id2l l' ids' := by
  cases call with
  | page pgno =>
    refine ⟨ids, l, ?_, hperm, h⟩
    rw [exec, h.dirtyPage?_eq, Option.map_some, ptrOf_perm hperm h.mid_ne, expected]
  | insert id =>
    have hexpected : (insert id).expected m = if (ptrOf l id.mid).isSome then (m, .code (-1))
        else if l.length = MDB_IDL_UM_MAX then (m, .code (-2)) else (id :: m, .code 0) := by
      rw [expected, ptrOf_perm hperm h.mid_ne, hperm.length_eq]
    rw [hexpected, exec]
    obtain ⟨⟨y, hy, hid⟩, hins⟩ | ⟨hnew, hfull, hins⟩ | ⟨a, b, ids', rfl, hnew, hroom, hins, hids'⟩ := h.insert id
    · rw [← hid, ptrOf_eq_some h.mid_ne hy, hins, Option.isSome_some, if_pos rfl]
      exact ⟨ids, l, rfl, hperm, h⟩
    · rw [ptrOf_eq_none hnew, hins, Option.isSome_none, if_neg Bool.false_ne_true, if_pos hfull]
      exact ⟨ids, l, rfl, hperm, h⟩
    · rw [ptrOf_eq_none hnew, hins, Option.isSome_none, if_neg Bool.false_ne_true, if_neg (Nat.ne_of_lt hroom)]
      exact ⟨ids', a ++ id :: b, rfl, List.perm_middle.trans (hperm.cons id), hids'⟩

/-- **A run** from a list that holds the IDs. -/
theorem listRun_expected {l m ids : List (MdbId2 α)} (hperm : l.Perm m) (h : Id2l l ids) (calls : List (ListCall α)) :
    ∃ ids' l', listRun ids calls = some (ids', (expectedRun m calls).2) ∧ l'.Perm (expectedRun m calls).1 ∧
      Id2l l' ids' := by
  induction calls generalizing l m ids with
  | nil => exact ⟨ids, l, rfl, hperm, h⟩
  | cons call calls ih =>
    obtain ⟨ids₁, l₁, hexec, hperm₁, h₁⟩ := call.exec_expected hperm h
    obtain ⟨ids₂, l₂, hrun, hperm₂, h₂⟩ := ih hperm₁ h₁
    refine ⟨ids₂, l₂, ?_, hperm₂, h₂⟩
    rw [listRun, hexec]
    simp only [Option.bind_eq_bind, Option.bind_some, hrun]
    rfl

/-- **The dirty list of a transaction** is a finite map: it begins with no ID. -/
theorem inserts_refine (calls : List (ListCall α)) {head : MdbId2 α} {rest : List (MdbId2 α)} (hhead : head.mid = 0)
    (hsize : (head :: rest).length = MDB_IDL_UM_SIZE) :
    ∃ ids l, listRun (head :: rest) calls = some (ids, (expectedRun [] calls).2) ∧ l.Perm (expectedRun [] calls).1 ∧
      Id2l l ids :=
  listRun_expected (List.Perm.refl []) ⟨List.Pairwise.nil, ⟨head, rest, rfl, by rw [hhead]; rfl⟩, hsize⟩ calls

theorem inserts_refine_sample :
    ∃ ids l, listRun (⟨0, 0⟩ :: List.replicate 131071 ⟨0, 0⟩) [.insert ⟨7, 1⟩, .insert ⟨3, 2⟩, .insert ⟨7, 4⟩, .page 7] =
      some (ids, [.code 0, .code 0, .code (-1), .page (some 1)]) ∧ l.Perm [⟨3, 2⟩, ⟨7, 1⟩] ∧ Id2l l ids :=
  inserts_refine [.insert ⟨7, 1⟩, .insert ⟨3, 2⟩, .insert ⟨7, 4⟩, .page 7] rfl
    (by rw [List.length_cons, List.length_replicate]; rfl)

end Rkx.Midl
