import Mathlib.Algebra.Group.Nat.Defs
import Rkx.Lib.InPlace
import Rkx.Midl

/-!
# The quicksort of ID lists

* `insertionSort_sorts`: a short segment;
* `partition_parts`: a long one is cut in two;
* `Sorting`, `sortTurn_sorting`: what every turn keeps; `Sorting.room`: `istack` never overflows;
* `sorts_descending`: the whole list.
-/

set_option autoImplicit false

namespace Rkx.Midl

open Lib.CInt Lib.InPlace Lib.OptionLoop Lib.While

/-! ## Short segments -/

theorem store?_eq {α : Type} {ids : List α} {i : Nat} (h : i < ids.length) (a : α) :
    store? ids i a = some (ids.set i a) := if_pos h

/-- **The inner loop** moves the smaller IDs up by one. -/
theorem shiftLoop_shifts (a : MDB_ID) {i : Nat} {ids : List MDB_ID} (hi : i + 1 < ids.length) :
    ∃ ids' p, shiftLoop a i ids = some (ids', p) ∧ p ≤ i ∧ Rearranges (p + 1) (i + 1) (ids.set (i + 1) a) (ids'.set (p + 1) a) ∧
      ids'.length = ids.length ∧ (∀ x, x ≤ p → ids'[x]? = ids[x]?) ∧ (∀ x, p < x → x ≤ i → ids'[x + 1]? = ids[x]?) ∧
      (p = 0 ∨ ∃ b, ids[p]? = some b ∧ a ≤ b) ∧ ∀ x b, p < x → x ≤ i → ids[x]? = some b → b < a := by
  induction i generalizing ids with
  | zero => exact ⟨ids, 0, rfl, Nat.le_refl 0, .refl _ _ _, rfl, fun _ _ => rfl, by omega, Or.inl rfl, by omega⟩
  | succ i ih =>
    obtain ⟨b, hb⟩ : ∃ b, ids[i + 1]? = some b := ⟨_, List.getElem?_eq_getElem (by omega)⟩
    rw [shiftLoop, hb]
    simp only [Option.bind_eq_bind, Option.bind_some]
    by_cases hle : a ≤ b
    · rw [if_pos hle]
      exact ⟨ids, i + 1, rfl, Nat.le_refl _, .refl _ _ _, rfl, fun _ _ => rfl, by omega, Or.inr ⟨b, hb, hle⟩, by omega⟩
    · rw [if_neg hle, store?_eq hi, Option.bind_some]
      obtain ⟨ids', p, hloop, hp, hrearr, hlen, hsame, hmoved, hstop, hless⟩ :=
        @ih (ids.set (i + 2) b) (by rw [List.length_set]; omega)
      -- the ID that is sorted in changes places with the one that is moved
      have hswap : Rearranges (i + 1) (i + 2) (ids.set (i + 2) a) ((ids.set (i + 2) b).set (i + 1) a) := by
        have hother : (ids.set (i + 2) a)[i + 1]? = some b := by rw [List.getElem?_set_ne (by omega), hb]
        have h := rearranges_swap (l := i + 1) (r := i + 2) (by omega) (by omega) (by omega) (by omega)
          (List.getElem?_set_self hi) hother
        rwa [List.set_set] at h
      refine ⟨ids', p, hloop, by omega, ?_, by rw [hlen, List.length_set], ?_, ?_, ?_, ?_⟩
      · exact (hswap.mono (by omega) (by omega)).trans (hrearr.mono (Nat.le_refl _) (by omega))
      · intro x hx
        rw [hsame x hx, List.getElem?_set_ne (by omega)]
      · intro x hpx hxi
        obtain rfl | hlt := Nat.eq_or_lt_of_le hxi
        · have hout := hrearr.outside (i + 2) (Or.inr (by omega))
          rw [List.getElem?_set_ne (by omega), List.getElem?_set_ne (by omega), List.getElem?_set_self hi] at hout
          rw [hout, hb]
        · rw [hmoved x hpx (by omega), List.getElem?_set_ne (by omega)]
      · obtain rfl | ⟨d, hd, hle'⟩ := hstop
        · exact Or.inl rfl
        · exact Or.inr ⟨d, by rwa [List.getElem?_set_ne (by omega)] at hd, hle'⟩
      · intro x d hpx hxi hd
        obtain rfl | hlt := Nat.eq_or_lt_of_le hxi
        · rw [hb] at hd
          cases hd
          exact UInt64.not_le.1 hle
        · exact hless x d hpx (by omega) (by rwa [List.getElem?_set_ne (by omega)])

/-- Nothing in front of the segment is smaller than one of its IDs. -/
def Guarded (l r : Nat) (ids : List MDB_ID) : Prop :=
  l = 1 ∨ ∃ b, ids[l - 1]? = some b ∧ ∀ x a, l ≤ x → x ≤ r → ids[x]? = some a → a ≤ b

theorem Guarded.rearranges {l r r' : Nat} {ids ids' : List MDB_ID} (h : Guarded l r ids) (hl : 1 ≤ l)
    (hids : Rearranges l r' ids ids') (hr : r' ≤ r) : Guarded l r ids' := by
  obtain rfl | ⟨b, hb, hle⟩ := h
  · exact Or.inl rfl
  · refine Or.inr ⟨b, by rw [hids.outside _ (by omega), hb], ?_⟩
    intro x a hlx hxr ha
    by_cases hx : x ≤ r'
    · obtain ⟨y, hly, hyr, hy⟩ := hids.inside x hlx hx
      rw [hy] at ha
      exact hle y a hly (by omega) ha
    · rw [hids.outside x (by omega)] at ha
      exact hle x a hlx hxr ha

/-- One ID more is in order. -/
theorem insertion_step {l j : Nat} {ids : List MDB_ID} (hl : 1 ≤ l) (hlj : l < j) (hj : j < ids.length)
    (hdesc : Desc l (j - 1) ids) (hguard : Guarded l j ids) {a : MDB_ID} (ha : ids[j]? = some a) :
    ∃ ids' p ids'', shiftLoop a (j - 1) ids = some (ids', p) ∧ store? ids' (p + 1) a = some ids'' ∧
      Rearranges l j ids ids'' ∧ Desc l j ids'' := by
  obtain ⟨i, rfl⟩ : ∃ i, j = i + 1 := ⟨j - 1, by omega⟩
  rw [Nat.add_sub_cancel] at hdesc ⊢
  obtain ⟨ids', p, hloop, hp, hrearr, hlen, hsame, hmoved, hstop, hless⟩ := shiftLoop_shifts a hj
  have hset : ids.set (i + 1) a = ids := by
    obtain ⟨hlt, rfl⟩ := List.getElem?_eq_some_iff.1 ha
    exact List.set_getElem_self hlt
  have hlp : l ≤ p + 1 := by
    obtain rfl | ⟨b, hb, hle⟩ := hguard
    · omega
    · by_contra hlt
      have hba := hless (l - 1) b (by omega) (by omega) hb
      exact UInt64.not_lt.2 (hle (i + 1) a (by omega) (Nat.le_refl _) ha) hba
  rw [hset] at hrearr
  refine ⟨ids', p, _, hloop, store?_eq (by omega) a, hrearr.mono hlp (Nat.le_refl _), ?_⟩
  have hget : ∀ x, x ≤ i + 1 → (ids'.set (p + 1) a)[x]? =
      if x ≤ p then ids[x]? else if x = p + 1 then some a else ids[x - 1]? := by
    intro x hx
    split
    · rw [List.getElem?_set_ne (by omega), hsame x ‹_›]
    · split
      · rename_i heq
        rw [heq, List.getElem?_set_self (by omega)]
      · obtain ⟨x, rfl⟩ : ∃ k, x = k + 1 := ⟨x - 1, by omega⟩
        rw [List.getElem?_set_ne (by omega), hmoved x (by omega) (by omega), Nat.add_sub_cancel]
  intro x y b d hlx hxy hy hb hd
  rw [hget x (by omega)] at hb
  rw [hget y hy] at hd
  by_cases hyp : y ≤ p
  · -- both in front of the place
    rw [if_pos (by omega)] at hb
    rw [if_pos hyp] at hd
    exact hdesc x y b d hlx hxy (by omega) hb hd
  · rw [if_neg hyp] at hd
    by_cases hxp : x ≤ p
    · rw [if_pos hxp] at hb
      split at hd
      · cases hd
        obtain rfl | ⟨e, he, hle⟩ := hstop
        · omega
        · obtain rfl | hlt := Nat.eq_or_lt_of_le hxp
          · rw [he] at hb
            cases hb
            exact hle
          · exact UInt64.le_trans hle (hdesc x p b e hlx hlt hp hb he)
      · exact hdesc x (y - 1) b d hlx (by omega) (by omega) hb hd
    · rw [if_neg hxp] at hb
      rw [if_neg (by omega)] at hd
      split at hb
      · cases hb
        exact UInt64.le_of_lt (hless (y - 1) d (by omega) (by omega) hd)
      · exact hdesc (x - 1) (y - 1) b d (by omega) (by omega) (by omega) hb hd

/-- **A short segment** is sorted. -/
theorem insertionSort_sorts {l : Nat} (hl : 1 ≤ l) (k : Nat) {j : Nat} {ids : List MDB_ID} (hlj : l < j)
    (hj : j + k ≤ ids.length) (hdesc : Desc l (j - 1) ids) (hguard : Guarded l (j + k - 1) ids) :
    ∃ ids', insertionSort k j ids = some ids' ∧ Rearranges l (j + k - 1) ids ids' ∧ Desc l (j + k - 1) ids' := by
  induction k generalizing j ids with
  | zero => exact ⟨ids, rfl, .refl _ _ _, hdesc⟩
  | succ k ih =>
    obtain ⟨a, ha⟩ : ∃ a, ids[j]? = some a := ⟨_, List.getElem?_eq_getElem (by omega)⟩
    have hguard' : Guarded l j ids := hguard.imp_right fun ⟨b, hb, hle⟩ =>
      ⟨b, hb, fun x d hlx hxj => hle x d hlx (by omega)⟩
    obtain ⟨ids₁, p, ids₂, hloop, hstore, hrearr, hdesc₂⟩ := insertion_step hl hlj (by omega) hdesc hguard' ha
    have hlen := hrearr.length_eq
    have hguard₂ := hguard.rearranges hl hrearr (by omega)
    rw [show j + (k + 1) - 1 = j + 1 + k - 1 by omega] at hguard₂ ⊢
    obtain ⟨ids', hsort, hrearr', hdesc'⟩ := ih (j := j + 1) (by omega) (by omega) hdesc₂ hguard₂
    refine ⟨ids', ?_, (hrearr.mono (Nat.le_refl l) (by omega)).trans hrearr', hdesc'⟩
    rw [insertionSort, ha]
    simp only [Option.bind_eq_bind, Option.bind_some, hloop, hstore]
    exact hsort

/-! ## Long segments -/

theorem swap?_eq {α : Type} {ids : List α} {i j : Nat} {a b : α} (hi : ids[i]? = some a) (hj : ids[j]? = some b) :
    swap? ids i j = some ((ids.set i b).set j a) := by
  have hilt := (List.getElem?_eq_some_iff.1 hi).1
  have hjlt := (List.getElem?_eq_some_iff.1 hj).1
  unfold swap?
  simp only [hi, hj, Option.bind_eq_bind, Option.bind_some]
  rw [store?_eq hilt, Option.bind_some, store?_eq (by rwa [List.length_set])]

/-- The larger one of the two comes first. -/
theorem swapLess?_orders {l r : Nat} {ids : List MDB_ID} {i j : Nat} {a b : MDB_ID} (hli : l ≤ i) (hir : i ≤ r)
    (hlj : l ≤ j) (hjr : j ≤ r) (hij : i ≠ j) (hi : ids[i]? = some a) (hj : ids[j]? = some b) :
    ∃ ids' x y, swapLess? ids i j = some ids' ∧ Rearranges l r ids ids' ∧ ids'[i]? = some x ∧ ids'[j]? = some y ∧
      (y ≤ x ∧ y ≤ a ∧ y ≤ b ∧ ∀ z, z ≤ a → z ≤ b → z ≤ y) ∧ ∀ k, k ≠ i → k ≠ j → ids'[k]? = ids[k]? := by
  unfold swapLess?
  simp only [hi, hj, Option.bind_eq_bind, Option.bind_some]
  split
  · rename_i hless
    have hle := UInt64.le_of_lt hless
    refine ⟨_, b, a, swap?_eq hi hj, rearranges_swap hli hir hlj hjr hi hj, ?_, ?_, ?_, ?_⟩
    · rw [getElem?_swap hi hj, if_neg hij, if_pos rfl]
    · rw [getElem?_swap hi hj, if_pos rfl]
    · exact ⟨hle, UInt64.le_refl a, hle, fun _ hz _ => hz⟩
    · intro k hki hkj
      rw [getElem?_swap hi hj, if_neg hkj, if_neg hki]
  · rename_i hless
    have hle := UInt64.not_lt.1 hless
    exact ⟨ids, a, b, rfl, .refl _ _ _, hi, hj, ⟨hle, hle, UInt64.le_refl b, fun _ _ hz => hz⟩, fun _ _ _ => rfl⟩

/-- **The median of three** is behind the largest one. -/
theorem median?_orders {l ir : Nat} {ids : List MDB_ID} (hl : l + 2 < ir) (hlen : ir < ids.length) :
    ∃ ids' d a f, median? ids l ir = some ids' ∧ Rearranges l ir ids ids' ∧ ids'[l]? = some d ∧ ids'[l + 1]? = some a ∧
      ids'[ir]? = some f ∧ a ≤ d ∧ f ≤ a := by
  have hsome : ∀ ids' : List MDB_ID, Rearranges l ir ids ids' → ∀ x, x ≤ ir → ∃ a, ids'[x]? = some a := by
    intro ids' h x hx
    have hlen' := h.length_eq
    exact ⟨_, List.getElem?_eq_getElem (by omega)⟩
  obtain ⟨a₀, ha₀⟩ := hsome ids (.refl _ _ _) ((l + ir) / 2) (by omega)
  obtain ⟨b₀, hb₀⟩ := hsome ids (.refl _ _ _) (l + 1) (by omega)
  have hswap := swap?_eq ha₀ hb₀
  have h₁ : Rearranges l ir ids _ := rearranges_swap (by omega) (by omega) (by omega) (by omega) ha₀ hb₀
  obtain ⟨d, hd⟩ := hsome _ h₁ l (by omega)
  obtain ⟨e, he⟩ := hsome _ h₁ (l + 1) (by omega)
  obtain ⟨f, hf⟩ := hsome _ h₁ ir (by omega)
  obtain ⟨ids₂, d₂, f₂, hless₁, h₂, hd₂, hf₂, hfd, hsame₂⟩ :=
    swapLess?_orders (Nat.le_refl l) (by omega) (by omega) (Nat.le_refl ir) (by omega) hd hf
  have he₂ := (hsame₂ (l + 1) (by omega) (by omega)).trans he
  obtain ⟨ids₃, e₃, f₃, hless₂, h₃, he₃, hf₃, hfe, hsame₃⟩ :=
    swapLess?_orders (show l ≤ l + 1 by omega) (by omega) (by omega) (Nat.le_refl ir) (by omega) he₂ hf₂
  have hd₃ := (hsame₃ l (by omega) (by omega)).trans hd₂
  obtain ⟨ids₄, d₄, e₄, hless₃, h₄, hd₄, he₄, hed, hsame₄⟩ :=
    swapLess?_orders (Nat.le_refl l) (by omega) (show l ≤ l + 1 by omega) (show l + 1 ≤ ir by omega) (by omega) hd₃ he₃
  have hf₄ := (hsame₄ ir (by omega) (by omega)).trans hf₃
  refine ⟨ids₄, d₄, e₄, f₃, ?_, ((h₁.trans h₂).trans h₃).trans h₄, hd₄, he₄, hf₄, hed.1, ?_⟩
  · unfold median?
    simp only [hswap, hless₁, hless₂, hless₃, Option.bind_eq_bind, Option.bind_some]
  · exact hed.2.2.2 f₃ (UInt64.le_trans hfe.2.2.1 hfd.1) hfe.1

theorem scanUp_stops {ids : List MDB_ID} {a b : MDB_ID} {i stop : Nat} (hi : i < stop) (hb : ids[stop]? = some b)
    (hle : b ≤ a) :
    ∃ i' c, scanUp ids a i = some i' ∧ i < i' ∧ i' ≤ stop ∧ ids[i']? = some c ∧ c ≤ a ∧
      ∀ x d, i < x → x < i' → ids[x]? = some d → a < d := by
  have hlt := (List.getElem?_eq_some_iff.1 hb).1
  induction hn : stop - i using Nat.strongRecOn generalizing i with
  | ind n ih =>
    have hget : ids[i + 1]? = some ids[i + 1] := List.getElem?_eq_getElem (by omega)
    rw [scanUp, dif_pos (by omega)]
    split
    · rename_i hless
      have hne : i + 1 ≠ stop := by
        rintro rfl
        rw [hget] at hb
        cases hb
        exact UInt64.not_lt.2 hle hless
      obtain ⟨i', c, hscan, hlo, hhi, hc, hca, hpassed⟩ := ih (stop - (i + 1)) (by omega) (by omega) rfl
      refine ⟨i', c, hscan, by omega, hhi, hc, hca, ?_⟩
      intro x d hx hxi hd
      obtain rfl | hxlt := Nat.eq_or_lt_of_le hx
      · rw [hget] at hd
        cases hd
        exact hless
      · exact hpassed x d hxlt hxi hd
    · rename_i hless
      exact ⟨i + 1, _, rfl, by omega, by omega, hget, UInt64.not_lt.1 hless, by omega⟩

theorem scanDown_stops {ids : List MDB_ID} {a b : MDB_ID} {j stop : Nat} (hj : stop < j) (hlen : j ≤ ids.length)
    (hb : ids[stop]? = some b) (hle : a ≤ b) :
    ∃ j' c, scanDown ids a j = some j' ∧ stop ≤ j' ∧ j' < j ∧ ids[j']? = some c ∧ a ≤ c ∧
      ∀ x d, j' < x → x < j → ids[x]? = some d → d < a := by
  induction j with
  | zero => exact absurd hj (Nat.not_lt_zero _)
  | succ j ih =>
    obtain ⟨e, he⟩ : ∃ e, ids[j]? = some e := ⟨_, List.getElem?_eq_getElem (by omega)⟩
    rw [scanDown, he]
    simp only [Option.bind_eq_bind, Option.bind_some]
    split
    · rename_i hless
      have hne : j ≠ stop := by
        rintro rfl
        rw [he] at hb
        cases hb
        exact UInt64.not_lt.2 hle hless
      obtain ⟨j', c, hscan, hlo, hhi, hc, hac, hpassed⟩ := ih (by omega) (by omega)
      refine ⟨j', c, hscan, hlo, by omega, hc, hac, ?_⟩
      intro x d hx hxj hd
      obtain rfl | hxlt := Nat.eq_or_lt_of_le (Nat.le_of_lt_succ hxj)
      · rw [he] at hd
        cases hd
        exact hless
      · exact hpassed x d hx hxlt hd
    · rename_i hless
      exact ⟨j, e, rfl, by omega, by omega, he, UInt64.not_lt.1 hless, by omega⟩

/-- What the inner loop keeps: IDs not below the pivot up to `i`, and IDs not above it from `j` on. -/
structure Parting (l ir : Nat) (ids₀ : List MDB_ID) (a : MDB_ID) (t : List MDB_ID × Nat × Nat) : Prop where
  rearranges : Rearranges l ir ids₀ t.1
  pivot : t.1[l + 1]? = some a
  head : ∃ d, t.1[l]? = some d ∧ a ≤ d
  tail : ∃ d, t.1[ir]? = some d ∧ d ≤ a
  left : ∀ x d, l + 1 < x → x ≤ t.2.1 → t.1[x]? = some d → a ≤ d
  right : ∀ x d, t.2.2 ≤ x → x ≤ ir → t.1[x]? = some d → d ≤ a
  le_i : l + 1 ≤ t.2.1
  i_lt : t.2.1 < ir
  lt_j : l + 1 < t.2.2
  j_le : t.2.2 ≤ ir

/-- What it leaves with. -/
structure Parted (l ir : Nat) (ids₀ : List MDB_ID) (a : MDB_ID) (ids : List MDB_ID) (i j : Nat) : Prop where
  rearranges : Rearranges l ir ids₀ ids
  pivot : ids[l + 1]? = some a
  head : ∃ d, ids[l]? = some d ∧ a ≤ d
  cross : ∃ d, ids[j]? = some d ∧ a ≤ d
  left : ∀ x d, l + 1 < x → x < i → ids[x]? = some d → a ≤ d
  right : ∀ x d, j < x → x ≤ ir → ids[x]? = some d → d ≤ a
  lt_j : l < j
  j_lt : j < i
  i_le : i ≤ ir

theorem parting_start {l ir : Nat} {ids₀ ids : List MDB_ID} {a d f : MDB_ID} (h : Rearranges l ir ids₀ ids)
    (hl : l + 2 < ir) (hd : ids[l]? = some d) (had : a ≤ d) (ha : ids[l + 1]? = some a) (hf : ids[ir]? = some f)
    (hfa : f ≤ a) : Parting l ir ids₀ a (ids, l + 1, ir) where
  rearranges := h
  pivot := ha
  head := ⟨d, hd, had⟩
  tail := ⟨f, hf, hfa⟩
  left x _ hlx hx _ := absurd hx (Nat.not_le.2 hlx)
  right x b hrx hx hb := by
    obtain rfl : x = ir := Nat.le_antisymm hx hrx
    rw [hf] at hb
    cases hb
    exact hfa
  le_i := Nat.le_refl _
  i_lt := show l + 1 < ir by omega
  lt_j := show l + 1 < ir by omega
  j_le := Nat.le_refl _

theorem partTurn_parting {l ir : Nat} {ids₀ : List MDB_ID} {a : MDB_ID} (hlen : ir < ids₀.length)
    (t : List MDB_ID × Nat × Nat) (h : Parting l ir ids₀ a t) :
    (∃ t', partTurn a t = .next t' ∧ Parting l ir ids₀ a t' ∧ ir - t'.2.1 < ir - t.2.1) ∨
      ∃ r, partTurn a t = .leave r ∧ ∃ ids i j, r = some (ids, i, j) ∧ Parted l ir ids₀ a ids i j := by
  obtain ⟨ids, i, j⟩ := t
  obtain ⟨hrearr, hpivot, hhead, ⟨f, hf, hfa⟩, hleft, hright, hli, hir, hlj, hjr⟩ := h
  simp only at hrearr hpivot hhead hf hleft hright hli hir hlj hjr
  have hlen' := hrearr.length_eq
  obtain ⟨i', b, hup, hii', hi'r, hb, hba, hpassed⟩ := scanUp_stops hir hf hfa
  obtain ⟨j', c, hdown, hlj', hj'j, hc, hac, hpassed'⟩ := scanDown_stops hlj (by omega) hpivot (UInt64.le_refl a)
  have hleft' : ∀ x d, l + 1 < x → x < i' → ids[x]? = some d → a ≤ d := by
    intro x d hlx hxi hd
    by_cases hx : x ≤ i
    · exact hleft x d hlx hx hd
    · exact UInt64.le_of_lt (hpassed x d (by omega) hxi hd)
  have hright' : ∀ x d, j' < x → x ≤ ir → ids[x]? = some d → d ≤ a := by
    intro x d hjx hxr hd
    by_cases hx : j ≤ x
    · exact hright x d hx hxr hd
    · exact UInt64.le_of_lt (hpassed' x d hjx (by omega) hd)
  unfold partTurn
  simp only [hup, hdown]
  by_cases hcross : j' < i'
  · right
    rw [if_pos hcross]
    exact ⟨_, rfl, ids, i', j', rfl, hrearr, hpivot, hhead, ⟨c, hc, hac⟩, hleft', hright', by omega, hcross, hi'r⟩
  · left
    rw [if_neg hcross, swap?_eq hb hc]
    have hget := getElem?_swap hb hc
    refine ⟨_, rfl, ⟨?_, ?_, ?_, ?_, ?_, ?_, ?_, ?_, ?_, ?_⟩, ?_⟩
    · exact hrearr.trans (rearranges_swap (by omega) (by omega) (by omega) (by omega) hb hc)
    · show ((ids.set i' c).set j' b)[l + 1]? = some a
      rw [hget, if_neg (by omega), if_neg (by omega), hpivot]
    · obtain ⟨d, hd, had⟩ := hhead
      refine ⟨d, ?_, had⟩
      show ((ids.set i' c).set j' b)[l]? = some d
      rw [hget, if_neg (by omega), if_neg (by omega), hd]
    · refine ⟨f, ?_, hfa⟩
      show ((ids.set i' c).set j' b)[ir]? = some f
      rw [hget, if_neg (by omega), if_neg (by omega), hf]
    · intro x d hlx hxi hd
      simp only at hxi hd
      rw [hget] at hd
      split at hd
      · rename_i hxj
        obtain rfl : i' = j' := by omega
        cases hd
        rw [hb] at hc
        cases hc
        exact hac
      · split at hd
        · cases hd
          exact hac
        · exact hleft' x d hlx (by omega) hd
    · intro x d hjx hxr hd
      simp only at hjx hd
      rw [hget] at hd
      split at hd
      · cases hd
        exact hba
      · rw [if_neg (by omega)] at hd
        exact hright' x d (by omega) hxr hd
    · show l + 1 ≤ i'
      omega
    · show i' < ir
      omega
    · show l + 1 < j'
      omega
    · show j' ≤ ir
      omega
    · show ir - i' < ir - i
      omega

/-- **A long segment** is cut in two, with the larger IDs in front. -/
theorem partition_parts {turns l ir : Nat} {ids : List MDB_ID} (hl : l + 2 < ir) (hlen : ir < ids.length)
    (hturns : ir - l < turns) :
    ∃ ids' i j, partition? turns ids l ir = some (ids', i, j) ∧ Rearranges l ir ids ids' ∧ l < j ∧ j < i ∧ i ≤ ir ∧
      ∀ x y a b, l ≤ x → x < y → y ≤ ir → ¬ y < j → ¬ i ≤ x → ids'[x]? = some a → ids'[y]? = some b → b ≤ a := by
  obtain ⟨ids₁, d, a, f, hmedian, h₁, hd, ha, hf, had, hfa⟩ := median?_orders hl hlen
  obtain ⟨r, hrun, ids₂, i, j, rfl, hparted⟩ := run_rule (m := fun t => ir - t.2.1)
    (partTurn_parting hlen) (parting_start h₁ hl hd had ha hf hfa) (show ir - (l + 1) < turns by omega)
  obtain ⟨h₂, hpivot, hhead, ⟨c, hc, hac⟩, hleft, hright, hlj, hji, hir⟩ := hparted
  have hlen₂ := h₂.length_eq
  have hget := getElem?_swap hpivot hc
  refine ⟨(ids₂.set (l + 1) c).set j a, i, j, ?_, ?_, hlj, hji, hir, ?_⟩
  · unfold partition?
    simp only [hmedian, ha, hrun, hc, Option.bind_eq_bind, Option.bind_some, Option.join_some]
    rw [store?_eq (by omega), Option.bind_some, store?_eq (by rw [List.length_set]; omega)]
    rfl
  · exact h₂.trans (rearranges_swap (by omega) (by omega) (by omega) (by omega) hpivot hc)
  · -- the pivot lies between the two
    have hlarge : ∀ x b, l ≤ x → x < i → ((ids₂.set (l + 1) c).set j a)[x]? = some b → a ≤ b := by
      intro x b hlx hxi hb
      rw [hget] at hb
      split at hb
      · cases hb
        exact UInt64.le_refl a
      · split at hb
        · cases hb
          exact hac
        · obtain rfl | hlt := Nat.eq_or_lt_of_le hlx
          · obtain ⟨d, hd, had⟩ := hhead
            rw [hd] at hb
            cases hb
            exact had
          · exact hleft x b (by omega) hxi hb
    have hsmall : ∀ y b, j ≤ y → y ≤ ir → ((ids₂.set (l + 1) c).set j a)[y]? = some b → b ≤ a := by
      intro y b hjy hyr hb
      rw [hget] at hb
      split at hb
      · cases hb
        exact UInt64.le_refl a
      · rw [if_neg (by omega)] at hb
        exact hright y b (by omega) hyr hb
    intro x y b e hlx hxy hyr hyj hix hb he
    exact UInt64.le_trans (hsmall y e (by omega) hyr he) (hlarge x b hlx (by omega) hb)

/-! ## The whole list -/

/-- How many IDs a segment has. -/
def segSize (t : Nat × Nat) : Nat := t.2 + 1 - t.1

/-- Every segment is at most half as long as the bound for the one under it. -/
def Shallow (n : Nat) : List (Nat × Nat) → Prop
  | [] => True
  | t :: istack => segSize t * 2 ^ istack.length ≤ n ∧ Shallow n istack

/-- The segments that are still to be sorted. -/
def SortState.segs (s : SortState) : List (Nat × Nat) := (s.l, s.ir) :: s.istack

/-- **What every turn keeps**: only inside of the segments the IDs may be out of order. -/
structure Sorting (n : Nat) (ids₀ : List MDB_ID) (s : SortState) : Prop where
  rearranges : Rearranges 1 n ids₀ s.ids
  ordered : OrderedBut s.segs n s.ids
  apart : s.segs.Pairwise Apart
  within : ∀ t ∈ s.segs, 1 ≤ t.1 ∧ t.2 ≤ n
  nonempty : ∀ t ∈ s.segs, t.1 ≤ t.2
  shallow : Shallow n s.segs

theorem Sorting.guarded {n : Nat} {ids₀ : List MDB_ID} {s : SortState} (h : Sorting n ids₀ s) (hn : n < ids₀.length) :
    Guarded s.l s.ir s.ids := by
  obtain ⟨hrearr, hordered, hapart, hwithin, hnonempty, -⟩ := h
  obtain ⟨hl, hir⟩ := hwithin _ List.mem_cons_self
  have hle := hnonempty _ List.mem_cons_self
  have hlen := hrearr.length_eq
  simp only at hl hir hle
  by_cases h1 : s.l = 1
  · exact Or.inl h1
  · refine Or.inr ⟨s.ids[s.l - 1], List.getElem?_eq_getElem (by omega), ?_⟩
    intro x a hlx hxr ha
    refine hordered (s.l - 1) x _ a (by omega) (by omega) (by omega) ?_ (List.getElem?_eq_getElem (by omega)) ha
    intro t ht
    obtain rfl | ht := List.mem_cons.1 ht
    · simp only
      omega
    · have hout := (List.pairwise_cons.1 hapart).1 t ht
      unfold Apart at hout
      simp only at hout
      omega

/-- The current segment is sorted. -/
theorem Sorting.short {n : Nat} {ids₀ : List MDB_ID} {s : SortState} (h : Sorting n ids₀ s) (hn : n < ids₀.length) :
    ∃ ids', insertionSort (s.ir - s.l) (s.l + 1) s.ids = some ids' ∧ Rearranges 1 n ids₀ ids' ∧
      OrderedBut s.istack n ids' := by
  have hlen := h.rearranges.length_eq
  obtain ⟨hl, hir⟩ := h.within _ List.mem_cons_self
  have hle := h.nonempty _ List.mem_cons_self
  simp only at hl hir hle
  have hend : s.l + 1 + (s.ir - s.l) - 1 = s.ir := by omega
  have hguard := h.guarded hn
  rw [← hend] at hguard
  obtain ⟨ids', hsort, hrearr, hdesc⟩ := insertionSort_sorts hl (s.ir - s.l) (Nat.lt_succ_self s.l) (by omega)
    (fun x y _ _ _ _ _ => by omega) hguard
  rw [hend] at hrearr hdesc
  refine ⟨ids', hsort, h.rearranges.trans (hrearr.mono hl hir), ?_⟩
  exact h.ordered.sorted hl hir (List.pairwise_cons.1 h.apart).1 hrearr hdesc

/-- The first segment is the one that the next turn works on, the second one is pushed. -/
theorem Sorting.cut {n : Nat} {ids₀ ids' : List MDB_ID} {s : SortState} (h : Sorting n ids₀ s) {p q : Nat × Nat}
    (hids : Rearranges s.l s.ir s.ids ids') (hp : s.l ≤ p.1 ∧ p.1 ≤ p.2 ∧ p.2 ≤ s.ir)
    (hq : s.l ≤ q.1 ∧ q.1 ≤ q.2 ∧ q.2 ≤ s.ir) (hpq : Apart p q) (hsize : segSize p ≤ segSize q)
    (hparts : ∀ x y a b, s.l ≤ x → x < y → y ≤ s.ir → (∀ t ∈ [p, q], ¬ (t.1 ≤ x ∧ y ≤ t.2)) → ids'[x]? = some a →
      ids'[y]? = some b → b ≤ a) :
    Sorting n ids₀ ⟨ids', p.1, p.2, q :: s.istack⟩ := by
  obtain ⟨hrearr, hordered, hapart, hwithin, hnonempty, hshallow⟩ := h
  obtain ⟨hl, hir⟩ := hwithin _ List.mem_cons_self
  obtain ⟨hout, hapart⟩ := List.pairwise_cons.1 hapart
  have hinside : ∀ t : Nat × Nat, s.l ≤ t.1 → t.2 ≤ s.ir → ∀ u ∈ s.istack, Apart t u := by
    intro t hlt htr u hu
    have hu' := hout u hu
    unfold Apart at hu' ⊢
    simp only at hu'
    omega
  constructor
  · exact hrearr.trans (hids.mono hl hir)
  · exact hordered.refine [p, q] hl hir hout hids hparts
  · refine List.pairwise_cons.2 ⟨?_, List.pairwise_cons.2 ⟨hinside q hq.1 hq.2.2, hapart⟩⟩
    intro u hu
    obtain rfl | hu := List.mem_cons.1 hu
    · exact hpq
    · exact hinside p hp.1 hp.2.2 u hu
  · intro t ht
    simp only [SortState.segs, List.mem_cons] at ht
    obtain rfl | rfl | ht := ht
    · exact ⟨Nat.le_trans hl hp.1, Nat.le_trans hp.2.2 hir⟩
    · exact ⟨Nat.le_trans hl hq.1, Nat.le_trans hq.2.2 hir⟩
    · exact hwithin t (List.mem_cons_of_mem _ ht)
  · intro t ht
    simp only [SortState.segs, List.mem_cons] at ht
    obtain rfl | rfl | ht := ht
    · exact hp.2.1
    · exact hq.2.1
    · exact hnonempty t (List.mem_cons_of_mem _ ht)
  · -- the two do not meet, and the first one is not the longer one
    obtain ⟨hdeep, hrest⟩ := hshallow
    unfold Apart at hpq
    simp only [segSize] at hdeep hsize hpq
    have hhalf : 2 * segSize p ≤ segSize (s.l, s.ir) := by
      simp only [segSize]
      omega
    have hless : segSize q ≤ segSize (s.l, s.ir) := by
      simp only [segSize]
      omega
    refine ⟨?_, Nat.le_trans (Nat.mul_le_mul_right _ hless) hdeep, hrest⟩
    calc segSize p * 2 ^ (q :: s.istack).length = 2 * segSize p * 2 ^ s.istack.length := by
          rw [List.length_cons, Nat.pow_succ, Nat.mul_comm (2 ^ _) 2, ← Nat.mul_assoc, Nat.mul_comm 2]
      _ ≤ segSize (s.l, s.ir) * 2 ^ s.istack.length := Nat.mul_le_mul_right _ hhalf
      _ ≤ n := hdeep

/-- What is left to sort. -/
def total : List (Nat × Nat) → Nat
  | [] => 0
  | t :: segs => segSize t + total segs

/-- There is room in `istack` for one pair more. -/
theorem Sorting.room {n : Nat} {ids₀ : List MDB_ID} {s : SortState} (h : Sorting n ids₀ s) (hmax : n ≤ 1073741824)
    (hlong : SMALL ≤ s.ir - s.l) : 2 * (s.istack.length + 1) < 64 := by
  by_contra hfull
  have hpow : 2 ^ 31 ≤ 2 ^ s.istack.length := Nat.pow_le_pow_right Nat.two_pos (by omega)
  have hsize : 1 ≤ segSize (s.l, s.ir) := by
    unfold SMALL at hlong
    unfold segSize
    omega
  have hdeep : 1 * 2 ^ s.istack.length ≤ n := Nat.le_trans (Nat.mul_le_mul_right _ hsize) h.shallow.1
  omega

theorem sortTurn_sorting {turns n : Nat} {ids₀ : List MDB_ID} (hn : n < ids₀.length) (hmax : n ≤ 1073741824)
    (hturns : n < turns) (s : SortState) (h : Sorting n ids₀ s) :
    (∃ s', sortTurn turns s = .next s' ∧ Sorting n ids₀ s' ∧ total s'.segs < total s.segs) ∨
      ∃ r, sortTurn turns s = .leave r ∧ ∃ ids', r = some ids' ∧ Rearranges 1 n ids₀ ids' ∧ Desc 1 n ids' := by
  have hlen := h.rearranges.length_eq
  obtain ⟨hl, hir⟩ := h.within _ List.mem_cons_self
  have hle := h.nonempty _ List.mem_cons_self
  simp only at hl hir hle
  unfold sortTurn
  by_cases hsmall : s.ir - s.l < SMALL
  · rw [if_pos hsmall]
    obtain ⟨ids', hsort, hrearr, hordered⟩ := h.short hn
    rw [hsort]
    cases hstack : s.istack with
    | nil =>
      rw [hstack] at hordered
      exact Or.inr ⟨_, rfl, ids', rfl, hrearr, hordered.desc⟩
    | cons t istack =>
      rw [hstack] at hordered
      obtain ⟨-, -, hapart, hwithin, hnonempty, hshallow⟩ := h
      unfold SortState.segs at hapart hwithin hshallow hnonempty
      rw [hstack] at hapart hwithin hshallow hnonempty
      left
      refine ⟨_, rfl, ⟨hrearr, hordered, (List.pairwise_cons.1 hapart).2, ?_, ?_, hshallow.2⟩, ?_⟩
      · exact fun u hu => hwithin u (List.mem_cons_of_mem _ hu)
      · exact fun u hu => hnonempty u (List.mem_cons_of_mem _ hu)
      · simp only [SortState.segs, hstack, total, segSize]
        omega
  · have hroom := h.room hmax (Nat.not_lt.1 hsmall)
    unfold SMALL at hsmall
    rw [if_neg (by unfold SMALL; omega), if_neg (by unfold INT_MAX; omega)]
    obtain ⟨ids', i, j, hpart, hids, hlj, hji, hir', hparts⟩ :=
      @partition_parts turns s.l s.ir s.ids (by omega) (by omega) (by omega)
    rw [hpart]
    left
    -- the pair for the next turn, and the one that is pushed
    have hcut : ∀ p q : Nat × Nat, (p = (s.l, j - 1) ∧ q = (i, s.ir) ∨ p = (i, s.ir) ∧ q = (s.l, j - 1)) →
        segSize p ≤ segSize q → Sorting n ids₀ ⟨ids', p.1, p.2, q :: s.istack⟩ ∧
          total ((p.1, p.2) :: q :: s.istack) < total s.segs := by
      intro p q hpq hsize
      refine ⟨h.cut hids ?_ ?_ ?_ hsize ?_, ?_⟩
      · obtain ⟨rfl, rfl⟩ | ⟨rfl, rfl⟩ := hpq <;> simp only <;> omega
      · obtain ⟨rfl, rfl⟩ | ⟨rfl, rfl⟩ := hpq <;> simp only <;> omega
      · unfold Apart
        obtain ⟨rfl, rfl⟩ | ⟨rfl, rfl⟩ := hpq <;> simp only <;> omega
      · intro x y a b hlx hxy hyr hout
        have hp := hout p List.mem_cons_self
        have hq := hout q (List.mem_cons_of_mem _ List.mem_cons_self)
        refine hparts x y a b hlx hxy hyr ?_ ?_
        all_goals obtain ⟨rfl, rfl⟩ | ⟨rfl, rfl⟩ := hpq <;> simp only at hp hq <;> omega
      · simp only [SortState.segs, total]
        obtain ⟨rfl, rfl⟩ | ⟨rfl, rfl⟩ := hpq <;> simp only [segSize] <;> omega
    by_cases hfirst : j - s.l ≤ s.ir - i + 1
    · obtain ⟨hsorting, hleft⟩ := hcut _ _ (Or.inl ⟨rfl, rfl⟩) (by simp only [segSize]; omega)
      exact ⟨_, by simp only [push?, if_pos hroom, if_pos hfirst], hsorting, hleft⟩
    · obtain ⟨hsorting, hleft⟩ := hcut _ _ (Or.inr ⟨rfl, rfl⟩) (by simp only [segSize]; omega)
      exact ⟨_, by simp only [push?, if_pos hroom, if_neg hfirst], hsorting, hleft⟩

/-- A list that is rearranged and descends is the sorted one. -/
theorem eq_mergeSort {l l' : List MDB_ID} (hperm : l'.Perm l) (hdesc : l'.Pairwise fun x y => y ≤ x) :
    l' = l.mergeSort fun a b => b ≤ a := by
  have hsorted : (l.mergeSort fun a b => b ≤ a).Pairwise fun x y => y ≤ x := by
    have htrans : ∀ a b c : MDB_ID, decide (b ≤ a) = true → decide (c ≤ b) = true → decide (c ≤ a) = true :=
      fun a b c hab hbc => decide_eq_true (UInt64.le_trans (of_decide_eq_true hbc) (of_decide_eq_true hab))
    have htotal : ∀ a b : MDB_ID, (decide (b ≤ a) || decide (a ≤ b)) = true := by
      intro a b
      rw [Bool.or_eq_true, decide_eq_true_eq, decide_eq_true_eq]
      exact UInt64.le_total b a
    exact (List.pairwise_mergeSort htrans htotal l).imp fun hab => of_decide_eq_true hab
  exact List.Perm.eq_of_pairwise (fun a b _ _ hab hba => UInt64.le_antisymm hba hab) hdesc hsorted
    (hperm.trans (List.mergeSort_perm _ _).symm)

theorem sorting_start {n : Nat} (ids : List MDB_ID) (hn : 1 ≤ n) : Sorting n ids ⟨ids, 1, n, []⟩ where
  rearranges := .refl _ _ _
  ordered x y _ _ hx _ hy hsegs := absurd ⟨hx, hy⟩ (hsegs (1, n) List.mem_cons_self)
  apart := List.pairwise_singleton _ _
  within t ht := by
    rw [List.mem_singleton.1 ht]
    exact ⟨Nat.le_refl _, Nat.le_refl _⟩
  nonempty t ht := by
    rw [List.mem_singleton.1 ht]
    exact hn
  shallow := ⟨show (n + 1 - 1) * 1 ≤ n by omega, trivial⟩

/-- **A sorted list**: no loop takes more than `n + 1` turns. -/
theorem sorts_descending {n : MDB_ID} {l rest : List MDB_ID} (hn : n.toNat = l.length) (hmax : l.length ≤ 1073741824)
    {turns : Nat} (hturns : l.length < turns) :
    mdbMidlSort turns (n :: l ++ rest) = some (n :: l.mergeSort (fun a b => b ≤ a) ++ rest) := by
  have hrun : ∃ r, run (sortTurn turns) turns ⟨n :: l ++ rest, 1, n.toNat, []⟩ = some r ∧ ∃ ids', r = some ids' ∧
      Rearranges 1 l.length (n :: l ++ rest) ids' ∧ Desc 1 l.length ids' := by
    rw [hn]
    have hlen : l.length < (n :: l ++ rest).length := by
      rw [List.cons_append, List.length_cons, List.length_append]
      omega
    by_cases hempty : l.length = 0
    · rw [hempty]
      obtain ⟨turns, rfl⟩ : ∃ k, turns = k + 1 := ⟨turns - 1, by omega⟩
      exact ⟨_, run_leave rfl turns, _, rfl, .refl _ _ _, fun x y _ _ _ _ _ => by omega⟩
    · exact run_rule (sortTurn_sorting hlen hmax hturns) (sorting_start _ (by omega)) (by
        simp only [SortState.segs, total, segSize]
        omega)
  obtain ⟨r, hrun, ids', rfl, hrearr, hdesc⟩ := hrun
  obtain ⟨l', rfl, hperm⟩ := hrearr.middle
  rw [← hperm.length_eq] at hdesc
  rw [← eq_mergeSort hperm hdesc.pairwise, mdbMidlSort, List.cons_append, List.getElem?_cons_zero]
  simp only [Option.bind_eq_bind, Option.bind_some]
  rw [if_neg (by unfold INT_MAX; omega), ← List.cons_append, hrun, Option.join_some, List.cons_append]

/-- More IDs than the insertion sort takes, so that they are partitioned. -/
def manyIds : List MDB_ID :=
  [5, 9, 7, 12, 3, 21, 14, 2, 8, 17, 1, 20, 11, 6, 23, 4, 16, 10, 22, 13, 19, 15, 18, 7]

theorem sorts_descending_sample :
    mdbMidlSort 25 ([24] ++ manyIds ++ [8]) =
      some (24 :: manyIds.mergeSort (fun a b : MDB_ID => b ≤ a) ++ [8]) :=
  @sorts_descending 24 manyIds [8] rfl (by decide) 25 (by decide)

end Rkx.Midl
