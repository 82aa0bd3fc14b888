import Mathlib.Data.List.Basic

/-!
# Lists cut into blocks

A list is cut into blocks of `B` elements, the last of which may be short, and a map that
returns full blocks is applied to each:

* `mapBlocks`: the map over the first `k` blocks, the rest of the list left behind them;
* `length_mapBlocks`, `mapBlocks_mapBlocks`: length and composition;
* `mapBlocks_eq_flatMap`: the result as its blocks in a row;
* `getElem?_mapBlocks_lt`, `drop_mapBlocks`: the result, element by element;
* `mapBlocks_completed`: a map that only completes the last block appends to the list;
* `ofBlocks`, `exists_blocks`, `ofBlocks_injective`: a list of whole blocks is a list of vectors.
-/

set_option autoImplicit false

namespace Lib.Blocks

variable {α : Type*} {B : Nat}

/-- The number of blocks of `B` elements that cover `n` elements. -/
def numBlocks (B n : Nat) : Nat := (n + B - 1) / B

theorem le_numBlocks_mul (hB : 0 < B) (n : Nat) : n ≤ numBlocks B n * B := by
  unfold numBlocks
  have h := Nat.div_add_mod (n + B - 1) B
  have hlt := Nat.mod_lt (n + B - 1) hB
  rw [Nat.mul_comm] at h
  omega

theorem numBlocks_mul_lt (hB : 0 < B) (n : Nat) : numBlocks B n * B < n + B := by
  have h := Nat.div_mul_le_self (n + B - 1) B
  unfold numBlocks
  omega

theorem numBlocks_mul (hB : 0 < B) (k : Nat) : numBlocks B (k * B) = k := by
  unfold numBlocks
  rw [show k * B + B - 1 = B - 1 + B * k by rw [Nat.mul_comm B k]; omega,
    Nat.add_mul_div_left _ _ hB, Nat.div_eq_of_lt (by omega), Nat.zero_add]

/-- Every block before the last one that is needed begins inside the list. -/
theorem mul_lt_of_lt_numBlocks {n i : Nat} (h : i < numBlocks B n) : i * B < n := by
  unfold numBlocks at h
  have hB : 0 < B := by
    rcases Nat.eq_zero_or_pos B with h0 | h0
    · rw [h0, Nat.div_zero] at h; omega
    · exact h0
  have h1 : (i + 1) * B ≤ n + B - 1 := (Nat.le_div_iff_mul_le hB).1 h
  rw [Nat.add_mul] at h1
  omega

/-- `g` applied to each of the first `k` blocks; what follows them is left as it is. -/
def mapBlocks (B : Nat) (g : List α → List α) : Nat → List α → List α
  | 0, x => x
  | k + 1, x => g (x.take B) ++ mapBlocks B g k (x.drop B)

variable {f g : List α → List α}

theorem length_mapBlocks (hg : ∀ b, (g b).length = B) :
    ∀ {k : Nat} {x : List α}, x.length ≤ k * B → (mapBlocks B g k x).length = k * B
  | 0, x, h => by simpa [mapBlocks] using h
  | k + 1, x, h => by
    rw [Nat.add_mul, Nat.one_mul] at h
    rw [mapBlocks, List.length_append, hg, length_mapBlocks hg (by rw [List.length_drop]; omega),
      Nat.add_mul]
    omega

/-- The blocks of the result in a row, and what lies behind the blocks of the list. -/
theorem mapBlocks_eq_flatMap (k : Nat) (x : List α) :
    mapBlocks B g k x =
      (List.range k).flatMap (fun i => g ((x.drop (i * B)).take B)) ++ x.drop (k * B) := by
  induction k generalizing x with
  | zero => simp [mapBlocks]
  | succ k ih =>
    have hshift : ∀ i, (i + 1) * B = B + i * B := by
      intro i
      rw [Nat.add_mul, Nat.one_mul, Nat.add_comm]
    rw [mapBlocks, ih, List.range_succ_eq_map, List.flatMap_cons, List.flatMap_map, hshift]
    simp only [Nat.zero_mul, List.drop_zero, List.drop_drop, hshift, List.append_assoc]

/-- A second pass works block by block on the blocks of the first. -/
theorem mapBlocks_mapBlocks (hg : ∀ b, (g b).length = B) :
    ∀ (k : Nat) (x : List α),
      mapBlocks B f k (mapBlocks B g k x) = mapBlocks B (fun b => f (g b)) k x
  | 0, _ => rfl
  | k + 1, x => by
    simp only [mapBlocks]
    rw [List.take_left' (hg _), List.drop_left' (hg _), mapBlocks_mapBlocks hg k]

/-- An element of the result is read off the block it lies in. -/
theorem getElem?_mapBlocks_lt (hg : ∀ b, (g b).length = B) :
    ∀ {k i t : Nat} (x : List α), i < k → t < B →
      (mapBlocks B g k x)[i * B + t]? = (g ((x.drop (i * B)).take B))[t]?
  | 0, _, _, _, h, _ => absurd h (by omega)
  | k + 1, 0, t, x, _, ht => by
    rw [mapBlocks, Nat.zero_mul, Nat.zero_add, List.drop_zero,
      List.getElem?_append_left (by rw [hg]; exact ht)]
  | k + 1, i + 1, t, x, hi, ht => by
    rw [mapBlocks, Nat.add_mul, Nat.one_mul, List.getElem?_append_right (by rw [hg]; omega), hg,
      show i * B + B + t - B = i * B + t by omega, getElem?_mapBlocks_lt hg _ (by omega) ht,
      List.drop_drop, Nat.add_comm B]

/-- What follows the mapped blocks is unchanged. -/
theorem drop_mapBlocks (hg : ∀ b, (g b).length = B) :
    ∀ {k : Nat} {x : List α}, k * B ≤ x.length → (mapBlocks B g k x).drop (k * B) = x.drop (k * B)
  | 0, _, _ => rfl
  | k + 1, x, h => by
    rw [Nat.add_mul, Nat.one_mul] at h ⊢
    rw [mapBlocks, Nat.add_comm (k * B) B, ← List.drop_drop, List.drop_left' (hg _),
      drop_mapBlocks hg (by rw [List.length_drop]; omega), List.drop_drop]

/-- A block map that leaves full blocks alone and appends to a short one appends to the list
    what it appends to the last block. -/
theorem mapBlocks_completed {t : Nat → List α} (hB : 0 < B)
    (hfull : ∀ b, b.length = B → g b = b)
    (hshort : ∀ b, b.length < B → b ≠ [] → g b = b ++ t b.length) :
    ∀ (k : Nat) (x : List α), numBlocks B x.length = k →
      mapBlocks B g k x = x ++ if x.length % B = 0 then [] else t (x.length % B)
  | 0, x, h => by
    have hlen := le_numBlocks_mul hB x.length
    rw [h, Nat.zero_mul] at hlen
    rw [mapBlocks, Nat.le_zero.1 hlen, Nat.zero_mod, if_pos rfl, List.append_nil]
  | k + 1, x, h => by
    have hcover := le_numBlocks_mul hB x.length
    have hbound := numBlocks_mul_lt hB x.length
    rw [h, Nat.add_mul, Nat.one_mul] at hcover hbound
    rw [mapBlocks]
    by_cases hx : x.length < B
    · -- the only block, and a short one
      have hne : x ≠ [] := by
        intro he
        rw [he, List.length_nil, numBlocks, Nat.zero_add, Nat.div_eq_of_lt (by omega)] at h
        omega
      have hk : k = 0 := by
        rcases Nat.eq_zero_or_pos k with h0 | h0
        · exact h0
        · have := Nat.le_mul_of_pos_left B h0
          omega
      have hpos := List.length_pos_iff.2 hne
      rw [hk, mapBlocks, List.take_of_length_le (by omega), List.drop_of_length_le (by omega),
        hshort x hx hne, List.append_nil, Nat.mod_eq_of_lt hx, if_neg (by omega)]
    · have hdrop : numBlocks B (x.drop B).length = k := by
        have hk := numBlocks_mul hB k
        unfold numBlocks at h hk ⊢
        rw [List.length_drop]
        have hs : x.length + B - 1 = (x.length - B + B - 1) + B := by omega
        rw [hs, Nat.add_div_right _ hB] at h
        omega
      have hmod : (x.drop B).length % B = x.length % B := by
        rw [List.length_drop, ← Nat.mod_eq_sub_mod (by omega)]
      rw [hfull _ (by rw [List.length_take]; omega), mapBlocks_completed hB hfull hshort k _ hdrop,
        hmod, ← List.append_assoc, List.take_append_drop]

/-! ## Whole blocks -/

/-- The blocks in a row. -/
def ofBlocks (bs : List (Vector α B)) : List α := bs.flatMap Vector.toList

@[simp] theorem ofBlocks_nil : ofBlocks ([] : List (Vector α B)) = [] := rfl

@[simp] theorem ofBlocks_cons (b : Vector α B) (bs : List (Vector α B)) : ofBlocks (b :: bs) = b.toList ++ ofBlocks bs :=
  rfl

theorem length_ofBlocks (bs : List (Vector α B)) : (ofBlocks bs).length = bs.length * B := by
  induction bs with
  | nil => simp
  | cons b bs ih => simp [ih, Nat.succ_mul, Nat.add_comm]

theorem ofBlocks_flatten (bss : List (List (Vector α B))) : ofBlocks bss.flatten = (bss.map ofBlocks).flatten := by
  induction bss with
  | nil => rfl
  | cons bs bss ih =>
    rw [List.flatten_cons, List.map_cons, List.flatten_cons, ← ih]
    exact List.flatMap_append

/-- **A list of whole blocks**, block by block. -/
theorem exists_blocks {l : List α} (h : B ∣ l.length) : ∃ bs : List (Vector α B), ofBlocks bs = l := by
  obtain ⟨k, hk⟩ := h
  induction k generalizing l with
  | zero => exact ⟨[], (List.length_eq_zero_iff.1 hk).symm⟩
  | succ k ih =>
    rw [Nat.mul_succ] at hk
    obtain ⟨bs, hbs⟩ := ih (l := l.drop B) (by rw [List.length_drop]; omega)
    refine ⟨⟨(l.take B).toArray, by simp; omega⟩ :: bs, ?_⟩
    rw [ofBlocks_cons, hbs]
    exact List.take_append_drop B l

theorem exists_blocks_map {ls : List (List α)} (h : ∀ l ∈ ls, B ∣ l.length) :
    ∃ bss : List (List (Vector α B)), bss.map ofBlocks = ls := by
  induction ls with
  | nil => exact ⟨[], rfl⟩
  | cons l ls ih =>
    obtain ⟨hl, hls⟩ := List.forall_mem_cons.1 h
    obtain ⟨bs, rfl⟩ := exists_blocks hl
    obtain ⟨bss, rfl⟩ := ih hls
    exact ⟨bs :: bss, rfl⟩

theorem ofBlocks_injective (hB : 0 < B) : Function.Injective (ofBlocks : List (Vector α B) → List α) := by
  intro bs bs' h
  have hlen := congrArg List.length h
  rw [length_ofBlocks, length_ofBlocks, Nat.mul_right_cancel_iff hB] at hlen
  induction bs generalizing bs' with
  | nil => exact (List.length_eq_zero_iff.1 hlen.symm).symm
  | cons b bs ih =>
    obtain ⟨b', bs', rfl⟩ := List.exists_cons_of_length_eq_add_one hlen.symm
    rw [ofBlocks_cons, ofBlocks_cons] at h
    obtain ⟨hhead, htail⟩ := List.append_inj h (by simp)
    rw [Vector.toList_inj.1 hhead, ih htail (Nat.succ_inj.1 hlen)]

end Lib.Blocks
