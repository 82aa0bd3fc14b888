import Mathlib.Data.List.Induction
import Mathlib.Data.List.Pairwise
import Rkx.MidlSort

/-!
# The merge of ID lists in place

* `mergeOld_moves`: the larger part of the one list goes to the end of the gap;
* `mergeLoop_merges`: a turn for each ID of the other list;
* `merges_descending`: the whole list.
-/

set_option autoImplicit false

namespace Rkx.Midl

theorem mergeOld_succ {merge_id old_id w : MDB_ID} {idl idl' : List MDB_ID} {j k : Nat} (hlt : old_id < merge_id)
    (hstore : store? idl k old_id = some idl') (hw : idl'[j]? = some w) :
    mergeOld merge_id (j + 1) idl k old_id = mergeOld merge_id j idl' (k - 1) w := by
  rw [mergeOld, if_pos hlt, hstore]
  simp only [Option.bind_eq_bind, Option.bind_some, hw]

theorem mergeOld_done {merge_id old_id : MDB_ID} {idl : List MDB_ID} {j k : Nat} (hle : ¬ old_id < merge_id) :
    mergeOld merge_id j idl k old_id = some (idl, j, k, old_id) := by
  cases j with
  | zero => rw [mergeOld, if_neg hle]
  | succ j => rw [mergeOld, if_neg hle]

/-- **The inner loop** moves what is smaller than the next ID behind the gap. -/
theorem mergeOld_moves (max merge_id : MDB_ID) (hmax : merge_id ≤ max) (l gap out : List MDB_ID) (hgap : gap ≠ [])
    {old_id : MDB_ID} (hold : (max :: (l ++ gap ++ out))[l.length]? = some old_id) :
    ∃ a b gap' old_id', l = a ++ b ∧ gap'.length = gap.length ∧ (∀ x ∈ b, x < merge_id) ∧
      (∀ x, a.getLast? = some x → merge_id ≤ x) ∧ (max :: (a ++ gap' ++ (b ++ out)))[a.length]? = some old_id' ∧
      mergeOld merge_id l.length (max :: (l ++ gap ++ out)) (gap.length + l.length) old_id =
        some (max :: (a ++ gap' ++ (b ++ out)), a.length, gap.length + a.length, old_id') := by
  induction l using List.reverseRecOn generalizing gap out old_id with
  | nil =>
    have hmaxid : old_id = max := (Option.some_inj.1 hold).symm
    refine ⟨[], [], gap, old_id, rfl, rfl, List.forall_mem_nil _, by simp, hold, ?_⟩
    rw [List.length_nil, mergeOld, if_neg (by rw [hmaxid]; exact UInt64.not_lt.2 hmax)]
    rfl
  | append_singleton l x ih =>
    have hx : old_id = x := by
      rw [List.length_append, List.length_singleton, List.getElem?_cons_succ, List.append_assoc, List.append_assoc,
        List.getElem?_append_right (Nat.le_refl _), Nat.sub_self] at hold
      exact (Option.some_inj.1 hold).symm
    subst hx
    by_cases hlt : old_id < merge_id
    · obtain ⟨g, z, rfl⟩ : ∃ g z, gap = g ++ [z] := ⟨_, _, (List.dropLast_append_getLast hgap).symm⟩
      have hset : (max :: (l ++ [old_id] ++ (g ++ [z]) ++ out)).set ((g ++ [z]).length + (l ++ [old_id]).length) old_id =
          max :: (l ++ (old_id :: g) ++ (old_id :: out)) := by
        have hk : (g ++ [z]).length + (l ++ [old_id]).length = (l ++ old_id :: g).length + 1 := by
          simp only [List.length_append, List.length_cons, List.length_nil]
          omega
        have hids : l ++ [old_id] ++ (g ++ [z]) ++ out = (l ++ old_id :: g) ++ z :: out := by
          simp only [List.append_assoc, List.cons_append, List.nil_append]
        rw [hk, hids, List.set_cons_succ, List.set_append_right _ _ (Nat.le_refl _), Nat.sub_self, List.set_cons_zero]
      obtain ⟨w, hw⟩ : ∃ w, (max :: (l ++ (old_id :: g) ++ (old_id :: out)))[l.length]? = some w :=
        ⟨_, List.getElem?_eq_getElem (by simp only [List.length_cons, List.length_append]; omega)⟩
      obtain ⟨a, b, gap', old', rfl, hlen, hb, ha, hold', hloop⟩ := ih (old_id :: g) (old_id :: out) (List.cons_ne_nil _ _) hw
      have hout : b ++ [old_id] ++ out = b ++ old_id :: out := by rw [List.append_assoc, List.singleton_append]
      refine ⟨a, b ++ [old_id], gap', old', by rw [List.append_assoc], by rw [hlen]; simp, ?_, ha, ?_, ?_⟩
      · intro y hy
        obtain hy | hy := List.mem_append.1 hy
        · exact hb y hy
        · rw [List.mem_singleton.1 hy]
          exact hlt
      · rwa [hout]
      · have hroom : (g ++ [z]).length + (a ++ b ++ [old_id]).length <
            (max :: (a ++ b ++ [old_id] ++ (g ++ [z]) ++ out)).length := by
          simp only [List.length_append, List.length_cons]
          omega
        have hk : (g ++ [z]).length + (a ++ b ++ [old_id]).length - 1 = (old_id :: g).length + (a ++ b).length := by
          simp only [List.length_append, List.length_cons, List.length_nil]
          omega
        have hgaps : (old_id :: g).length = (g ++ [z]).length := by
          rw [List.length_append, List.length_singleton, List.length_cons]
        have hj : (a ++ b ++ [old_id]).length = (a ++ b).length + 1 := by
          simp [Nat.add_assoc]
        have hstep := mergeOld_succ hlt ((store?_eq hroom old_id).trans (congrArg some hset)) hw
        rw [← hj, hk, hloop, hgaps] at hstep
        rw [hstep, hout]
    · refine ⟨l ++ [old_id], [], gap, old_id, (List.append_nil _).symm, rfl, List.forall_mem_nil _, ?_, hold, ?_⟩
      · intro y hy
        rw [List.getLast?_concat, Option.some_inj] at hy
        rw [← hy]
        exact UInt64.not_lt.1 hlt
      · rw [mergeOld_done hlt, List.nil_append]

/-- **The outer loop** fills the gap. -/
theorem mergeLoop_merges (max : MDB_ID) (head : MDB_ID) (m behind l gap out rest : List MDB_ID)
    (hgap : gap.length = m.length) (hmax : ∀ y ∈ m, y ≤ max) (hm : m.Pairwise fun x y => y ≤ x)
    (hl : l.Pairwise fun x y => y ≤ x) (hout : out.Pairwise fun x y => y ≤ x) (hlout : ∀ x ∈ l, ∀ o ∈ out, o ≤ x)
    (hmout : ∀ x ∈ m, ∀ o ∈ out, o ≤ x) {old_id : MDB_ID}
    (hold : (max :: (l ++ gap ++ (out ++ rest)))[l.length]? = some old_id) :
    ∃ out', mergeLoop (head :: (m ++ behind)) m.length (max :: (l ++ gap ++ (out ++ rest))) l.length
        (gap.length + l.length) old_id = some (max :: (out' ++ rest)) ∧
      out'.Perm (l ++ m ++ out) ∧ out'.Pairwise fun x y => y ≤ x := by
  induction m using List.reverseRecOn generalizing behind l gap out old_id with
  | nil =>
    rw [List.length_nil] at hgap
    obtain rfl := List.eq_nil_of_length_eq_zero hgap
    refine ⟨l ++ out, ?_, by rw [List.append_nil], List.pairwise_append.2 ⟨hl, hout, hlout⟩⟩
    rw [List.length_nil, mergeLoop, List.append_nil, List.append_assoc]
  | append_singleton m y ih =>
    have hget : (head :: (m ++ [y] ++ behind))[m.length + 1]? = some y := by
      rw [List.getElem?_cons_succ, List.append_assoc, List.getElem?_append_right (Nat.le_refl _), Nat.sub_self]
      rfl
    rw [List.length_append, List.length_singleton] at hgap
    obtain ⟨a, b, gap', old', rfl, hgap', hb, ha, hold', hloop⟩ := mergeOld_moves max y
      (hmax y (List.mem_append_right _ List.mem_cons_self)) l gap (out ++ rest) (List.ne_nil_of_length_pos (by omega)) hold
    obtain ⟨g, z, rfl⟩ : ∃ g z, gap' = g ++ [z] :=
      ⟨_, _, (List.dropLast_append_getLast (List.ne_nil_of_length_pos (by omega))).symm⟩
    rw [List.length_append, List.length_singleton] at hgap'
    have hset : (max :: (a ++ (g ++ [z]) ++ (b ++ (out ++ rest)))).set (gap.length + a.length) y =
        max :: (a ++ g ++ ((y :: (b ++ out)) ++ rest)) := by
      have hk : gap.length + a.length = (a ++ g).length + 1 := by
        rw [List.length_append]
        omega
      have hids : a ++ (g ++ [z]) ++ (b ++ (out ++ rest)) = (a ++ g) ++ z :: (b ++ (out ++ rest)) := by
        simp only [List.append_assoc, List.cons_append, List.nil_append]
      rw [hk, hids, List.set_cons_succ, List.set_append_right _ _ (Nat.le_refl _), Nat.sub_self, List.set_cons_zero,
        List.cons_append, List.append_assoc b]
    have hroom : gap.length + a.length < (max :: (a ++ (g ++ [z]) ++ (b ++ (out ++ rest)))).length := by
      simp only [List.length_append, List.length_cons, List.length_nil]
      omega
    have hold'' : (max :: (a ++ g ++ ((y :: (b ++ out)) ++ rest)))[a.length]? = some old' := by
      rw [← hset, List.getElem?_set_ne (by omega), hold']
    -- what is in order so far
    obtain ⟨hm, -, hmy⟩ := List.pairwise_append.1 hm
    obtain ⟨hla, hlb, hab⟩ := List.pairwise_append.1 hl
    have hya : ∀ x ∈ a, y ≤ x := by
      intro x hx
      have hne := List.ne_nil_of_mem hx
      have hlast := ha _ (List.getLast?_eq_some_getLast hne)
      exact UInt64.le_trans hlast (hla.rel_getLast_of_rel_getLast_getLast hx (UInt64.le_refl _))
    have hout' : (y :: (b ++ out)).Pairwise fun x y => y ≤ x := by
      refine List.pairwise_cons.2 ⟨?_, List.pairwise_append.2 ⟨hlb, hout, ?_⟩⟩
      · intro o ho
        obtain ho | ho := List.mem_append.1 ho
        · exact UInt64.le_of_lt (hb o ho)
        · exact hmout y (List.mem_append_right _ List.mem_cons_self) o ho
      · exact fun x hx => hlout x (List.mem_append_right _ hx)
    have hlout' : ∀ x ∈ a, ∀ o ∈ y :: (b ++ out), o ≤ x := by
      intro x hx o ho
      obtain rfl | ho := List.mem_cons.1 ho
      · exact hya x hx
      · obtain ho | ho := List.mem_append.1 ho
        · exact hab x hx o ho
        · exact hlout x (List.mem_append_left _ hx) o ho
    have hmout' : ∀ x ∈ m, ∀ o ∈ y :: (b ++ out), o ≤ x := by
      intro x hx o ho
      obtain rfl | ho := List.mem_cons.1 ho
      · exact hmy x hx o List.mem_cons_self
      · obtain ho | ho := List.mem_append.1 ho
        · exact UInt64.le_of_lt (UInt64.lt_of_lt_of_le (hb o ho) (hmy x hx y List.mem_cons_self))
        · exact hmout x (List.mem_append_left _ hx) o ho
    obtain ⟨out', hrun, hperm, hdesc⟩ := ih (y :: behind) a g (y :: (b ++ out)) (by omega)
      (fun x hx => hmax x (List.mem_append_left _ hx)) hm hla hout' hlout' hmout' hold''
    refine ⟨out', ?_, hperm.trans ?_, hdesc⟩
    · rw [List.length_append, List.length_singleton, mergeLoop, hget]
      simp only [Option.bind_eq_bind, Option.bind_some]
      rw [hloop, Option.bind_some]
      simp only
      rw [store?_eq hroom, Option.bind_some, hset]
      rw [List.append_assoc, List.singleton_append, show gap.length + a.length - 1 = g.length + a.length by omega]
      exact hrun
    · calc (a ++ m ++ y :: (b ++ out)).Perm (a ++ (m ++ [y] ++ b) ++ out) := by
            simp only [List.append_assoc, List.cons_append, List.nil_append]
            exact .refl _
        _ |>.Perm (a ++ (b ++ (m ++ [y])) ++ out) := (List.perm_append_comm.append_left a).append_right out
        _ |>.Perm (a ++ b ++ (m ++ [y]) ++ out) := by
            rw [List.append_assoc a b]

theorem le_delimiter (y : MDB_ID) : y ≤ -1 := by
  rw [UInt64.le_iff_toNat_le]
  exact Nat.le_of_lt_succ y.toNat_lt

/-- **Two descending lists** become one, and what is behind the gap stays. -/
theorem merges_descending {n k : MDB_ID} {l gap rest m behind : List MDB_ID} (hn : n.toNat = l.length)
    (hk : k.toNat = m.length) (hgap : gap.length = m.length) (hsize : l.length + m.length < UInt64.size)
    (hl : l.Pairwise fun x y => y ≤ x) (hm : m.Pairwise fun x y => y ≤ x) :
    mdbMidlXmerge (n :: (l ++ gap ++ rest)) (k :: (m ++ behind)) =
      some ((k + n) :: ((l ++ m).mergeSort (fun a b => b ≤ a) ++ rest)) := by
  have htotal : (k + n).toNat = gap.length + l.length := by
    rw [UInt64.toNat_add, hn, hk, hgap, Nat.add_comm, Nat.mod_eq_of_lt hsize, Nat.add_comm]
  obtain ⟨old_id, hold⟩ : ∃ old_id, ((-1 : MDB_ID) :: (l ++ gap ++ ([] ++ rest)))[l.length]? = some old_id :=
    ⟨_, List.getElem?_eq_getElem (by simp only [List.length_cons, List.length_append]; omega)⟩
  obtain ⟨out, hrun, hperm, hdesc⟩ := mergeLoop_merges (-1) k m behind l gap [] rest hgap (fun y _ => le_delimiter y) hm hl
    List.Pairwise.nil (fun _ _ => List.forall_mem_nil _) (fun _ _ => List.forall_mem_nil _) hold
  rw [List.append_nil] at hperm
  rw [List.nil_append] at hold hrun
  unfold mdbMidlXmerge
  rw [List.getElem?_cons_zero, List.getElem?_cons_zero]
  simp only [Option.bind_eq_bind, Option.bind_some]
  rw [store?_eq (Nat.zero_lt_succ _), Option.bind_some, List.set_cons_zero, hn, hk, htotal, hold, Option.bind_some, hrun,
    Option.bind_some, store?_eq (Nat.zero_lt_succ _), List.set_cons_zero, eq_mergeSort hperm hdesc]

theorem merges_descending_sample :
    mdbMidlXmerge (2 :: ([9, 4] ++ [0, 0] ++ [1])) (2 :: ([7, 4] ++ [])) =
      some ((2 + 2) :: (([9, 4] ++ [7, 4] : List MDB_ID).mergeSort (fun a b => b ≤ a) ++ [1])) :=
  @merges_descending 2 2 [9, 4] [0, 0] [1] [7, 4] [] rfl rfl rfl (by decide) (by decide) (by decide)

end Rkx.Midl
