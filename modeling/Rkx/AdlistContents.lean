import Mathlib.Data.List.Perm.Subperm
import Rkx.Adlist

/-!
# What lists contain

* `Contents`, `Holds`: the values of every list with the addresses of their nodes, and a store that holds them and
  nothing else;
* `Holds.change`: one list that changes;
* `linkNext_front`, `linkPrev_rest`, `setNextOf_front`, `setPrevOf_rest`: the two sides of a place in a list.
-/

set_option autoImplicit false

namespace Rkx.Adlist

open Function Lib.Linked

variable {β : Type}

/-- A list as its caller sees it. -/
structure Contents (β : Type) where
  methods : Methods β
  nodes : List (Addr × β)

def Contents.header (x : Contents β) : AdList β where
  head := first x.nodes 0
  tail := last 0 x.nodes
  methods := x.methods
  len := UInt64.ofNat x.nodes.length

/-- The lists at their addresses. -/
abbrev Lists (β : Type) := Addr → Option (Contents β)

/-- **The store holds these lists**: nodes linked both ways, no node in two places, and no object besides. -/
structure Holds (s : Store β) (c : Lists β) : Prop where
  null : c 0 = none
  lists : ∀ p, s.lists p = (c p).map Contents.header
  seg : ∀ p x, c p = some x → Seg s.nodes 0 x.nodes 0
  nodup : ∀ p x, c p = some x → (0 :: addrs x.nodes).Nodup
  disjoint : ∀ p q x y, c p = some x → c q = some y → p ≠ q → List.Disjoint (addrs x.nodes) (addrs y.nodes)
  owned : ∀ a, s.nodes a ≠ none → ∃ p x, c p = some x ∧ a ∈ addrs x.nodes

/-- There are not more nodes than addresses. -/
theorem length_lt {l : List (Addr × β)} (h : (0 :: addrs l).Nodup) : l.length < UInt64.size := by
  have hnodup : ((0 :: addrs l).map UInt64.toNat).Nodup := h.map fun _ _ heq => UInt64.toNat_inj.1 heq
  have hsub : (0 :: addrs l).map UInt64.toNat ⊆ List.range UInt64.size := by
    intro n hn
    obtain ⟨a, -, rfl⟩ := List.mem_map.1 hn
    exact List.mem_range.2 a.toNat_lt
  have hle := (List.subperm_of_subset hnodup hsub).length_le
  rw [List.length_map, List.length_cons, length_addrs, List.length_range] at hle
  exact hle

theorem toNat_len {x : Contents β} (h : (0 :: addrs x.nodes).Nodup) : x.header.len.toNat = x.nodes.length := by
  rw [Contents.header, UInt64.toNat_ofNat']
  exact Nat.mod_eq_of_lt (length_lt h)

theorem len_eq_zero_iff {x : Contents β} (h : (0 :: addrs x.nodes).Nodup) : x.header.len = 0 ↔ x.nodes = [] := by
  rw [← UInt64.toNat_inj, toNat_len h]
  exact List.length_eq_zero_iff

variable {s s' : Store β} {c : Lists β} {p : Addr} {x y : Contents β}

theorem Holds.list (h : Holds s c) (hp : c p = some x) : s.lists p = some x.header := by
  rw [h.lists, hp, Option.map_some]

theorem Holds.ne_null (h : Holds s c) (hp : c p = some x) : p ≠ 0 := by
  rintro rfl
  rw [h.null] at hp
  cases hp

/-- **One list changes**: its new nodes are new objects, and the nodes that it does not have any more are none. -/
theorem Holds.change (h : Holds s c) (hp : c p = some x)
    (hlists : s'.lists = Function.update s.lists p (some y.header)) (hseg : Seg s'.nodes 0 y.nodes 0)
    (hnodup : (0 :: addrs y.nodes).Nodup)
    (hother : ∀ a, a ∉ addrs x.nodes → a ∉ addrs y.nodes → s'.nodes a = s.nodes a)
    (hnew : ∀ a ∈ addrs y.nodes, a ∉ addrs x.nodes → s.nodes a = none)
    (hgone : ∀ a ∈ addrs x.nodes, a ∉ addrs y.nodes → s'.nodes a = none) :
    Holds s' (Function.update c p (some y)) := by
  have hdisjoint : ∀ q z, c q = some z → q ≠ p → List.Disjoint (addrs z.nodes) (addrs y.nodes) := by
    intro q z hq hne a ha hay
    obtain hax | hax := Classical.em (a ∈ addrs x.nodes)
    · exact h.disjoint q p z x hq hp hne ha hax
    · exact (h.seg q z hq).ne_none ha (hnew a hay hax)
  refine ⟨?_, ?_, ?_, ?_, ?_, ?_⟩
  · rw [Function.update_of_ne (h.ne_null hp).symm]
    exact h.null
  · intro q
    rw [hlists]
    obtain rfl | hne := eq_or_ne q p
    · rw [Function.update_self, Function.update_self, Option.map_some]
    · rw [Function.update_of_ne hne, Function.update_of_ne hne]
      exact h.lists q
  · intro q z hq
    obtain rfl | hne := eq_or_ne q p
    · rw [Function.update_self] at hq
      cases hq
      exact hseg
    · rw [Function.update_of_ne hne] at hq
      refine (h.seg q z hq).congr fun a ha => hother a ?_ (hdisjoint q z hq hne ha)
      exact h.disjoint q p z x hq hp hne ha
  · intro q z hq
    obtain rfl | hne := eq_or_ne q p
    · rw [Function.update_self] at hq
      cases hq
      exact hnodup
    · rw [Function.update_of_ne hne] at hq
      exact h.nodup q z hq
  · intro q r z w hq hr hne
    obtain rfl | hqp := eq_or_ne q p
    · rw [Function.update_self] at hq
      rw [Function.update_of_ne hne.symm] at hr
      cases hq
      exact fun a ha haw => hdisjoint r w hr hne.symm haw ha
    · rw [Function.update_of_ne hqp] at hq
      obtain rfl | hrp := eq_or_ne r p
      · rw [Function.update_self] at hr
        cases hr
        exact hdisjoint q z hq hqp
      · rw [Function.update_of_ne hrp] at hr
        exact h.disjoint q r z w hq hr hne
  · intro a ha
    obtain hay | hay := Classical.em (a ∈ addrs y.nodes)
    · exact ⟨p, y, Function.update_self _ _ _, hay⟩
    · have hax : a ∉ addrs x.nodes := fun hax => ha (hgone a hax hay)
      rw [hother a hax hay] at ha
      obtain ⟨q, z, hq, haz⟩ := h.owned a ha
      have hne : q ≠ p := by
        rintro rfl
        rw [hp] at hq
        cases hq
        exact hax haz
      exact ⟨q, z, by rw [Function.update_of_ne hne, hq], haz⟩

/-! ## Links -/

variable {nodes : Heap Addr (ListNode β)} {lists : Heap Addr (AdList β)} {freed : List β}

theorem modifyList_eq {l : AdList β} (hl : lists p = some l) (f : AdList β → AdList β) :
    Store.modifyList ⟨nodes, lists, freed⟩ p f = some ⟨nodes, Function.update lists p (some (f l)), freed⟩ := by
  rw [Store.modifyList, Heap.modify?_eq hl, Option.map_some]

theorem freeNode_eq {node : Addr} {n : ListNode β} (hn : nodes node = some n) :
    Store.freeNode ⟨nodes, lists, freed⟩ node = some ⟨Function.update nodes node none, lists, freed⟩ := by
  rw [Store.freeNode, Heap.free?_eq hn, Option.map_some]

/-- **The front part** of a list gets another address behind it. -/
theorem linkNext_front {xs : List (Addr × β)} {n tail : Addr} {methods : Methods β} {len : UInt64}
    (hl : s.lists p = some ⟨first xs n, tail, methods, len⟩) (hseg : Seg s.nodes 0 xs n)
    (hnodup : (0 :: addrs xs).Nodup) (m : Addr) :
    ∃ s', s.linkNext p (last 0 xs) m = some s' ∧ Seg s'.nodes 0 xs m ∧
      s'.lists = Function.update s.lists p (some ⟨first xs m, tail, methods, len⟩) ∧ s'.freed = s.freed ∧
      ∀ a ∉ addrs xs, s'.nodes a = s.nodes a := by
  obtain ⟨hnull, hnodup⟩ := List.nodup_cons.1 hnodup
  unfold Store.linkNext
  obtain rfl | ⟨⟨a, v⟩, xs, rfl⟩ := (eq_or_ne xs []).imp_right List.exists_cons_of_ne_nil
  · refine ⟨{ s with lists := _ }, ?_, trivial, rfl, rfl, fun _ _ => rfl⟩
    rw [last_nil, if_neg (not_not.2 rfl), modifyList_eq hl]
    rfl
  · have hmem := last_mem (List.cons_ne_nil (a, v) xs) 0
    obtain ⟨nodes, hmodify, hseg', hsame⟩ := hseg.setNext (List.cons_ne_nil _ _) hnodup m
    refine ⟨{ s with nodes }, ?_, hseg', (Function.update_eq_self_iff.2 hl.symm).symm, rfl, ?_⟩
    · rw [if_pos (ne_of_mem_of_not_mem hmem hnull), Store.setNext, Store.modifyNode, hmodify, Option.map_some]
    · exact fun b hb => hsame b (ne_of_mem_of_not_mem hmem hb).symm

/-- **The rest** of a list gets another address in front of it. -/
theorem linkPrev_rest {xs : List (Addr × β)} {n head : Addr} {methods : Methods β} {len : UInt64}
    (hl : s.lists p = some ⟨head, last n xs, methods, len⟩) (hseg : Seg s.nodes n xs 0)
    (hnodup : (0 :: addrs xs).Nodup) (m : Addr) :
    ∃ s', s.linkPrev p (first xs 0) m = some s' ∧ Seg s'.nodes m xs 0 ∧
      s'.lists = Function.update s.lists p (some ⟨head, last m xs, methods, len⟩) ∧ s'.freed = s.freed ∧
      ∀ a ∉ addrs xs, s'.nodes a = s.nodes a := by
  obtain ⟨hnull, hnodup⟩ := List.nodup_cons.1 hnodup
  unfold Store.linkPrev
  obtain rfl | ⟨⟨a, v⟩, xs, rfl⟩ := (eq_or_ne xs []).imp_right List.exists_cons_of_ne_nil
  · refine ⟨{ s with lists := _ }, ?_, trivial, rfl, rfl, fun _ _ => rfl⟩
    rw [first_nil, if_neg (not_not.2 rfl), modifyList_eq hl]
    rfl
  · have hmem := first_mem (List.cons_ne_nil (a, v) xs) 0
    obtain ⟨nodes, hmodify, hseg', hsame⟩ := hseg.setPrev (List.cons_ne_nil _ _) hnodup m
    refine ⟨{ s with nodes }, ?_, hseg', (Function.update_eq_self_iff.2 hl.symm).symm, rfl, ?_⟩
    · rw [if_pos (ne_of_mem_of_not_mem hmem hnull), Store.setPrev, Store.modifyNode, hmodify, Option.map_some]
    · exact fun b hb => hsame b (ne_of_mem_of_not_mem hmem hb).symm

/-- The last one in front gets another address behind it, if there is one. -/
theorem setNextOf_front (lists : Heap Addr (AdList β)) (freed : List β) {xs : List (Addr × β)} {n : Addr}
    (hseg : Seg nodes 0 xs n) (hnodup : (0 :: addrs xs).Nodup) (m : Addr) :
    ∃ nodes', Store.setNextOf ⟨nodes, lists, freed⟩ (last 0 xs) m = some ⟨nodes', lists, freed⟩ ∧
      Seg nodes' 0 xs m ∧ ∀ a ∉ addrs xs, nodes' a = nodes a := by
  obtain ⟨hnull, hnodup⟩ := List.nodup_cons.1 hnodup
  unfold Store.setNextOf
  obtain rfl | hne := eq_or_ne xs []
  · exact ⟨nodes, if_neg (not_not.2 rfl), trivial, fun _ _ => rfl⟩
  · have hmem := last_mem hne 0
    obtain ⟨nodes', hmodify, hseg', hsame⟩ := hseg.setNext hne hnodup m
    refine ⟨nodes', ?_, hseg', fun b hb => hsame b (ne_of_mem_of_not_mem hmem hb).symm⟩
    rw [if_pos (ne_of_mem_of_not_mem hmem hnull), Store.setNext, Store.modifyNode, hmodify, Option.map_some]

/-- The first one behind gets another address in front of it, if there is one. -/
theorem setPrevOf_rest (lists : Heap Addr (AdList β)) (freed : List β) {xs : List (Addr × β)} {n : Addr}
    (hseg : Seg nodes n xs 0) (hnodup : (0 :: addrs xs).Nodup) (m : Addr) :
    ∃ nodes', Store.setPrevOf ⟨nodes, lists, freed⟩ (first xs 0) m = some ⟨nodes', lists, freed⟩ ∧
      Seg nodes' m xs 0 ∧ ∀ a ∉ addrs xs, nodes' a = nodes a := by
  obtain ⟨hnull, hnodup⟩ := List.nodup_cons.1 hnodup
  unfold Store.setPrevOf
  obtain rfl | hne := eq_or_ne xs []
  · exact ⟨nodes, if_neg (not_not.2 rfl), trivial, fun _ _ => rfl⟩
  · have hmem := first_mem hne 0
    obtain ⟨nodes', hmodify, hseg', hsame⟩ := hseg.setPrev hne hnodup m
    refine ⟨nodes', ?_, hseg', fun b hb => hsame b (ne_of_mem_of_not_mem hmem hb).symm⟩
    rw [if_pos (ne_of_mem_of_not_mem hmem hnull), Store.setPrev, Store.modifyNode, hmodify, Option.map_some]

end Rkx.Adlist
