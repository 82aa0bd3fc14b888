import Rkx.AdlistContents

/-!
# What changes a list

* `Holds.listDelNode`, `Holds.listAddNodeHead`, `Holds.listAddNodeTail`, `Holds.listInsertNode_after`,
  `Holds.listInsertNode_before`: one node more or less;
* `Holds.listRotate`, `Holds.listEmpty`, `Holds.listRelease`, `Holds.listCreate`, `Holds.listJoin`: whole lists.
-/

set_option autoImplicit false

namespace Rkx.Adlist

open Function Lib.Linked

variable {β : Type} {s s' : Store β} {c : Lists β} {p : Addr} {x y : Contents β}
  {nodes : Heap Addr (ListNode β)} {lists : Heap Addr (AdList β)} {freed : List β}

/-! ## One node more or less -/

/-- What the `free` method is called with as these values go. -/
def Contents.released (x : Contents β) (vs : List β) : List β := if x.methods.free then vs else []

theorem freeValue_eq (s : Store β) (x : Contents β) (v : β) :
    s.freeValue x.methods v = ⟨s.nodes, s.lists, s.freed ++ x.released [v]⟩ := by
  unfold Store.freeValue Contents.released
  split
  · rfl
  · rw [List.append_nil]

/-- The counter goes back by one. -/
theorem len_sub_one (n : Nat) : UInt64.ofNat (n + 1) - 1 = UInt64.ofNat n := by
  rw [UInt64.ofNat_add, show UInt64.ofNat 1 = 1 from rfl, UInt64.add_sub_cancel]

/-- The addresses around a node. -/
structure Apart (xs ys : List (Addr × β)) (a : Addr) : Prop where
  front : (0 :: addrs xs).Nodup
  rest : (0 :: addrs ys).Nodup
  without : (0 :: addrs (xs ++ ys)).Nodup
  null : a ≠ 0
  notMem_front : a ∉ addrs xs
  notMem_rest : a ∉ addrs ys
  disjoint : List.Disjoint (addrs xs) (addrs ys)

theorem apart_iff {xs ys : List (Addr × β)} {a : Addr} {v : β} :
    (0 :: addrs (xs ++ (a, v) :: ys)).Nodup ↔ Apart xs ys a := by
  have hperm : (0 :: (addrs xs ++ a :: addrs ys)).Perm (a :: 0 :: (addrs xs ++ addrs ys)) :=
    List.perm_middle.cons 0 |>.trans (.swap a 0 _)
  rw [addrs_append, addrs_cons]
  constructor
  · intro h
    obtain ⟨ha, hnodup⟩ := List.nodup_cons.1 (hperm.nodup_iff.1 h)
    rw [List.mem_cons, List.mem_append, not_or, not_or] at ha
    obtain ⟨hnull, happend⟩ := List.nodup_cons.1 hnodup
    rw [List.mem_append, not_or] at hnull
    have hparts := List.nodup_append'.1 happend
    refine ⟨List.nodup_cons.2 ⟨hnull.1, hparts.1⟩, List.nodup_cons.2 ⟨hnull.2, hparts.2.1⟩, ?_, ha.1, ha.2.1, ha.2.2,
      hparts.2.2⟩
    rwa [addrs_append]
  · intro h
    have hwithout := h.without
    rw [addrs_append] at hwithout
    apply hperm.nodup_iff.2
    refine List.nodup_cons.2 ⟨?_, hwithout⟩
    rw [List.mem_cons, List.mem_append, not_or, not_or]
    exact ⟨h.null, h.notMem_front, h.notMem_rest⟩

/-- **`listDelNode`** takes out the node, and no other one. -/
theorem Holds.listDelNode (h : Holds s c) {xs ys : List (Addr × β)} {a : Addr} {v : β} (hp : c p = some x)
    (hx : x.nodes = xs ++ (a, v) :: ys) :
    ∃ s', listDelNode s p a = some s' ∧ Holds s' (Function.update c p (some { x with nodes := xs ++ ys })) ∧
      s'.freed = s.freed ++ x.released [v] := by
  have hseg := h.seg p x hp
  rw [hx] at hseg
  obtain ⟨hfront, hcell, hrest⟩ := seg_append.1 hseg
  have hapart : Apart xs ys a := apart_iff.1 (hx ▸ h.nodup p x hp)
  have hlist : s.lists p = some ⟨first xs a, last a ys, x.methods, UInt64.ofNat (xs ++ (a, v) :: ys).length⟩ := by
    rw [h.list hp, Contents.header, hx, first_append, first_cons, last_append, last_cons]
  -- the nodes in front
  obtain ⟨s₁, hnext, hseg₁, hlists₁, hfreed₁, hsame₁⟩ := linkNext_front hlist hfront hapart.front (first ys 0)
  have hcell₁ : s₁.nodes a = some ⟨last 0 xs, first ys 0, v⟩ := (hsame₁ a hapart.notMem_front).trans hcell
  have hrest₁ : Seg s₁.nodes a ys 0 := hrest.congr fun b hb => hsame₁ b fun hmem => hapart.disjoint hmem hb
  -- the nodes behind
  have hlist₁ := (congrFun hlists₁ p).trans (Function.update_self _ _ _)
  obtain ⟨s₂, hprev, hseg₂, hlists₂, hfreed₂, hsame₂⟩ := linkPrev_rest hlist₁ hrest₁ hapart.rest (last 0 xs)
  have hcell₂ : s₂.nodes a = some ⟨last 0 xs, first ys 0, v⟩ := (hsame₂ a hapart.notMem_rest).trans hcell₁
  have hfront₂ : Seg s₂.nodes 0 xs (first ys 0) := hseg₁.congr fun b hb => hsame₂ b fun hmem => hapart.disjoint hb hmem
  have hlist₂ := (congrFun hlists₂ p).trans (Function.update_self _ _ _)
  have hlen : UInt64.ofNat (xs ++ (a, v) :: ys).length - 1 = UInt64.ofNat (xs ++ ys).length := by
    rw [List.length_append, List.length_cons, ← Nat.add_assoc, len_sub_one, List.length_append]
  refine ⟨⟨Function.update s₂.nodes a none, Function.update s.lists p (some (Contents.header ⟨x.methods, xs ++ ys⟩)),
    s.freed ++ x.released [v]⟩, ?_, ?_, rfl⟩
  · unfold Adlist.listDelNode
    simp only [hcell, hnext, hcell₁, hprev, hcell₂, hlist₂, Option.bind_eq_bind, Option.bind_some]
    rw [freeValue_eq]
    rw [freeNode_eq hcell₂, Option.bind_some, modifyList_eq hlist₂, Contents.header, hlen, hlists₂, hlists₁, hfreed₂,
      hfreed₁, Function.update_idem, Function.update_idem, first_append, last_append]
  · refine h.change hp rfl ?_ hapart.without ?_ ?_ ?_
    · exact seg_append.2 ⟨hfront₂.update hapart.notMem_front _, hseg₂.update hapart.notMem_rest _⟩
    · intro b hbx hb
      rw [hx, addrs_append, addrs_cons, List.mem_append, List.mem_cons, not_or, not_or] at hbx
      exact (Function.update_of_ne hbx.2.1 _ _).trans ((hsame₂ b hbx.2.2).trans (hsame₁ b hbx.1))
    · intro b hb hbx
      have hsub : addrs (xs ++ ys) ⊆ addrs x.nodes := by
        rw [hx]
        exact List.map_subset _ (List.append_subset.2 ⟨List.subset_append_left _ _,
          fun _ h => List.mem_append_right _ (List.mem_cons_of_mem _ h)⟩)
      exact absurd (hsub hb) hbx
    · intro b hbx hb
      rw [hx, addrs_append, addrs_cons, List.mem_append, List.mem_cons] at hbx
      rw [addrs_append, List.mem_append, not_or] at hb
      obtain rfl : b = a := (hbx.resolve_left hb.1).resolve_right hb.2
      exact Function.update_self _ _ _

/-- A list with one node more. -/
theorem Holds.grow (h : Holds s c) {xs ys : List (Addr × β)} {a : Addr} {v : β} (hp : c p = some x)
    (hx : x.nodes = xs ++ ys) (hapart : Apart xs ys a) (hfree : s.nodes a = none)
    (hlists : s'.lists = Function.update s.lists p (some (Contents.header ⟨x.methods, xs ++ (a, v) :: ys⟩)))
    (hcell : s'.nodes a = some ⟨last 0 xs, first ys 0, v⟩) (hfront : Seg s'.nodes 0 xs a)
    (hrest : Seg s'.nodes a ys 0) (hother : ∀ b, b ≠ a → b ∉ addrs xs → b ∉ addrs ys → s'.nodes b = s.nodes b) :
    Holds s' (Function.update c p (some { x with nodes := xs ++ (a, v) :: ys })) := by
  refine h.change hp hlists (seg_append.2 ⟨hfront, hcell, hrest⟩) (apart_iff.2 hapart) ?_ ?_ ?_
  · intro b _ hb
    rw [addrs_append, addrs_cons, List.mem_append, List.mem_cons, not_or, not_or] at hb
    exact hother b hb.2.1 hb.1 hb.2.2
  · intro b hb hbx
    rw [addrs_append, addrs_cons, List.mem_append, List.mem_cons] at hb
    rw [hx, addrs_append, List.mem_append, not_or] at hbx
    rwa [(hb.resolve_left hbx.1).resolve_right hbx.2]
  · intro b hbx hb
    rw [hx, addrs_append, List.mem_append] at hbx
    rw [addrs_append, addrs_cons, List.mem_append, List.mem_cons, not_or, not_or] at hb
    exact absurd hbx (not_or.2 ⟨hb.1, hb.2.2⟩)

/-- A new object is no node of a list. -/
theorem Holds.apart (h : Holds s c) {xs ys : List (Addr × β)} {a : Addr} (hp : c p = some x) (hx : x.nodes = xs ++ ys)
    (ha : a ≠ 0) (hfree : s.nodes a = none) : Apart xs ys a := by
  have hnodup := h.nodup p x hp
  have hmem : a ∉ addrs x.nodes := fun hmem => (h.seg p x hp).ne_none hmem hfree
  rw [hx] at hnodup hmem
  have hnodup' := hnodup
  rw [addrs_append] at hnodup hmem
  rw [List.mem_append, not_or] at hmem
  obtain ⟨hnull, happend⟩ := List.nodup_cons.1 hnodup
  rw [List.mem_append, not_or] at hnull
  have hparts := List.nodup_append'.1 happend
  exact ⟨List.nodup_cons.2 ⟨hnull.1, hparts.1⟩, List.nodup_cons.2 ⟨hnull.2, hparts.2.1⟩, hnodup', ha, hmem.1, hmem.2,
    hparts.2.2⟩

/-- The counter goes on by one. -/
theorem len_add_one (xs ys : List (Addr × β)) (a : Addr) (v : β) :
    UInt64.ofNat (xs ++ ys).length + 1 = UInt64.ofNat (xs ++ (a, v) :: ys).length := by
  rw [List.length_append, List.length_append, List.length_cons, ← Nat.add_assoc, UInt64.ofNat_add _ 1]
  rfl

/-- **`listAddNodeHead`** -/
theorem Holds.listAddNodeHead (h : Holds s c) (hp : c p = some x) {a : Addr} (ha : a ≠ 0) (hfree : s.nodes a = none)
    (v : β) :
    ∃ s', listAddNodeHead s p v (some a) = some (s', p) ∧
      Holds s' (Function.update c p (some { x with nodes := (a, v) :: x.nodes })) ∧ s'.freed = s.freed := by
  have hapart : Apart [] x.nodes a := h.apart hp rfl ha hfree
  have hlist := h.list hp
  have hlen : x.header.len + 1 = UInt64.ofNat ((a, v) :: x.nodes).length := len_add_one [] x.nodes a v
  unfold Adlist.listAddNodeHead Store.addNode
  simp only [hlist, Option.bind_eq_bind, Option.bind_some]
  by_cases hzero : x.header.len = 0
  · have hnil := (len_eq_zero_iff (h.nodup p x hp)).1 hzero
    rw [if_pos hzero, modifyList_eq hlist, hlen]
    refine ⟨_, rfl, h.grow hp rfl hapart hfree ?_ ?_ trivial ?_ ?_, rfl⟩
    · simp only [Contents.header, hnil, List.nil_append, first_cons, last_cons, last_nil]
    · simp only [hnil, first_nil, last_nil, Function.update_self]
    · rw [hnil]
      trivial
    · exact fun b hb _ _ => Function.update_of_ne hb _ _
  · have hne : x.nodes ≠ [] := fun hnil => hzero ((len_eq_zero_iff (h.nodup p x hp)).2 hnil)
    have hseg := (h.seg p x hp).update hapart.notMem_rest (some ⟨0, first x.nodes 0, v⟩)
    obtain ⟨nodes', hprev, hseg', hsame⟩ := hseg.setPrev hne (List.nodup_cons.1 hapart.rest).2 a
    have hhead : a ≠ first x.nodes 0 := (ne_of_mem_of_not_mem (first_mem hne 0) hapart.notMem_rest).symm
    rw [if_neg hzero, Store.setPrev, Store.modifyNode, show x.header.head = first x.nodes 0 from rfl, hprev,
      Option.map_some, Option.bind_some, modifyList_eq hlist, hlen]
    refine ⟨_, rfl, h.grow hp rfl hapart hfree ?_ ?_ trivial hseg' ?_, rfl⟩
    · obtain ⟨⟨b, w⟩, ys, hx⟩ := List.exists_cons_of_ne_nil hne
      simp only [Contents.header, hx, List.nil_append, first_cons, last_cons]
    · exact (hsame a hhead).trans (Function.update_self _ _ _)
    · intro b hb _ hmem
      have hbhead : b ≠ first x.nodes 0 := (ne_of_mem_of_not_mem (first_mem hne 0) hmem).symm
      exact (hsame b hbhead).trans (Function.update_of_ne hb _ _)

/-- **`listAddNodeTail`** -/
theorem Holds.listAddNodeTail (h : Holds s c) (hp : c p = some x) {a : Addr} (ha : a ≠ 0) (hfree : s.nodes a = none)
    (v : β) :
    ∃ s', listAddNodeTail s p v (some a) = some (s', p) ∧
      Holds s' (Function.update c p (some { x with nodes := x.nodes ++ [(a, v)] })) ∧ s'.freed = s.freed := by
  have happend : x.nodes = x.nodes ++ [] := (List.append_nil _).symm
  have hapart : Apart x.nodes [] a := h.apart hp happend ha hfree
  have hlist := h.list hp
  have hlen : x.header.len + 1 = UInt64.ofNat (x.nodes ++ [(a, v)]).length := by
    rw [← len_add_one, List.append_nil]
    rfl
  unfold Adlist.listAddNodeTail Store.addNode
  simp only [hlist, Option.bind_eq_bind, Option.bind_some]
  by_cases hzero : x.header.len = 0
  · have hnil := (len_eq_zero_iff (h.nodup p x hp)).1 hzero
    rw [if_pos hzero, modifyList_eq hlist, hlen]
    refine ⟨_, rfl, h.grow hp happend hapart hfree ?_ ?_ ?_ trivial ?_, rfl⟩
    · simp only [Contents.header, hnil, List.nil_append, first_cons, last_cons, last_nil]
    · simp only [hnil, first_nil, last_nil, Function.update_self]
    · rw [hnil]
      trivial
    · exact fun b hb _ _ => Function.update_of_ne hb _ _
  · have hne : x.nodes ≠ [] := fun hnil => hzero ((len_eq_zero_iff (h.nodup p x hp)).2 hnil)
    have hseg := (h.seg p x hp).update hapart.notMem_front (some ⟨last 0 x.nodes, 0, v⟩)
    obtain ⟨nodes', hnext, hseg', hsame⟩ := hseg.setNext hne (List.nodup_cons.1 hapart.front).2 a
    have htail : a ≠ last 0 x.nodes := (ne_of_mem_of_not_mem (last_mem hne 0) hapart.notMem_front).symm
    rw [if_neg hzero, Store.setNext, Store.modifyNode, show x.header.tail = last 0 x.nodes from rfl, hnext,
      Option.map_some, Option.bind_some, modifyList_eq hlist, hlen]
    refine ⟨_, rfl, h.grow hp happend hapart hfree ?_ ?_ hseg' trivial ?_, rfl⟩
    · obtain ⟨⟨b, w⟩, ys, hx⟩ := List.exists_cons_of_ne_nil hne
      simp only [Contents.header, hx, List.cons_append, first_cons, last_cons, last_append, last_nil]
    · exact (hsame a htail).trans (Function.update_self _ _ _)
    · intro b hb hmem _
      have hbtail : b ≠ last 0 x.nodes := (ne_of_mem_of_not_mem (last_mem hne 0) hmem).symm
      exact (hsame b hbtail).trans (Function.update_of_ne hb _ _)

/-- A node that is linked between its neighbours. -/
theorem linkInserted_links (freed : List β) {l : AdList β} (hl : lists p = some l) {xs ys : List (Addr × β)} {a m n : Addr} {v : β}
    (hapart : Apart xs ys a) (hcell : nodes a = some ⟨last 0 xs, first ys 0, v⟩) (hfront : Seg nodes 0 xs m)
    (hrest : Seg nodes n ys 0) :
    ∃ nodes', linkInserted ⟨nodes, lists, freed⟩ p a =
        some (⟨nodes', Function.update lists p (some { l with len := l.len + 1 }), freed⟩, p) ∧
      nodes' a = some ⟨last 0 xs, first ys 0, v⟩ ∧ Seg nodes' 0 xs a ∧ Seg nodes' a ys 0 ∧
      ∀ b ∉ addrs xs, b ∉ addrs ys → nodes' b = nodes b := by
  obtain ⟨nodes₁, hnext, hfront₁, hsame₁⟩ :=
    setNextOf_front lists freed hfront hapart.front a
  have hcell₁ := (hsame₁ a hapart.notMem_front).trans hcell
  have hrest₁ := hrest.congr fun b hb => hsame₁ b fun hmem => hapart.disjoint hmem hb
  obtain ⟨nodes₂, hprev, hrest₂, hsame₂⟩ :=
    setPrevOf_rest lists freed hrest₁ hapart.rest a
  refine ⟨nodes₂, ?_, (hsame₂ a hapart.notMem_rest).trans hcell₁, ?_, hrest₂, ?_⟩
  · unfold linkInserted
    simp only [hcell, hnext, hcell₁, hprev, Option.bind_eq_bind, Option.bind_some]
    rw [modifyList_eq hl]
    rfl
  · exact hfront₁.congr fun b hb => hsame₂ b fun hmem => hapart.disjoint hb hmem
  · exact fun b hbx hby => (hsame₂ b hby).trans (hsame₁ b hbx)

/-- Only the tail has no node behind it. -/
theorem last_moved {ys : List (Addr × β)} {b : Addr} (hb : b ∉ addrs ys) (a : Addr) :
    (if last b ys = b then a else last b ys) = last a ys := by
  obtain rfl | ⟨⟨d, u⟩, ys, rfl⟩ := (eq_or_ne ys []).imp_right List.exists_cons_of_ne_nil
  · exact if_pos rfl
  · exact if_neg (ne_of_mem_of_not_mem (last_mem (List.cons_ne_nil (d, u) ys) b) hb)

theorem first_moved {xs : List (Addr × β)} {b : Addr} (hb : b ∉ addrs xs) (a : Addr) :
    (if first xs b = b then a else first xs b) = first xs a := by
  obtain rfl | ⟨⟨d, u⟩, xs, rfl⟩ := (eq_or_ne xs []).imp_right List.exists_cons_of_ne_nil
  · exact if_pos rfl
  · exact if_neg (ne_of_mem_of_not_mem List.mem_cons_self hb)

/-- **`listInsertNode`** behind a node. -/
theorem Holds.listInsertNode_after (h : Holds s c) {xs ys : List (Addr × β)} {b : Addr} {w : β} (hp : c p = some x)
    (hx : x.nodes = xs ++ (b, w) :: ys) {a : Addr} (ha : a ≠ 0) (hfree : s.nodes a = none) (v : β) :
    ∃ s', listInsertNode s p b v true (some a) = some (s', p) ∧
      Holds s' (Function.update c p (some { x with nodes := xs ++ (b, w) :: (a, v) :: ys })) ∧ s'.freed = s.freed := by
  have hsplit : x.nodes = (xs ++ [(b, w)]) ++ ys := by rw [hx, List.append_assoc, List.singleton_append]
  have hnew : (xs ++ [(b, w)]) ++ (a, v) :: ys = xs ++ (b, w) :: (a, v) :: ys := by
    rw [List.append_assoc, List.singleton_append]
  have hapart := h.apart hp hsplit ha hfree
  have hb : b ∉ addrs ys := (apart_iff.1 (hx ▸ h.nodup p x hp)).notMem_rest
  have hseg := h.seg p x hp
  have hcell : s.nodes b = some ⟨last 0 xs, first ys 0, w⟩ := Seg.at (hx ▸ hseg)
  rw [hsplit, seg_append] at hseg
  have hlast : last 0 (xs ++ [(b, w)]) = b := by rw [last_append, last_cons, last_nil]
  have hlist : s.lists p = some ⟨first x.nodes 0, last b ys, x.methods, UInt64.ofNat x.nodes.length⟩ := by
    rw [h.list hp, Contents.header, hsplit, last_append, hlast]
  obtain ⟨nodes', hinserted, hcell', hfront', hrest', hsame⟩ := linkInserted_links s.freed
    (Function.update_self p (some ⟨first x.nodes 0, last a ys, x.methods, UInt64.ofNat x.nodes.length⟩) s.lists)
    hapart (v := v) (Function.update_self a _ s.nodes)
    (hseg.1.update hapart.notMem_front _) (hseg.2.update hapart.notMem_rest _)
  have hmoved : (if last b ys = b then (⟨first x.nodes 0, a, x.methods, UInt64.ofNat x.nodes.length⟩ : AdList β)
      else ⟨first x.nodes 0, last b ys, x.methods, UInt64.ofNat x.nodes.length⟩) =
      ⟨first x.nodes 0, last a ys, x.methods, UInt64.ofNat x.nodes.length⟩ := by
    rw [← last_moved hb a]
    split <;> rfl
  have hheader : (⟨first x.nodes 0, last a ys, x.methods, UInt64.ofNat x.nodes.length + 1⟩ : AdList β) =
      Contents.header ⟨x.methods, (xs ++ [(b, w)]) ++ (a, v) :: ys⟩ := by
    rw [Contents.header, hsplit, len_add_one _ _ a v, first_append _ ys, last_append, last_cons, first_append _ (_ :: _),
      first_append, first_append]
    rfl
  refine ⟨⟨nodes', Function.update s.lists p (some (Contents.header ⟨x.methods, (xs ++ [(b, w)]) ++ (a, v) :: ys⟩)),
    s.freed⟩, ?_, hnew ▸ h.grow hp hsplit hapart hfree rfl hcell' hfront' hrest' ?_, rfl⟩
  · rw [Function.update_idem, hlast, hheader] at hinserted
    unfold Adlist.listInsertNode Store.addNode
    simp only [hcell, Option.bind_eq_bind, Option.bind_some, if_true]
    rw [modifyList_eq hlist, Option.bind_some]
    simp only [hmoved]
    exact hinserted
  · exact fun d hd hdx hdy => (hsame d hdx hdy).trans (Function.update_of_ne hd _ _)

/-- **`listInsertNode`** in front of a node. -/
theorem Holds.listInsertNode_before (h : Holds s c) {xs ys : List (Addr × β)} {b : Addr} {w : β} (hp : c p = some x)
    (hx : x.nodes = xs ++ (b, w) :: ys) {a : Addr} (ha : a ≠ 0) (hfree : s.nodes a = none) (v : β) :
    ∃ s', listInsertNode s p b v false (some a) = some (s', p) ∧
      Holds s' (Function.update c p (some { x with nodes := xs ++ (a, v) :: (b, w) :: ys })) ∧ s'.freed = s.freed := by
  have hapart := h.apart hp hx ha hfree
  have hb : b ∉ addrs xs := (apart_iff.1 (hx ▸ h.nodup p x hp)).notMem_front
  have hseg := h.seg p x hp
  have hcell : s.nodes b = some ⟨last 0 xs, first ys 0, w⟩ := Seg.at (hx ▸ hseg)
  rw [hx, seg_append] at hseg
  have hlist : s.lists p = some ⟨first xs b, last 0 x.nodes, x.methods, UInt64.ofNat x.nodes.length⟩ := by
    rw [h.list hp, Contents.header, hx, first_append, first_cons]
  obtain ⟨nodes', hinserted, hcell', hfront', hrest', hsame⟩ := linkInserted_links s.freed
    (Function.update_self p (some ⟨first xs a, last 0 x.nodes, x.methods, UInt64.ofNat x.nodes.length⟩) s.lists)
    hapart (v := v) (Function.update_self a _ s.nodes)
    (hseg.1.update hapart.notMem_front _) (hseg.2.update hapart.notMem_rest _)
  have hmoved : (if first xs b = b then (⟨a, last 0 x.nodes, x.methods, UInt64.ofNat x.nodes.length⟩ : AdList β)
      else ⟨first xs b, last 0 x.nodes, x.methods, UInt64.ofNat x.nodes.length⟩) =
      ⟨first xs a, last 0 x.nodes, x.methods, UInt64.ofNat x.nodes.length⟩ := by
    rw [← first_moved hb a]
    split <;> rfl
  have hheader : (⟨first xs a, last 0 x.nodes, x.methods, UInt64.ofNat x.nodes.length + 1⟩ : AdList β) =
      Contents.header ⟨x.methods, xs ++ (a, v) :: (b, w) :: ys⟩ := by
    rw [Contents.header, hx, len_add_one _ _ a v, first_append, last_append, last_append]
    rfl
  refine ⟨⟨nodes', Function.update s.lists p (some (Contents.header ⟨x.methods, xs ++ (a, v) :: (b, w) :: ys⟩)),
    s.freed⟩, ?_, h.grow hp hx hapart hfree rfl hcell' hfront' hrest' ?_, rfl⟩
  · rw [Function.update_idem, hheader] at hinserted
    unfold Adlist.listInsertNode Store.addNode
    simp only [hcell, Option.bind_eq_bind, Option.bind_some, Bool.false_eq_true, if_false]
    rw [modifyList_eq hlist, Option.bind_some]
    simp only [hmoved]
    exact hinserted
  · exact fun d hd hdx hdy => (hsame d hdx hdy).trans (Function.update_of_ne hd _ _)

/-! ## Whole lists -/

/-- The same nodes in the same places. -/
theorem Holds.relabel (h : Holds s c) (hp : c p = some x) (methods : Methods β)
    (hlists : s'.lists = Function.update s.lists p (some (Contents.header ⟨methods, x.nodes⟩)))
    (hnodes : s'.nodes = s.nodes) : Holds s' (Function.update c p (some ⟨methods, x.nodes⟩)) := by
  refine h.change hp hlists (hnodes ▸ h.seg p x hp) (h.nodup p x hp) ?_ ?_ ?_
  · exact fun a _ _ => congrFun hnodes a
  · exact fun a ha hx => absurd ha hx
  · exact fun a ha hx => absurd ha hx

theorem Holds.listSetMethods (h : Holds s c) (hp : c p = some x) (methods : Methods β) :
    ∃ s', listSetMethods s p methods = some s' ∧ Holds s' (Function.update c p (some { x with methods })) ∧
      s'.freed = s.freed :=
  ⟨_, modifyList_eq (h.list hp) _, h.relabel hp methods rfl rfl, rfl⟩

/-- The last one becomes the first one. -/
def rotated {α : Type} (l : List α) : List α := l.getLast?.toList ++ l.dropLast

theorem rotated_of_le {α : Type} {l : List α} (h : l.length ≤ 1) : rotated l = l := by
  match l, h with
  | [], _ => rfl
  | [_], _ => rfl

theorem rotated_append {α : Type} (l : List α) (a : α) : rotated (l ++ [a]) = a :: l := by
  rw [rotated, List.getLast?_concat, List.dropLast_concat]
  rfl

/-- **`listRotate`** -/
theorem Holds.listRotate (h : Holds s c) (hp : c p = some x) :
    ∃ s', listRotate s p = some s' ∧ Holds s' (Function.update c p (some { x with nodes := rotated x.nodes })) ∧
      s'.freed = s.freed := by
  have hlist := h.list hp
  have hlen : x.header.len ≤ 1 ↔ x.nodes.length ≤ 1 := by
    rw [UInt64.le_iff_toNat_le, toNat_len (h.nodup p x hp)]
    rfl
  unfold Adlist.listRotate
  simp only [hlist, Option.bind_eq_bind, Option.bind_some, hlen]
  by_cases hshort : x.nodes.length ≤ 1
  · rw [if_pos hshort, rotated_of_le hshort]
    exact ⟨s, rfl, by rwa [Function.update_eq_self_iff.2 hp.symm], rfl⟩
  · rw [if_neg hshort]
    obtain ⟨xs, ⟨a, v⟩, hx⟩ : ∃ xs z, x.nodes = xs ++ [z] :=
      ⟨_, _, (List.dropLast_concat_getLast (l := x.nodes) (by rintro hnil; simp [hnil] at hshort)).symm⟩
    have hne : xs ≠ [] := by
      rintro rfl
      exact hshort (by rw [hx]; exact Nat.le_refl 1)
    have hapart : Apart xs [] a := apart_iff.1 (hx ▸ h.nodup p x hp)
    have hnodup := (List.nodup_cons.1 hapart.front).2
    have hseg := h.seg p x hp
    rw [hx, seg_append] at hseg
    obtain ⟨hfront, hcell, -⟩ := hseg
    have hheader : x.header = ⟨first xs a, a, x.methods, UInt64.ofNat (xs.length + 1)⟩ := by
      rw [Contents.header, hx, first_append, last_append, List.length_append]
      rfl
    have hfirst : ∀ n, first xs n = first xs 0 := by
      obtain ⟨z, zs, rfl⟩ := List.exists_cons_of_ne_nil hne
      exact fun _ => rfl
    rw [hheader] at hlist
    -- the last but one, and the first one
    obtain ⟨nodes₁, hnext, hseg₁, hsame₁⟩ := hfront.setNext hne hnodup 0
    have hcell₁ := (hsame₁ a (ne_of_mem_of_not_mem (last_mem hne 0) hapart.notMem_front).symm).trans hcell
    obtain ⟨nodes₂, hprev, hseg₂, hsame₂⟩ := hseg₁.setPrev hne hnodup a
    have hcell₂ := (hsame₂ a (ne_of_mem_of_not_mem (first_mem hne 0) hapart.notMem_front).symm).trans hcell₁
    simp only [hheader, hfirst a, hcell, Option.bind_some, modifyList_eq hlist, Store.setNext, Store.setPrev,
      Store.modifyNode, hnext, hprev, Option.map_some, Heap.modify?_eq hcell₂, Heap.modify?_eq (Function.update_self a _ nodes₂)]
    rw [modifyList_eq (Function.update_self _ _ _), Function.update_idem, Function.update_idem, hx, rotated_append]
    have hlast : last 0 xs = last a xs := by
      obtain ⟨z, zs, rfl⟩ := List.exists_cons_of_ne_nil hne
      rfl
    have hperm : (addrs x.nodes).Perm (a :: addrs xs) := by
      rw [hx, addrs_append]
      exact List.perm_append_comm
    refine ⟨_, rfl, h.change hp ?_ ?_ ?_ ?_ ?_ ?_, rfl⟩
    · simp only [Contents.header, first_cons, last_cons, hlast, List.length_cons]
    · exact ⟨Function.update_self _ _ _, hseg₂.update hapart.notMem_front _⟩
    · exact (hperm.cons 0).nodup_iff.1 (h.nodup p x hp)
    · intro b _ hb
      rw [addrs_cons, List.mem_cons, not_or] at hb
      have hblast := (ne_of_mem_of_not_mem (last_mem hne 0) hb.2).symm
      have hbfirst := (ne_of_mem_of_not_mem (first_mem hne 0) hb.2).symm
      exact (Function.update_of_ne hb.1 _ _).trans ((hsame₂ b hbfirst).trans (hsame₁ b hblast))
    · exact fun b hb hbx => absurd (hperm.mem_iff.2 hb) hbx
    · exact fun b hbx hb => absurd (hperm.mem_iff.1 hbx) hb

/-! ## Emptied lists -/

/-- The nodes without those of a list. -/
def without (nodes : Heap Addr (ListNode β)) (l : List (Addr × β)) : Heap Addr (ListNode β) :=
  fun a => if a ∈ addrs l then none else nodes a

theorem without_nil (nodes : Heap Addr (ListNode β)) : without nodes [] = nodes := by
  funext a
  exact if_neg List.not_mem_nil

theorem without_cons (nodes : Heap Addr (ListNode β)) (a : Addr) (v : β) (l : List (Addr × β)) :
    without (Function.update nodes a none) l = without nodes ((a, v) :: l) := by
  funext b
  unfold without
  rw [addrs_cons]
  by_cases hb : b ∈ addrs l
  · rw [if_pos hb, if_pos (List.mem_cons_of_mem _ hb)]
  · rw [if_neg hb]
    obtain rfl | hne := eq_or_ne b a
    · rw [Function.update_self, if_pos List.mem_cons_self]
    · rw [Function.update_of_ne hne, if_neg (not_or.2 ⟨hne, hb⟩ ∘ List.mem_cons.1)]

theorem released_append (x : Contents β) (vs ws : List β) : x.released (vs ++ ws) = x.released vs ++ x.released ws := by
  unfold Contents.released
  split <;> rfl

theorem emptyTurns_eq (freed : List β) (x : Contents β) (hl : ∃ l, lists p = some l ∧ l.methods = x.methods) {xs : List (Addr × β)}
    {n : Addr} (hseg : Seg nodes n xs 0) (hnodup : (addrs xs).Nodup) :
    emptyTurns p xs.length ⟨nodes, lists, freed⟩ (first xs 0) =
      some ⟨without nodes xs, lists, freed ++ x.released (xs.map Prod.snd)⟩ := by
  induction xs generalizing nodes freed n with
  | nil =>
    have hreleased : x.released ([] : List β) = [] := by
      unfold Contents.released
      rw [ite_self]
    rw [without_nil, List.map_nil, hreleased, List.append_nil]
    rfl
  | cons z xs ih =>
    obtain ⟨a, v⟩ := z
    obtain ⟨hcell, hrest⟩ := hseg
    obtain ⟨l, hl, hmethods⟩ := hl
    obtain ⟨ha, hnodup⟩ := List.nodup_cons.1 hnodup
    have hturns := ih (freed ++ x.released [v]) (hrest.update ha none) hnodup
    rw [List.length_cons, first_cons, emptyTurns]
    simp only [hcell, hl, hmethods, freeValue_eq, freeNode_eq hcell, Option.bind_eq_bind, Option.bind_some]
    rw [hturns, without_cons _ a v, List.append_assoc, ← released_append]
    rfl

/-- **`listEmpty`** -/
theorem Holds.listEmpty (h : Holds s c) (hp : c p = some x) :
    ∃ s', listEmpty s p = some s' ∧ Holds s' (Function.update c p (some { x with nodes := [] })) ∧
      s'.freed = s.freed ++ x.released (x.nodes.map Prod.snd) := by
  have hlist := h.list hp
  have hnodup := h.nodup p x hp
  have hturns := emptyTurns_eq s.freed x ⟨_, hlist, rfl⟩ (h.seg p x hp) (List.nodup_cons.1 hnodup).2
  unfold Adlist.listEmpty
  simp only [hlist, toNat_len hnodup, Option.bind_eq_bind, Option.bind_some]
  rw [show x.header.head = first x.nodes 0 from rfl, hturns, Option.bind_some, modifyList_eq hlist]
  refine ⟨_, rfl, h.change hp rfl trivial (List.nodup_singleton 0) ?_ ?_ ?_, rfl⟩
  · exact fun a ha _ => if_neg ha
  · exact fun a ha => absurd ha List.not_mem_nil
  · exact fun a ha _ => if_pos ha

/-- A list without nodes comes or goes. -/
theorem Holds.replace (h : Holds s c) (hp : ∀ x, c p = some x → x.nodes = []) {z : Option (Contents β)}
    (hz : ∀ y, z = some y → p ≠ 0 ∧ y.nodes = []) (hlists : s'.lists = Function.update s.lists p (z.map Contents.header))
    (hnodes : s'.nodes = s.nodes) : Holds s' (Function.update c p z) := by
  have hempty : ∀ y, Function.update c p z p = some y → y.nodes = [] := by
    intro y hy
    rw [Function.update_self] at hy
    exact (hz y hy).2
  have hother : ∀ {q y}, q ≠ p → Function.update c p z q = some y → c q = some y := by
    intro q y hne hq
    rwa [Function.update_of_ne hne] at hq
  refine ⟨?_, ?_, ?_, ?_, ?_, ?_⟩
  · obtain rfl | hne := eq_or_ne 0 p
    · rw [Function.update_self]
      exact Option.eq_none_iff_forall_ne_some.2 fun y hy => (hz y hy).1 rfl
    · rw [Function.update_of_ne hne]
      exact h.null
  · intro q
    rw [hlists]
    obtain rfl | hne := eq_or_ne q p
    · rw [Function.update_self, Function.update_self]
    · rw [Function.update_of_ne hne, Function.update_of_ne hne]
      exact h.lists q
  · intro q y hq
    obtain rfl | hne := eq_or_ne q p
    · rw [hempty y hq]
      trivial
    · rw [hnodes]
      exact h.seg q y (hother hne hq)
  · intro q y hq
    obtain rfl | hne := eq_or_ne q p
    · rw [hempty y hq]
      exact List.nodup_singleton 0
    · exact h.nodup q y (hother hne hq)
  · intro q r y w hq hr hne
    obtain rfl | hqp := eq_or_ne q p
    · rw [hempty y hq]
      exact List.disjoint_nil_left _
    · obtain rfl | hrp := eq_or_ne r p
      · rw [hempty w hr]
        exact List.disjoint_nil_right _
      · exact h.disjoint q r y w (hother hqp hq) (hother hrp hr) hne
  · intro a ha
    rw [hnodes] at ha
    obtain ⟨q, y, hq, hmem⟩ := h.owned a ha
    have hne : q ≠ p := by
      rintro rfl
      rw [hp y hq] at hmem
      exact List.not_mem_nil hmem
    exact ⟨q, y, by rw [Function.update_of_ne hne, hq], hmem⟩

/-- **`listCreate`** -/
theorem Holds.listCreate (h : Holds s c) (hp : p ≠ 0) (hfree : c p = none) :
    ∃ s', listCreate s (some p) = (s', p) ∧ Holds s' (Function.update c p (some ⟨⟨none, false, none⟩, []⟩)) ∧
      s'.freed = s.freed := by
  refine ⟨_, rfl, h.replace ?_ ?_ rfl rfl, rfl⟩
  · intro x hx
    rw [hfree] at hx
    cases hx
  · intro y hy
    cases hy
    exact ⟨hp, rfl⟩

/-- **`listRelease`** -/
theorem Holds.listRelease (h : Holds s c) (hp : c p = some x) :
    ∃ s', listRelease s p = some s' ∧ Holds s' (Function.update c p none) ∧
      s'.freed = s.freed ++ x.released (x.nodes.map Prod.snd) := by
  obtain ⟨s₁, hempty, h₁, hfreed₁⟩ := h.listEmpty hp
  have hp₁ : Function.update c p (some { x with nodes := [] }) p = _ := Function.update_self _ _ _
  unfold Adlist.listRelease
  simp only [hempty, Option.bind_eq_bind, Option.bind_some]
  rw [Heap.free?_eq (h₁.list hp₁), Option.map_some]
  have hnil : ∀ y, Function.update c p (some { x with nodes := [] }) p = some y → y.nodes = [] := by
    intro y hy
    cases hp₁.symm.trans hy
    rfl
  have h₂ : Holds ⟨s₁.nodes, Function.update s₁.lists p none, s₁.freed⟩ _ :=
    h₁.replace hnil (z := none) (fun y hy => nomatch hy) rfl rfl
  rw [Function.update_idem] at h₂
  exact ⟨_, rfl, h₂, hfreed₁⟩

/-- **`listJoin`** of two lists. -/
theorem Holds.listJoin (h : Holds s c) {q : Addr} (hp : c p = some x) (hq : c q = some y) (hne : p ≠ q) :
    ∃ s', listJoin s p q = some s' ∧
      Holds s' (Function.update (Function.update c q (some { y with nodes := [] })) p
        (some { x with nodes := x.nodes ++ y.nodes })) ∧ s'.freed = s.freed := by
  have hlistp := h.list hp
  have hlistq := h.list hq
  have hdisjoint := h.disjoint p q x y hp hq hne
  have hnodupx := h.nodup p x hp
  have hnodupy := h.nodup q y hq
  -- the nodes of the other list
  obtain ⟨nodes₁, hprev, hrest₁, hsame₁⟩ :=
    setPrevOf_rest s.lists s.freed (h.seg q y hq) hnodupy (last 0 x.nodes)
  have hfront₁ := (h.seg p x hp).congr fun a ha => hsame₁ a fun hmem => hdisjoint ha hmem
  -- the nodes of the list
  obtain ⟨s₂, hnext, hfront₂, hlists₂, hfreed₂, hsame₂⟩ :=
    linkNext_front (s := ⟨nodes₁, s.lists, s.freed⟩) hlistp hfront₁ hnodupx (first y.nodes 0)
  have hrest₂ := hrest₁.congr fun a ha => hsame₂ a fun hmem => hdisjoint hmem ha
  have hp₂ := (congrFun hlists₂ p).trans (Function.update_self _ _ _)
  have hq₂ : s₂.lists q = some y.header := (congrFun hlists₂ q).trans ((Function.update_of_ne hne.symm _ _).trans hlistq)
  have hnully : 0 ∉ addrs y.nodes := (List.nodup_cons.1 hnodupy).1
  have htail : (if y.header.tail ≠ 0 then (⟨first x.nodes (first y.nodes 0), y.header.tail, x.methods,
      UInt64.ofNat x.nodes.length⟩ : AdList β) else ⟨first x.nodes (first y.nodes 0), last 0 x.nodes, x.methods,
      UInt64.ofNat x.nodes.length⟩) =
      ⟨first (x.nodes ++ y.nodes) 0, last 0 (x.nodes ++ y.nodes), x.methods, UInt64.ofNat x.nodes.length⟩ := by
    rw [first_append, last_append, ← last_moved hnully (last 0 x.nodes), show y.header.tail = last 0 y.nodes from rfl,
      ite_not]
    split <;> rfl
  have hlen : UInt64.ofNat x.nodes.length + y.header.len = UInt64.ofNat (x.nodes ++ y.nodes).length := by
    rw [List.length_append, UInt64.ofNat_add]
    rfl
  refine ⟨⟨s₂.nodes, Function.update (Function.update s.lists q (some (Contents.header ⟨y.methods, []⟩))) p
    (some (Contents.header ⟨x.methods, x.nodes ++ y.nodes⟩)), s.freed⟩, ?_, ?_, rfl⟩
  · unfold Adlist.listJoin
    have hprev' : s.setPrevOf (first y.nodes 0) (last 0 x.nodes) = some ⟨nodes₁, s.lists, s.freed⟩ := hprev
    simp only [hlistp, hlistq, hprev', show x.header.tail = last 0 x.nodes from rfl,
      show y.header.head = first y.nodes 0 from rfl, hnext, hq₂, modifyList_eq hp₂, Option.bind_eq_bind, Option.bind_some]
    rw [htail, Function.update_of_ne hne.symm, hq₂, Option.bind_some, modifyList_eq (Function.update_self _ _ _), hlen,
      Option.bind_some, Function.update_idem, hlists₂, Function.update_idem,
      modifyList_eq ((Function.update_of_ne hne.symm _ _).trans hlistq), hfreed₂, Function.update_comm hne]
    rfl
  · have h₀ : Holds ⟨without s.nodes y.nodes, Function.update s.lists q (some (Contents.header ⟨y.methods, []⟩)),
        s.freed⟩ (Function.update c q (some { y with nodes := [] })) :=
      h.change hq rfl trivial (List.nodup_singleton 0) (fun a ha _ => if_neg ha)
        (fun a ha => absurd ha List.not_mem_nil) (fun a ha _ => if_pos ha)
    have hp₀ : Function.update c q (some { y with nodes := [] }) p = some x := (Function.update_of_ne hne _ _).trans hp
    refine h₀.change hp₀ rfl (seg_append.2 ⟨hfront₂, hrest₂⟩) ?_ ?_ ?_ ?_
    · obtain ⟨hnullx, haddrsx⟩ := List.nodup_cons.1 hnodupx
      rw [addrs_append, List.nodup_cons, List.mem_append, not_or]
      exact ⟨⟨hnullx, hnully⟩, List.nodup_append'.2 ⟨haddrsx, (List.nodup_cons.1 hnodupy).2, hdisjoint⟩⟩
    · intro a hax ha
      rw [addrs_append, List.mem_append, not_or] at ha
      exact (hsame₂ a ha.1).trans ((hsame₁ a ha.2).trans (if_neg ha.2).symm)
    · intro a ha hax
      rw [addrs_append, List.mem_append] at ha
      exact if_pos (ha.resolve_left hax)
    · intro a hax ha
      rw [addrs_append, List.mem_append, not_or] at ha
      exact absurd hax ha.1

end Rkx.Adlist
