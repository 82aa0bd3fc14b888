import Rkx.AdlistChanges
import Rkx.Lib.Runs

/-!
# Iterators, and runs of calls

* `Holds.listNext`: the iterator at a node;
* `swept`, `sweep_deletes`: a loop over a list that deletes nodes as it comes to them;
* `Holds.listSearchKey`, `Holds.listIndex`, `Holds.listDup`;
* `Call`, `Does`: the calls, and what they do to the contents of the lists;
* `adlist_refines`: every run of such calls.
-/

set_option autoImplicit false

namespace Rkx.Adlist

open Function Lib.Linked Lib.OptionLoop Lib.Runs Lib.While

variable {β : Type} {s s' : Store β} {c : Lists β} {p : Addr} {x y : Contents β}

/-! ## Iterators -/

/-- The nodes an iterator has left, with those it has passed: in the order of the list. -/
def inOrder (direction : Int) (l : List (Addr × β)) : List (Addr × β) :=
  if direction = AL_START_HEAD then l else l.reverse

/-- The next one of these. -/
def ahead (direction : Int) (l : List (Addr × β)) : Addr :=
  if direction = AL_START_HEAD then first l 0 else last 0 l.reverse

theorem inOrder_middle (direction : Int) (passed left : List (Addr × β)) (a : Addr) (v : β) :
    ∃ xs ys, inOrder direction (passed ++ (a, v) :: left) = xs ++ (a, v) :: ys ∧
      inOrder direction (passed ++ left) = xs ++ ys ∧
      ahead direction left = if direction = AL_START_HEAD then first ys 0 else last 0 xs := by
  unfold inOrder ahead
  by_cases h : direction = AL_START_HEAD
  · simp only [if_pos h]
    exact ⟨passed, left, rfl, rfl, rfl⟩
  · simp only [if_neg h]
    refine ⟨left.reverse, passed.reverse, ?_, List.reverse_append, rfl⟩
    rw [List.reverse_append, List.reverse_cons, List.append_assoc, List.singleton_append]

theorem ahead_nil (direction : Int) : ahead direction ([] : List (Addr × β)) = 0 := by
  unfold ahead
  split <;> rfl

theorem ahead_cons (direction : Int) (a : Addr) (v : β) (l : List (Addr × β)) : ahead direction ((a, v) :: l) = a := by
  unfold ahead
  split
  · rfl
  · rw [List.reverse_cons, last_append]
    rfl

/-- **`listNext`** goes on to the node behind. -/
theorem Holds.listNext (h : Holds s c) (hp : c p = some x) (direction : Int) {passed left : List (Addr × β)} {a : Addr}
    {v : β} (hx : x.nodes = inOrder direction (passed ++ (a, v) :: left)) :
    listNext s ⟨a, direction⟩ = some (a, ⟨ahead direction left, direction⟩) ∧
      ∃ n, s.nodes a = some n ∧ n.value = v := by
  obtain ⟨xs, ys, hxs, -, hahead⟩ := inOrder_middle direction passed left a v
  rw [hxs] at hx
  have hcell : s.nodes a = some ⟨last 0 xs, first ys 0, v⟩ := Seg.at (hx ▸ h.seg p x hp)
  have hnull : a ≠ 0 := (apart_iff.1 (hx ▸ h.nodup p x hp)).null
  refine ⟨?_, _, hcell, rfl⟩
  unfold Adlist.listNext
  rw [if_pos hnull, hcell, Option.map_some, hahead]

theorem listNext_end (s : Store β) (direction : Int) : listNext s ⟨0, direction⟩ = some (0, ⟨0, direction⟩) :=
  if_neg (not_not.2 rfl)

/-- `listRewind` and `listRewindTail`: everything is left. -/
theorem Holds.rewind (h : Holds s c) (hp : c p = some x) :
    listRewind s p = some ⟨ahead AL_START_HEAD x.nodes, AL_START_HEAD⟩ ∧
      listRewindTail s p = some ⟨ahead AL_START_TAIL x.nodes.reverse, AL_START_TAIL⟩ := by
  unfold listRewind listRewindTail
  rw [h.list hp, Option.map_some, Option.map_some]
  refine ⟨rfl, ?_⟩
  unfold ahead
  rw [if_neg (by decide), List.reverse_reverse]
  rfl

/-! ## A loop that deletes -/

variable {γ : Type}

/-- A turn of `while ((node = listNext(&iter)) != NULL)`; `visit` changes `g`, and says whether the node is deleted. -/
def sweepTurn (list : Addr) (visit : γ → β → γ × Bool) (t : Store β × ListIter × γ) :
    Turn (Store β × ListIter × γ) (Option (Store β × γ)) :=
  match listNext t.1 t.2.1 with
  | none => .leave none
  | some (node, iter) =>
    if node = 0 then .leave (some (t.1, t.2.2))
    else
      match t.1.nodes node with
      | none => .leave none
      | some n =>
        let (g, deleted) := visit t.2.2 n.value
        if deleted then
          match listDelNode t.1 list node with
          | none => .leave none
          | some s => .next (s, iter, g)
        else .next (t.1, iter, g)

/-- Every node is visited once, in the order of the iterator. -/
def swept (visit : γ → β → γ × Bool) : γ → List (Addr × β) → γ × List (Addr × β)
  | g, [] => (g, [])
  | g, (a, v) :: l =>
    let (g, deleted) := visit g v
    let (g, kept) := swept visit g l
    (g, if deleted then kept else (a, v) :: kept)

theorem sweep_from (visit : γ → β → γ × Bool) (direction : Int) (passed left : List (Addr × β)) (g : γ)
    (h : Holds s c) (hp : c p = some x) (hx : x.nodes = inOrder direction (passed ++ left)) :
    ∃ s', Ends (sweepTurn p visit) (s, ⟨ahead direction left, direction⟩, g) (some (s', (swept visit g left).1)) ∧
      Holds s' (update c p (some { x with nodes := inOrder direction (passed ++ (swept visit g left).2) })) := by
  induction left generalizing s c x passed g with
  | nil =>
    refine ⟨s, ends_leave ?_, ?_⟩
    · rw [sweepTurn, ahead_nil, listNext_end]
      rfl
    · rwa [swept, ← hx, update_eq_self_iff.2 hp.symm]
  | cons z left ih =>
    obtain ⟨a, v⟩ := z
    obtain ⟨hnext, n, hcell, hvalue⟩ := h.listNext hp direction hx
    obtain ⟨xs, ys, hxs, hxys, -⟩ := inOrder_middle direction passed left a v
    have hnull : a ≠ 0 := (apart_iff.1 (hxs ▸ hx ▸ h.nodup p x hp)).null
    have hturn : sweepTurn p visit (s, ⟨ahead direction ((a, v) :: left), direction⟩, g) =
        if (visit g v).2 then
          match listDelNode s p a with
          | none => .leave none
          | some s => .next (s, ⟨ahead direction left, direction⟩, (visit g v).1)
        else .next (s, ⟨ahead direction left, direction⟩, (visit g v).1) := by
      rw [sweepTurn, ahead_cons, hnext]
      simp only [if_neg hnull, hcell, hvalue]
    by_cases hdeleted : (visit g v).2 = true
    · -- the node behind is known by now
      obtain ⟨s₁, hdel, h₁, -⟩ := h.listDelNode hp (hx.trans hxs)
      obtain ⟨s', hends, h'⟩ := ih passed (visit g v).1 h₁ (update_self _ _ _) hxys.symm
      rw [hdel, if_pos hdeleted] at hturn
      refine ⟨s', ends_next hturn ?_, ?_⟩
      · exact hends
      · rw [update_idem] at h'
        simp only [swept, hdeleted, if_true]
        exact h'
    · obtain ⟨s', hends, h'⟩ := ih (passed ++ [(a, v)]) (visit g v).1 h hp (by
        rw [hx, List.append_assoc, List.singleton_append])
      rw [if_neg hdeleted] at hturn
      refine ⟨s', ends_next hturn ?_, ?_⟩
      · exact hends
      · rw [List.append_assoc, List.singleton_append] at h'
        simp only [swept, Bool.eq_false_iff.2 hdeleted, Bool.false_eq_true, if_false]
        exact h'

/-- **A loop over a list** may delete the nodes it comes to: it comes to every node once, from the head or from the
    tail, and the others stay. -/
theorem sweep_deletes (h : Holds s c) (hp : c p = some x) (visit : γ → β → γ × Bool) (g : γ) :
    (∃ iter s', listRewind s p = some iter ∧
      Ends (sweepTurn p visit) (s, iter, g) (some (s', (swept visit g x.nodes).1)) ∧
      Holds s' (update c p (some { x with nodes := (swept visit g x.nodes).2 }))) ∧
    ∃ iter s', listRewindTail s p = some iter ∧
      Ends (sweepTurn p visit) (s, iter, g) (some (s', (swept visit g x.nodes.reverse).1)) ∧
      Holds s' (update c p (some { x with nodes := (swept visit g x.nodes.reverse).2.reverse })) := by
  obtain ⟨hhead, htail⟩ := h.rewind hp
  constructor
  · obtain ⟨s', hends, h'⟩ := sweep_from visit AL_START_HEAD [] x.nodes g h hp rfl
    exact ⟨_, s', hhead, hends, h'⟩
  · obtain ⟨s', hends, h'⟩ := sweep_from visit AL_START_TAIL [] x.nodes.reverse g h hp
      (List.reverse_reverse _).symm
    exact ⟨_, s', htail, hends, h'⟩

/-! ## Searches -/

/-- The address that is found, or NULL. -/
def found (z : Option (Addr × β)) : Addr := (z.map Prod.fst).getD 0

theorem search_from [DecidableEq β] (h : Holds s c) (hp : c p = some x) (key : β) (passed : List (Addr × β))
    {left : List (Addr × β)} (hx : x.nodes = passed ++ left) :
    Ends (searchTurn s p key) ⟨first left 0, AL_START_HEAD⟩
      (some (found (left.find? fun z => x.methods.isMatch z.2 key))) := by
  induction left generalizing passed with
  | nil =>
    apply ends_leave
    rw [searchTurn, first_nil, listNext_end]
    rfl
  | cons z left ih =>
    obtain ⟨a, v⟩ := z
    obtain ⟨hnext, n, hcell, hvalue⟩ := h.listNext hp AL_START_HEAD hx
    have hnull : a ≠ 0 := (apart_iff.1 (hx ▸ h.nodup p x hp)).null
    have hturn : searchTurn s p key ⟨a, AL_START_HEAD⟩ =
        if x.methods.isMatch v key then .leave (some a) else .next ⟨first left 0, AL_START_HEAD⟩ := by
      rw [searchTurn, hnext]
      simp only [if_neg hnull, hcell, h.list hp, hvalue]
      rfl
    rw [first_cons, List.find?_cons]
    by_cases hmatch : x.methods.isMatch v key = true
    · rw [if_pos hmatch] at hturn
      simp only [hmatch]
      exact ends_leave hturn
    · rw [if_neg hmatch] at hturn
      simp only [Bool.eq_false_iff.2 hmatch]
      exact ends_next hturn (ih (passed ++ [(a, v)]) (by rw [hx, List.append_assoc, List.singleton_append]))

/-- **`listSearchKey`** finds the first value that matches. -/
theorem Holds.listSearchKey [DecidableEq β] (h : Holds s c) (hp : c p = some x) (key : β) :
    ∃ turns, listSearchKey s p key turns = some (found (x.nodes.find? fun z => x.methods.isMatch z.2 key)) := by
  obtain ⟨turns, hrun⟩ := search_from h hp key [] rfl
  refine ⟨turns, ?_⟩
  unfold Adlist.listSearchKey
  rw [(h.rewind hp).1]
  simp only [Option.bind_eq_bind, Option.bind_some]
  exact congrArg Option.join hrun

theorem indexTurns_next {n : Addr} {l : List (Addr × β)} (hseg : Seg s.nodes n l 0) (hnull : 0 ∉ addrs l) (k : Nat) :
    indexTurns s Cell.next k (first l 0) = some (found l[k]?) := by
  induction k generalizing n l with
  | zero => cases l <;> rfl
  | succ k ih =>
    cases l with
    | nil => rfl
    | cons z l =>
      obtain ⟨a, v⟩ := z
      obtain ⟨hcell, hrest⟩ := hseg
      rw [addrs_cons, List.mem_cons, not_or] at hnull
      rw [first_cons, indexTurns, if_pos (Ne.symm hnull.1), hcell, Option.bind_some]
      exact ih hrest hnull.2

theorem indexTurns_prev {n : Addr} {l : List (Addr × β)} (hseg : Seg s.nodes 0 l n) (hnull : 0 ∉ addrs l) (k : Nat) :
    indexTurns s Cell.prev k (last 0 l) = some (found l.reverse[k]?) := by
  induction k generalizing n l with
  | zero =>
    obtain rfl | ⟨l, ⟨a, v⟩, rfl⟩ := l.eq_nil_or_concat'
    · rfl
    · rw [last_append, List.reverse_append]
      rfl
  | succ k ih =>
    obtain rfl | ⟨l, ⟨a, v⟩, rfl⟩ := l.eq_nil_or_concat'
    · rfl
    · have hcell : s.nodes a = some ⟨last 0 l, n, v⟩ := hseg.at
      rw [addrs_append, List.mem_append, not_or] at hnull
      have ha : a ≠ 0 := fun ha => hnull.2 (ha ▸ List.mem_cons_self)
      rw [last_append, last_cons, last_nil, indexTurns, if_pos ha, hcell, Option.bind_some, List.reverse_append]
      exact ih (seg_append.1 hseg).1 hnull.1

/-- The node at an index, from the tail if it is negative. -/
def nodeAt (l : List (Addr × β)) (index : Int) : Option (Addr × β) :=
  if index < 0 then l.reverse[(-index - 1).toNat]? else l[index.toNat]?

/-- **`listIndex`** counts from either end. -/
theorem Holds.listIndex (h : Holds s c) (hp : c p = some x) {i : Int} (hi : i ≠ LONG_MIN) :
    listIndex s p i = some (found (nodeAt x.nodes i)) := by
  have hnull := (List.nodup_cons.1 (h.nodup p x hp)).1
  have hseg := h.seg p x hp
  unfold Adlist.listIndex nodeAt
  simp only [h.list hp, Option.bind_eq_bind, Option.bind_some, if_neg hi]
  split
  · exact indexTurns_prev hseg hnull _
  · exact indexTurns_next hseg hnull _

/-! ## The copy -/

/-- An address that `zmalloc` may return. -/
structure Fresh (c : Lists β) (a : Addr) : Prop where
  null : a ≠ 0
  list : c a = none
  node : ∀ p x, c p = some x → a ∉ addrs x.nodes

theorem Holds.none_of_fresh (h : Holds s c) {a : Addr} (ha : Fresh c a) : s.nodes a = none := by
  by_contra hne
  obtain ⟨p, x, hp, hmem⟩ := h.owned a hne
  exact ha.node p x hp hmem

/-- The nodes of a copy, as far as there are values and memory, and whether it is complete. -/
def copied (methods : Methods β) : List (Addr × β) → List (Option Addr) → List (Addr × β) × Bool
  | [], _ => ([], true)
  | (_, v) :: l, mems =>
    match methods.dupValue v, mems.headD none with
    | some w, some a => ((a, w) :: (copied methods l mems.tail).1, (copied methods l mems.tail).2)
    | _, _ => ([], false)

theorem fresh_init {a : Addr} (ha : a ≠ 0) : Fresh (fun _ => none : Lists β) a := ⟨ha, rfl, fun _ _ h => nomatch h⟩

theorem Fresh.update {a : Addr} (h : Fresh c a) (hp : a ≠ p) (hx : a ∉ addrs x.nodes) :
    Fresh (Function.update c p (some x)) a := by
  refine ⟨h.null, by rw [Function.update_of_ne hp, h.list], ?_⟩
  intro q y hq
  obtain rfl | hne := eq_or_ne q p
  · rw [Function.update_self] at hq
    cases hq
    exact hx
  · rw [Function.update_of_ne hne] at hq
    exact h.node q y hq

/-- What `zmalloc` will return: addresses that are not used, none of them twice. -/
structure Memory (c : Lists β) (mems : List (Option Addr)) : Prop where
  fresh : ∀ a, some a ∈ mems → Fresh c a
  nodup : (mems.filterMap id).Nodup

theorem Memory.append {q : Addr} {mems : List (Option Addr)} {a : Addr} (hm : Memory c (some a :: mems))
    (hq : c q = some y) (v : β) : Memory (update c q (some { y with nodes := y.nodes ++ [(a, v)] })) mems := by
  obtain ⟨ha, hnodup⟩ := List.nodup_cons.1 hm.nodup
  refine ⟨?_, hnodup⟩
  intro b hb
  have hfresh := hm.fresh b (List.mem_cons_of_mem _ hb)
  have hbq : b ≠ q := by
    rintro rfl
    rw [hfresh.list] at hq
    cases hq
  refine ⟨hfresh.null, by rw [update_of_ne hbq, hfresh.list], ?_⟩
  intro r z hr
  obtain rfl | hne := eq_or_ne r q
  · rw [update_self] at hr
    cases hr
    rw [addrs_append, List.mem_append, not_or]
    refine ⟨hfresh.node r y hq, ?_⟩
    intro hmem
    obtain rfl := List.mem_singleton.1 hmem
    exact ha (List.mem_filterMap.2 ⟨_, hb, rfl⟩)
  · rw [update_of_ne hne] at hr
    exact hfresh.node r z hr

/-- How `listDup` ends behind the nodes `nodes`, with the copy at `q`. -/
def Copies (s s' : Store β) (c : Lists β) (q : Addr) (y : Contents β) (r : List (Addr × β) × Bool) (ret : Addr) : Prop :=
  if r.2 then
    ret = q ∧ Holds s' (update c q (some { y with nodes := y.nodes ++ r.1 })) ∧ s'.freed = s.freed
  else
    ret = 0 ∧ Holds s' (update c q none) ∧ s'.freed = s.freed ++ y.released ((y.nodes ++ r.1).map Prod.snd)

theorem dup_from {q : Addr} (hne : p ≠ q) (passed : List (Addr × β)) {left : List (Addr × β)} {mems : List (Option Addr)}
    (h : Holds s c) (hp : c p = some x) (hq : c q = some y) (hmethods : y.methods = x.methods)
    (hx : x.nodes = passed ++ left) (hm : Memory c mems) :
    ∃ s' ret, Ends (dupTurn q) ⟨s, ⟨first left 0, AL_START_HEAD⟩, mems⟩ (some (s', ret)) ∧
      Copies s s' c q y (copied x.methods left mems) ret := by
  induction left generalizing s c passed mems y with
  | nil =>
    refine ⟨s, q, ends_leave ?_, rfl, ?_, rfl⟩
    · rw [dupTurn, first_nil, listNext_end]
      rfl
    · rwa [copied, List.append_nil, update_eq_self_iff.2 hq.symm]
  | cons z left ih =>
    obtain ⟨a, v⟩ := z
    obtain ⟨hnext, n, hcell, hvalue⟩ := h.listNext hp AL_START_HEAD hx
    have hnull : a ≠ 0 := (apart_iff.1 (hx ▸ h.nodup p x hp)).null
    have hlist : s.lists q = some y.header := h.list hq
    have hm' : y.header.methods = x.methods := hmethods
    -- a copy that goes no further
    have hrelease : ∃ s', Adlist.listRelease s q = some s' ∧ Copies s s' c q y ([], false) 0 := by
      obtain ⟨s', hrelease, h', hfreed⟩ := h.listRelease hq
      exact ⟨s', hrelease, rfl, h', by rwa [List.append_nil]⟩
    cases hdup : x.methods.dupValue v with
    | none =>
      obtain ⟨s', hrelease, hcopies⟩ := hrelease
      refine ⟨s', 0, ends_leave ?_, ?_⟩
      · rw [dupTurn, first_cons, hnext]
        simp only [if_neg hnull, hcell, hlist, hvalue, hm', hdup, hrelease, Option.map_some]
      · rw [copied, hdup]
        exact hcopies
    | some w =>
      cases hmem : mems.headD none with
      | none =>
        obtain ⟨s', hrelease, hcopies⟩ := hrelease
        refine ⟨s', 0, ends_leave ?_, ?_⟩
        · rw [dupTurn, first_cons, hnext]
          simp only [if_neg hnull, hcell, hlist, hvalue, hm', hdup, hmem, Adlist.listAddNodeTail, if_true, hrelease,
            Option.map_some]
        · rw [copied, hdup, hmem]
          exact hcopies
      | some b =>
        obtain ⟨mems, rfl⟩ : ∃ rest, mems = some b :: rest := by
          cases mems with
          | nil => cases hmem
          | cons m mems => exact ⟨mems, congrArg (· :: mems) hmem⟩
        have hfresh := hm.fresh b List.mem_cons_self
        obtain ⟨s₁, hadd, h₁, hfreed₁⟩ := h.listAddNodeTail hq hfresh.null (h.none_of_fresh hfresh) w
        obtain ⟨s', ret, hends, hcopies⟩ := ih (passed ++ [(a, v)]) h₁
          ((update_of_ne hne _ _).trans hp) (update_self _ _ _) hmethods
          (by rw [hx, List.append_assoc, List.singleton_append]) (hm.append hq w)
        refine ⟨s', ret, ends_next ?_ hends, ?_⟩
        · rw [dupTurn, first_cons, hnext]
          simp only [if_neg hnull, hcell, hlist, hvalue, hm', hdup, List.headD_cons, hadd, if_neg (h.ne_null hq),
            List.tail_cons]
          rfl
        · unfold Copies at hcopies
          rw [update_idem, update_idem, List.append_assoc, List.singleton_append, hfreed₁] at hcopies
          rw [copied, hdup]
          exact hcopies

/-- **`listDup`** copies the values in order, or leaves nothing behind. -/
theorem Holds.listDup (h : Holds s c) (hp : c p = some x) {q : Addr} {mems : List (Option Addr)}
    (hm : Memory c (some q :: mems)) :
    ∃ turns s' ret, listDup s p (some q :: mems) turns = some (s', ret) ∧
      Copies s s' c q ⟨x.methods, []⟩ (copied x.methods x.nodes mems) ret := by
  have hfresh := hm.fresh q List.mem_cons_self
  have hne : p ≠ q := by
    rintro rfl
    rw [hfresh.list] at hp
    cases hp
  obtain ⟨s₁, hcreate, h₁, hfreed₁⟩ := h.listCreate hfresh.null hfresh.list
  obtain ⟨s₂, hset, h₂, hfreed₂⟩ := h₁.listSetMethods (update_self _ _ _) x.methods
  rw [update_idem] at h₂
  have hp₂ : update c q (some ⟨x.methods, []⟩) p = some x := (update_of_ne hne _ _).trans hp
  have hm₂ : Memory (update c q (some ⟨x.methods, []⟩)) mems := by
    obtain ⟨hq, hnodup⟩ := List.nodup_cons.1 hm.nodup
    refine ⟨?_, hnodup⟩
    intro a ha
    have hfresh := hm.fresh a (List.mem_cons_of_mem _ ha)
    have haq : a ≠ q := by
      rintro rfl
      exact hq (List.mem_filterMap.2 ⟨_, ha, rfl⟩)
    refine ⟨hfresh.null, by rw [update_of_ne haq, hfresh.list], ?_⟩
    intro r z hr
    obtain rfl | hrq := eq_or_ne r q
    · rw [update_self] at hr
      cases hr
      exact List.not_mem_nil
    · rw [update_of_ne hrq] at hr
      exact hfresh.node r z hr
  obtain ⟨s', ret, ⟨turns, hrun⟩, hcopies⟩ := dup_from hne [] h₂ hp₂ (update_self _ _ _) rfl rfl hm₂
  refine ⟨turns, s', ret, ?_, ?_⟩
  · have hp₁ := h₁.list ((update_of_ne hne _ _).trans hp)
    unfold Adlist.listDup
    simp only [List.headD_cons, List.tail_cons, hcreate, hp₁, Option.bind_eq_bind, Option.bind_some]
    rw [show x.header.methods = x.methods from rfl, hset, Option.bind_some, (h₂.rewind hp₂).1, Option.bind_some]
    exact congrArg Option.join hrun
  · unfold Copies at hcopies ⊢
    rwa [update_idem, update_idem, hfreed₂, hfreed₁] at hcopies

/-! ## Runs -/

/-- No list yet. -/
def Store.init : Store β := ⟨fun _ => none, fun _ => none, []⟩

theorem holds_init : Holds (Store.init : Store β) fun _ => none where
  null := rfl
  lists _ := rfl
  seg _ _ h := nomatch h
  nodup _ _ h := nomatch h
  disjoint _ _ _ _ h := nomatch h
  owned _ h := absurd rfl h

/-- A call, with what `zmalloc` returns in it. -/
inductive Call (β : Type) where
  | create (mem : Option Addr)
  | setMethods (list : Addr) (methods : Methods β)
  | empty (list : Addr)
  | release (list : Addr)
  | addHead (list : Addr) (value : β) (mem : Option Addr)
  | addTail (list : Addr) (value : β) (mem : Option Addr)
  | insert (list oldNode : Addr) (value : β) (after : Bool) (mem : Option Addr)
  | del (list node : Addr)
  | rotate (list : Addr)
  | join (l o : Addr)
  | dup (orig : Addr) (mems : List (Option Addr))
  | search (list : Addr) (key : β)
  | index (list : Addr) (i : Int)

/-- The call, with so many turns of a loop at most; `0` where nothing is returned. -/
def Call.exec [DecidableEq β] (turns : Nat) (s : Store β) : Call β → Option (Store β × Addr)
  | .create mem => some (listCreate s mem)
  | .setMethods list methods => (listSetMethods s list methods).map (·, 0)
  | .empty list => (listEmpty s list).map (·, 0)
  | .release list => (listRelease s list).map (·, 0)
  | .addHead list value mem => listAddNodeHead s list value mem
  | .addTail list value mem => listAddNodeTail s list value mem
  | .insert list oldNode value after mem => listInsertNode s list oldNode value after mem
  | .del list node => (listDelNode s list node).map (·, 0)
  | .rotate list => (listRotate s list).map (·, 0)
  | .join l o => (listJoin s l o).map (·, 0)
  | .dup orig mems => listDup s orig mems turns
  | .search list key => (listSearchKey s list key turns).map (s, ·)
  | .index list i => (listIndex s list i).map (s, ·)

/-- **What a call does** to the contents of the lists, what it gives to `free` methods, and what it returns. -/
inductive Does [DecidableEq β] : Call β → Lists β → Lists β → List β → Addr → Prop
  | createNull {c : Lists β} : Does (.create none) c c [] 0
  | create {c : Lists β} {p : Addr} (hp : Fresh c p) :
    Does (.create (some p)) c (update c p (some ⟨⟨none, false, none⟩, []⟩)) [] p
  | setMethods {c : Lists β} {p : Addr} {x : Contents β} (hp : c p = some x) (methods : Methods β) :
    Does (.setMethods p methods) c (update c p (some { x with methods })) [] 0
  | empty {c : Lists β} {p : Addr} {x : Contents β} (hp : c p = some x) :
    Does (.empty p) c (update c p (some { x with nodes := [] })) (x.released (x.nodes.map Prod.snd)) 0
  | release {c : Lists β} {p : Addr} {x : Contents β} (hp : c p = some x) :
    Does (.release p) c (update c p none) (x.released (x.nodes.map Prod.snd)) 0
  | addHeadNull {c : Lists β} (p : Addr) (v : β) : Does (.addHead p v none) c c [] 0
  | addHead {c : Lists β} {p a : Addr} {x : Contents β} (hp : c p = some x) (v : β) (ha : Fresh c a) :
    Does (.addHead p v (some a)) c (update c p (some { x with nodes := (a, v) :: x.nodes })) [] p
  | addTailNull {c : Lists β} (p : Addr) (v : β) : Does (.addTail p v none) c c [] 0
  | addTail {c : Lists β} {p a : Addr} {x : Contents β} (hp : c p = some x) (v : β) (ha : Fresh c a) :
    Does (.addTail p v (some a)) c (update c p (some { x with nodes := x.nodes ++ [(a, v)] })) [] p
  | insertNull {c : Lists β} (p b : Addr) (v : β) (after : Bool) : Does (.insert p b v after none) c c [] 0
  | insertAfter {c : Lists β} {p a b : Addr} {w : β} {x : Contents β} {xs ys : List (Addr × β)} (hp : c p = some x)
    (hx : x.nodes = xs ++ (b, w) :: ys) (v : β) (ha : Fresh c a) :
    Does (.insert p b v true (some a)) c (update c p (some { x with nodes := xs ++ (b, w) :: (a, v) :: ys })) [] p
  | insertBefore {c : Lists β} {p a b : Addr} {w : β} {x : Contents β} {xs ys : List (Addr × β)} (hp : c p = some x)
    (hx : x.nodes = xs ++ (b, w) :: ys) (v : β) (ha : Fresh c a) :
    Does (.insert p b v false (some a)) c (update c p (some { x with nodes := xs ++ (a, v) :: (b, w) :: ys })) [] p
  | del {c : Lists β} {p a : Addr} {v : β} {x : Contents β} {xs ys : List (Addr × β)} (hp : c p = some x)
    (hx : x.nodes = xs ++ (a, v) :: ys) :
    Does (.del p a) c (update c p (some { x with nodes := xs ++ ys })) (x.released [v]) 0
  | rotate {c : Lists β} {p : Addr} {x : Contents β} (hp : c p = some x) :
    Does (.rotate p) c (update c p (some { x with nodes := rotated x.nodes })) [] 0
  | join {c : Lists β} {p q : Addr} {x y : Contents β} (hp : c p = some x) (hq : c q = some y) (hne : p ≠ q) :
    Does (.join p q) c (update (update c q (some { y with nodes := [] })) p
      (some { x with nodes := x.nodes ++ y.nodes })) [] 0
  | dupNull {c : Lists β} (p : Addr) {mems : List (Option Addr)} (hm : mems.headD none = none) :
    Does (.dup p mems) c c [] 0
  | dup {c : Lists β} {p q : Addr} {x : Contents β} {mems : List (Option Addr)} {l : List (Addr × β)}
    (hp : c p = some x) (hm : Memory c (some q :: mems)) (hl : copied x.methods x.nodes mems = (l, true)) :
    Does (.dup p (some q :: mems)) c (update c q (some ⟨x.methods, l⟩)) [] q
  | dupFails {c : Lists β} {p q : Addr} {x : Contents β} {mems : List (Option Addr)} {l : List (Addr × β)}
    (hp : c p = some x) (hm : Memory c (some q :: mems)) (hl : copied x.methods x.nodes mems = (l, false)) :
    Does (.dup p (some q :: mems)) c c (x.released (l.map Prod.snd)) 0
  | search {c : Lists β} {p : Addr} {x : Contents β} (hp : c p = some x) (key : β) :
    Does (.search p key) c c [] (found (x.nodes.find? fun z => x.methods.isMatch z.2 key))
  | index {c : Lists β} {p : Addr} {x : Contents β} (hp : c p = some x) {i : Int} (hi : i ≠ LONG_MIN) :
    Does (.index p i) c c [] (found (nodeAt x.nodes i))

variable [DecidableEq β]

/-- **Every call** ends, touches only objects that are there, and does what its caller sees. -/
theorem Does.exec {call : Call β} {c' : Lists β} {freed : List β} {ret : Addr} (hd : Does call c c' freed ret)
    (h : Holds s c) :
    ∃ turns s', call.exec turns s = some (s', ret) ∧ Holds s' c' ∧ s'.freed = s.freed ++ freed := by
  have hsame : s.freed = s.freed ++ [] := (List.append_nil _).symm
  cases hd with
  | createNull => exact ⟨0, s, rfl, h, hsame⟩
  | create hp =>
    obtain ⟨s', hret, h', hfreed⟩ := h.listCreate hp.null hp.list
    exact ⟨0, s', congrArg some hret, h', by rw [hfreed, ← hsame]⟩
  | setMethods hp methods =>
    obtain ⟨s', hret, h', hfreed⟩ := h.listSetMethods hp methods
    exact ⟨0, s', by rw [Call.exec, hret, Option.map_some], h', by rw [hfreed, ← hsame]⟩
  | empty hp =>
    obtain ⟨s', hret, h', hfreed⟩ := h.listEmpty hp
    exact ⟨0, s', by rw [Call.exec, hret, Option.map_some], h', hfreed⟩
  | release hp =>
    obtain ⟨s', hret, h', hfreed⟩ := h.listRelease hp
    exact ⟨0, s', by rw [Call.exec, hret, Option.map_some], h', hfreed⟩
  | addHeadNull => exact ⟨0, s, rfl, h, hsame⟩
  | addHead hp v ha =>
    obtain ⟨s', hret, h', hfreed⟩ := h.listAddNodeHead hp ha.null (h.none_of_fresh ha) v
    exact ⟨0, s', hret, h', by rw [hfreed, ← hsame]⟩
  | addTailNull => exact ⟨0, s, rfl, h, hsame⟩
  | addTail hp v ha =>
    obtain ⟨s', hret, h', hfreed⟩ := h.listAddNodeTail hp ha.null (h.none_of_fresh ha) v
    exact ⟨0, s', hret, h', by rw [hfreed, ← hsame]⟩
  | insertNull => exact ⟨0, s, rfl, h, hsame⟩
  | insertAfter hp hx v ha =>
    obtain ⟨s', hret, h', hfreed⟩ := h.listInsertNode_after hp hx ha.null (h.none_of_fresh ha) v
    exact ⟨0, s', hret, h', by rw [hfreed, ← hsame]⟩
  | insertBefore hp hx v ha =>
    obtain ⟨s', hret, h', hfreed⟩ := h.listInsertNode_before hp hx ha.null (h.none_of_fresh ha) v
    exact ⟨0, s', hret, h', by rw [hfreed, ← hsame]⟩
  | del hp hx =>
    obtain ⟨s', hret, h', hfreed⟩ := h.listDelNode hp hx
    exact ⟨0, s', by rw [Call.exec, hret, Option.map_some], h', hfreed⟩
  | rotate hp =>
    obtain ⟨s', hret, h', hfreed⟩ := h.listRotate hp
    exact ⟨0, s', by rw [Call.exec, hret, Option.map_some], h', by rw [hfreed, ← hsame]⟩
  | join hp hq hne =>
    obtain ⟨s', hret, h', hfreed⟩ := h.listJoin hp hq hne
    exact ⟨0, s', by rw [Call.exec, hret, Option.map_some], h', by rw [hfreed, ← hsame]⟩
  | dupNull p hm => exact ⟨0, s, by rw [Call.exec, listDup, hm], h, hsame⟩
  | dup hp hm hl =>
    obtain ⟨turns, s', ret, hret, hcopies⟩ := h.listDup hp hm
    rw [hl] at hcopies
    obtain ⟨rfl, h', hfreed⟩ := hcopies
    exact ⟨turns, s', hret, h', by rw [hfreed, ← hsame]⟩
  | @dupFails _ p q x mems l hp hm hl =>
    obtain ⟨turns, s', ret, hret, hcopies⟩ := h.listDup hp hm
    rw [hl] at hcopies
    obtain ⟨rfl, h', hfreed⟩ := hcopies
    have hq : c q = none := (hm.fresh q List.mem_cons_self).list
    rw [update_eq_self_iff.2 hq.symm] at h'
    exact ⟨turns, s', hret, h', hfreed⟩
  | search hp key =>
    obtain ⟨turns, hret⟩ := h.listSearchKey hp key
    exact ⟨turns, s, by rw [Call.exec, hret, Option.map_some], h, hsame⟩
  | index hp hi => exact ⟨0, s, by rw [Call.exec, h.listIndex hp hi, Option.map_some], h, hsame⟩

/-- A call, and what it returns, in memory. -/
def Returns (a : Call β × Addr) (s s' : Store β) : Prop := ∃ turns, a.1.exec turns s = some (s', a.2)

/-- A list of two nodes. -/
theorem exists_pair :
    ∃ s : Store Nat, Holds s (update (fun _ => none) 64 (some ⟨⟨none, false, none⟩, [(96, 7), (128, 8)]⟩)) := by
  obtain ⟨s₁, -, h₁, -⟩ := (holds_init (β := Nat)).listCreate (p := 64) (by decide) rfl
  obtain ⟨s₂, -, h₂, -⟩ := h₁.listAddNodeTail (update_self _ _ _) (a := 96) (by decide)
    (h₁.none_of_fresh ((fresh_init (by decide)).update (by decide) (by decide))) 7
  rw [update_idem] at h₂
  obtain ⟨s₃, -, h₃, -⟩ := h₂.listAddNodeTail (update_self _ _ _) (a := 128) (by decide)
    (h₂.none_of_fresh ((fresh_init (by decide)).update (by decide) (by decide))) 8
  rw [update_idem] at h₃
  exact ⟨s₃, h₃⟩

/-- The even values are deleted, and the values are counted. -/
theorem sweep_deletes_even :
    ∃ (s s' : Store Nat) (iter : ListIter), listRewind s 64 = some iter ∧
      Ends (sweepTurn 64 fun n v => (n + 1, v % 2 == 0)) (s, iter, 0) (some (s', 2)) ∧
      Holds s' (update (fun _ => none) 64 (some ⟨⟨none, false, none⟩, [(96, 7)]⟩)) := by
  obtain ⟨s, h⟩ := exists_pair
  obtain ⟨⟨iter, s', hrewind, hends, h'⟩, -⟩ :=
    sweep_deletes h (update_self _ _ _) (fun n v => (n + 1, v % 2 == 0)) 0
  rw [update_idem] at h'
  exact ⟨s, s', iter, hrewind, hends, h'⟩

end Rkx.Adlist
