import Lidas.Lib.Runs
import Lidas.Proxy.Balance

/-!
# One request for each group

What `load_balance` puts into the heap is the slot that it was given, and it goes to the end of the
array: its key is that of the last entry. The next call moves the last entry to the root, where the
slot is taken for a `proxy_node`. So of all the calls of `load_balance` in a run only one returns,
however many nodes the group has and whatever descriptors are given back in between
(`ProxyGroup.atMostOne_loadBalance`).
-/

namespace Lidas

namespace HeapH

variable {D : Type} {p : ℕ → HeapT D} {last : HeapT D} {cnt fuel : ℕ}

/-- The loop of `heap_max_delete` ends in its first round, if the last entry is not above the
child of the root that is looked at. -/
theorem deleteLoop_stops (h : 2 ≤ cnt → last.key ≤ (p (child cnt p 1).1).key) (fuel : ℕ)
    (used : List ℕ) : ∃ used',
      deleteLoop last cnt (fuel + 1) p 1 used = .ok { p := p, i := 1, used := used' } := by
  rw [deleteLoop]
  split_ifs with hchild
  · dsimp only
    rw [if_neg (UInt32.not_lt.mpr (h hchild))]
    exact ⟨_, rfl⟩
  · exact ⟨_, rfl⟩

/-- In a heap in order the last entry is not above that child, but for the exception of
`deleteLoop_stays`. -/
theorem last_le_child {h : HeapH D} (hord : h.MaxOrder) (hcnt : 1 ≤ h.cnt)
    (hthree : h.cnt = 3 → keys h.p 3 ≤ keys h.p 2) (hchild : 2 ≤ h.cnt - 1) :
    (h.p h.cnt).key ≤ (h.p (child (h.cnt - 1) h.p 1).1).key := by
  obtain ⟨used, hstays⟩ := deleteLoop_stays hord hcnt hthree 0
  rw [deleteLoop, if_pos hchild] at hstays
  dsimp only at hstays
  by_contra hlt
  rw [if_pos (UInt32.not_le.mp hlt)] at hstays
  cases hstays

/-- The entries of a heap are in the slots from 1 to its count. -/
theorem mem_entries_iff {h : HeapH D} {e : HeapT D} :
    e ∈ h.entries ↔ ∃ j, (1 ≤ j ∧ j ≤ h.cnt) ∧ h.p j = e := by
  rw [entries, MaxHeap.entries, Multiset.mem_map]
  simp only [Finset.mem_val, Finset.mem_Icc]

/-- What stands at the root after a deletion was an entry of the heap. It is not above the child
that is looked at next, nor above the parent of the slot behind the last entry. -/
theorem root_after_delete {h : HeapH D} (hord : h.MaxOrder) (hcnt : 1 ≤ h.cnt) {s : Hole D}
    (hs : deleteLoop (h.p h.cnt) (h.cnt - 1) fuel h.p 1 [h.cnt] = .ok s) {q : ℕ → HeapT D}
    (hq : q = Function.update s.p s.i (h.p h.cnt)) : q 1 ∈ h.entries ∧
      (2 ≤ h.cnt → (q 1).key ≤ (q (h.cnt / 2)).key) ∧
      (2 ≤ h.cnt - 1 → (q 1).key ≤ (q (child (h.cnt - 1) q 1).1).key) := by
  by_cases hthree : h.cnt = 3 → keys h.p 3 ≤ keys h.p 2
  · -- the last entry goes to the root
    cases fuel with
    | zero => cases hs
    | succ fuel =>
      obtain ⟨used, hstays⟩ := deleteLoop_stays hord hcnt hthree fuel
      rw [hstays] at hs
      obtain rfl := Except.ok.inj hs
      dsimp only at hq
      have hroot : q 1 = h.p h.cnt := by rw [hq, Function.update_self]
      -- the slots below the root are as before
      have hne (i : ℕ) (hi : 2 ≤ i) : q i = h.p i := by rw [hq, Function.update_of_ne (by omega)]
      refine ⟨?_, fun htwo => ?_, fun hchild => ?_⟩
      · rw [hroot]
        exact MaxHeap.mem_entries h.p hcnt (Nat.le_refl _)
      · rcases Nat.eq_or_lt_of_le (show 1 ≤ h.cnt / 2 by omega) with hone | hmore
        · rw [← hone]
          exact UInt32.le_refl _
        · rw [hroot, hne _ hmore, UInt32.le_iff_toNat_le]
          exact hord h.cnt htwo (Nat.le_refl _)
      · obtain ⟨hle, -, -⟩ := child_spec h.p (i := 1) hchild
        rw [child_congr (fun i hi _ => hne i hi) hchild, hroot, hne _ hle]
        exact last_le_child hord hcnt hthree hchild
  · -- slot 2 goes to the root, and slot 3 with the larger key to slot 2
    obtain ⟨hcnt3, hle⟩ := Classical.not_imp.mp hthree
    have hlt : (h.p 2).key < (h.p 3).key := keys_lt_iff.mpr (Nat.not_le.mp hle)
    rw [hcnt3] at hs hq ⊢
    obtain ⟨hp, hi⟩ := deleteLoop_three hlt hs
    have hroot : q 1 = h.p 2 := by
      rw [hq, hp, hi, Function.update_of_ne (by decide), Function.update_self]
    have htwo : q 2 = h.p 3 := by rw [hq, hi, Function.update_self]
    refine ⟨?_, fun _ => UInt32.le_refl _, fun _ => ?_⟩
    · rw [hroot]
      exact MaxHeap.mem_entries h.p (by decide) (by omega)
    · have hchild : child (3 - 1) q 1 = (2, []) := rfl
      rw [hchild, hroot, htwo]
      exact UInt32.le_of_lt hlt

/-- A new entry whose key is not above that of its parent stays at the end of the array. -/
theorem heapInsert_succ {h : HeapH D} {key : UInt32} (hroom : h.cnt < h.size)
    (hparent : ¬(h.p ((h.cnt + 1) / 2)).key < key) (fuel : ℕ) (data : D) :
    ∃ r, h.heapInsert (fuel + 1) data key = .ok r ∧ r.ret = 0 ∧ r.heap.size = h.size ∧
      r.heap.p = Function.update h.p (h.cnt + 1) { key := key, data := data } ∧
      r.heap.cnt = h.cnt + 1 := by
  rw [heapInsert, dif_neg (Nat.not_le_of_lt hroom), insertLoop, if_neg hparent]
  exact ⟨_, rfl, rfl, rfl, rfl, rfl⟩

/-- A key that is not above its parent's stays in the last slot. -/
theorem heapInsert_last {h : HeapH D} {data : D} {key : UInt32} {r : Inserted D}
    (hroom : h.cnt < h.size) (hparent : ¬(h.p ((h.cnt + 1) / 2)).key < key)
    (hr : h.heapInsert fuel data key = .ok r) :
    r.heap.p = Function.update h.p (h.cnt + 1) { key := key, data := data } ∧
      r.heap.cnt = h.cnt + 1 := by
  cases fuel with
  | zero =>
    rw [heapInsert, dif_neg (Nat.not_le_of_lt hroom)] at hr
    cases hr
  | succ fuel =>
    obtain ⟨r', hr', -, -, hp, hcnt⟩ := heapInsert_succ hroom hparent fuel data
    rw [hr'] at hr
    obtain rfl := Except.ok.inj hr
    exact ⟨hp, hcnt⟩

/-- After a deletion there is room for an insertion. -/
theorem refill_room {h : HeapH D} (hcnt : 1 ≤ h.cnt) (s : Hole D) :
    (h.refill s).heap.cnt + 1 = h.cnt ∧ (h.refill s).heap.cnt < (h.refill s).heap.size :=
  ⟨Nat.sub_add_cancel hcnt,
    Nat.lt_of_lt_of_le (Nat.sub_one_lt_of_le hcnt (Nat.le_refl _)) h.cnt_le⟩

/-- A full heap takes nothing. -/
theorem heapInsert_full {h : HeapH D} (hfull : h.size ≤ h.cnt) (fuel : ℕ) (data : D)
    (key : UInt32) : h.heapInsert fuel data key = .ok { ret := 1, heap := h, used := [] } := by
  rw [heapInsert, dif_pos hfull]

/-- A key above all those on the way does not come to an end. -/
theorem heapInsert_diverges {h : HeapH D} {key : UInt32} (hroom : h.cnt < h.size)
    (hlt : ∀ j ≤ (h.cnt + 1) / 2, (h.p j).key < key) (fuel : ℕ) (data : D) :
    h.heapInsert fuel data key = .error .diverges := by
  rw [heapInsert, dif_neg (Nat.not_le_of_lt hroom), insertLoop_diverges hlt]
  rfl

/-- An empty heap takes no key above that of slot 0. -/
theorem not_lt_of_heapInsert {h : HeapH D} {data : D} {key : UInt32} {r : Inserted D}
    (hroom : h.cnt < h.size) (hcnt : h.cnt = 0) (hr : h.heapInsert fuel data key = .ok r) :
    ¬(h.p 0).key < key := by
  intro hlt
  rw [heapInsert_diverges hroom fun j hj => ?_] at hr
  · cases hr
  · obtain rfl : j = 0 := by omega
    exact hlt

end HeapH

namespace Proxy

open HeapH

/-- The calls that use a group. -/
inductive GroupCall where
  | loadBalance (fuel : ℕ)
  | retProxyFd (fd i : ℕ)

def GroupCall.isLoadBalance : GroupCall → Bool
  | .loadBalance _ => true
  | .retProxyFd _ _ => false

/-- Only a node is read as one. -/
theorem HeapData.asNode_eq_ok {d : HeapData} {i : ℕ} (h : d.asNode = .ok i) : d = .node i := by
  cases d with
  | null => cases h
  | node j => rw [Except.ok.inj h]
  | slot j => cases h

namespace ProxyGroup

/-- `ret_proxy_fd`, with node `i`. -/
def retProxyFd (fd i : ℕ) (g : ProxyGroup) : ProxyGroup where
  nodes := g.nodes
  node := Function.update g.node i { (g.node i) with fds := ((g.node i).fds.queueIn fd).2 }

/-- A call that returns. -/
def step (g : ProxyGroup) : GroupCall → Option ProxyGroup
  | .loadBalance fuel => (g.loadBalance fuel).toOption.map Balanced.group
  | .retProxyFd fd i => some (g.retProxyFd fd i)

variable {g g' : ProxyGroup} {fuel : ℕ}

/-- The call leaves the group that `load_balance` leaves. -/
theorem step_loadBalance_eq_some (h : g.step (.loadBalance fuel) = some g') :
    ∃ r, g.loadBalance fuel = .ok r ∧ r.group = g' := by
  obtain ⟨r, hr, rfl⟩ := Option.map_eq_some_iff.mp h
  exact ⟨r, by
    cases hb : g.loadBalance fuel with
    | error e => rw [hb] at hr; cases hr
    | ok r' => rw [hb] at hr; rw [Option.some.inj hr], rfl⟩

/-- `ret_proxy_fd` changes no weight. -/
theorem weight_retProxyFd (fd i j : ℕ) :
    ((g.retProxyFd fd i).node j).weight = (g.node j).weight := by
  simp only [retProxyFd, Function.update_apply]
  split_ifs with hj
  · rw [hj]
  · rfl

/-- What a call that returns has done: the last entry is in the hole, a node is at the root then,
and the slot of the root is inserted with the weight of that node. -/
theorem loadBalance_cases {r : Balanced} (hcnt : 1 ≤ g.nodes.cnt)
    (h : g.loadBalance fuel = .ok r) : ∃ s i ins,
      deleteLoop (g.nodes.p g.nodes.cnt) (g.nodes.cnt - 1) fuel g.nodes.p 1 [g.nodes.cnt] = .ok s ∧
      (Function.update s.p s.i (g.nodes.p g.nodes.cnt) 1).data = .node i ∧
      (g.nodes.refill s).heap.heapInsert fuel (.slot 1) (g.node i).weight = .ok ins ∧
      r.p = i ∧ r.group.nodes = ins.heap := by
  obtain ⟨d, hd, h⟩ := bind_eq_ok.mp h
  rw [heapMaxDelete, if_neg (by omega)] at hd
  obtain ⟨s, hs, hd⟩ := bind_eq_ok.mp hd
  obtain rfl := Except.ok.inj hd
  obtain ⟨i, hi, h⟩ := bind_eq_ok.mp h
  obtain ⟨ins, hins, h⟩ := bind_eq_ok.mp h
  obtain rfl := Except.ok.inj h
  exact ⟨s, i, ins, hs, HeapData.asNode_eq_ok hi, hins, rfl, rfl⟩

/-- The heap is in order and has an entry, and a node stands in it with its weight. -/
structure Weighted (g : ProxyGroup) : Prop where
  cnt_pos : 1 ≤ g.nodes.cnt
  order : g.nodes.MaxOrder
  weight : ∀ e ∈ g.nodes.entries, ∀ i, e.data = .node i → e.key = (g.node i).weight

/-- The last entry is a slot, and not above the child of the root that is looked at. -/
structure Spent (g : ProxyGroup) : Prop where
  cnt_pos : 1 ≤ g.nodes.cnt
  slot : ∃ j, (g.nodes.p g.nodes.cnt).data = .slot j
  below : 2 ≤ g.nodes.cnt - 1 →
    (g.nodes.p g.nodes.cnt).key ≤ (g.nodes.p (child (g.nodes.cnt - 1) g.nodes.p 1).1).key

/-- So the keys stay those of the nodes. -/
theorem Weighted.retProxyFd (h : g.Weighted) (fd i : ℕ) : (g.retProxyFd fd i).Weighted where
  cnt_pos := h.cnt_pos
  order := h.order
  weight e he j hj := by
    rw [weight_retProxyFd]
    exact h.weight e he j hj

/-- A group that is spent stays so. -/
theorem Spent.retProxyFd (h : g.Spent) (fd i : ℕ) : (g.retProxyFd fd i).Spent :=
  ⟨h.cnt_pos, h.slot, h.below⟩

/-- After the deletion no node is at the root. -/
theorem Spent.not_loadBalance (h : g.Spent) (r : Balanced) : g.loadBalance fuel ≠ .ok r := by
  intro hr
  obtain ⟨s, i, ins, hs, hroot, -⟩ := loadBalance_cases h.cnt_pos hr
  obtain ⟨j, hj⟩ := h.slot
  cases fuel with
  | zero => cases hs
  | succ fuel =>
    obtain ⟨used, hstops⟩ := deleteLoop_stops h.below fuel [g.nodes.cnt]
    rw [hstops] at hs
    obtain rfl := Except.ok.inj hs
    rw [Function.update_self, hj] at hroot
    cases hroot

/-- A call that returns leaves a group that is spent. -/
theorem Weighted.spent (h : g.Weighted) {r : Balanced} (hr : g.loadBalance fuel = .ok r) :
    r.group.Spent := by
  obtain ⟨s, i, ins, hs, hnode, hins, -, hnodes⟩ := loadBalance_cases h.cnt_pos hr
  obtain ⟨q, hq⟩ : ∃ q, q = Function.update s.p s.i (g.nodes.p g.nodes.cnt) := ⟨_, rfl⟩
  obtain ⟨hmem, hparent, hchild⟩ := root_after_delete h.order h.cnt_pos hs hq
  have hpos := h.cnt_pos
  have hkey : (q 1).key = (g.node i).weight := h.weight _ hmem i (hq ▸ hnode)
  obtain ⟨hcnt, hroom⟩ := refill_room hpos s
  have hp : (g.nodes.refill s).heap.p = q := hq.symm
  have hnot : ¬((g.nodes.refill s).heap.p (((g.nodes.refill s).heap.cnt + 1) / 2)).key <
      (g.node i).weight := by
    rcases Nat.eq_or_lt_of_le hpos with hone | hmore
    · have hempty : (g.nodes.refill s).heap.cnt = 0 := by omega
      have hhalf : ((g.nodes.refill s).heap.cnt + 1) / 2 = 0 := by rw [hempty]
      rw [hhalf]
      exact not_lt_of_heapInsert hroom hempty hins
    · rw [hcnt, hp, ← hkey, UInt32.not_lt]
      exact hparent hmore
  obtain ⟨hpn, hcntn⟩ := heapInsert_last hroom hnot hins
  rw [hcnt] at hcntn hpn
  rw [hp] at hpn
  have hlast : r.group.nodes.p g.nodes.cnt = { key := (g.node i).weight, data := .slot 1 } := by
    rw [hnodes, hpn, Function.update_self]
  refine ⟨?_, ⟨1, ?_⟩, ?_⟩
  · rw [hnodes, hcntn]
    exact hpos
  · rw [hnodes, hcntn, ← hnodes, hlast]
  · rw [hnodes, hcntn, ← hnodes, hlast]
    intro htwo
    have hne (j : ℕ) (hj : j ≤ g.nodes.cnt - 1) : r.group.nodes.p j = q j := by
      rw [hnodes, hpn, Function.update_of_ne (by omega)]
    obtain ⟨-, hle, -⟩ := child_spec q (i := 1) htwo
    rw [child_congr (fun j _ hj => hne j hj) htwo, hne _ hle, ← hkey]
    exact hchild htwo

/-- With a second entry, and a node at the root after the deletion, the call returns. -/
theorem Weighted.exists_loadBalance (h : g.Weighted) (htwo : 2 ≤ g.nodes.cnt)
    (hnode : ∀ s fuel, deleteLoop (g.nodes.p g.nodes.cnt) (g.nodes.cnt - 1) fuel g.nodes.p 1
        [g.nodes.cnt] = .ok s →
      ∃ i, (Function.update s.p s.i (g.nodes.p g.nodes.cnt) 1).data = .node i) :
    ∃ fuel r, g.loadBalance fuel = .ok r := by
  obtain ⟨fuel, hfuel⟩ : ∃ fuel, g.nodes.cnt = fuel + 1 := ⟨g.nodes.cnt - 1, by omega⟩
  have hbound : g.nodes.cnt - 1 < g.nodes.cnt + 1 := by omega
  obtain ⟨s, hs, -⟩ := exists_deleteLoop (p := g.nodes.p) (g.nodes.p g.nodes.cnt) (Nat.le_refl 1)
    (Nat.le_sub_one_of_lt htwo) hbound [g.nodes.cnt]
  obtain ⟨q, hq⟩ : ∃ q, q = Function.update s.p s.i (g.nodes.p g.nodes.cnt) := ⟨_, rfl⟩
  obtain ⟨hmem, hparent, -⟩ := root_after_delete h.order h.cnt_pos hs hq
  obtain ⟨i, hi⟩ : ∃ i, (q 1).data = .node i := hq ▸ hnode s _ hs
  have hkey : (q 1).key = (g.node i).weight := h.weight _ hmem i hi
  obtain ⟨hcnt, hroom⟩ := refill_room h.cnt_pos s
  have hp : (g.nodes.refill s).heap.p = q := hq.symm
  have hnot : ¬((g.nodes.refill s).heap.p (((g.nodes.refill s).heap.cnt + 1) / 2)).key <
      (g.node i).weight := by
    rw [hcnt, hp, ← hkey, UInt32.not_lt]
    exact hparent htwo
  obtain ⟨r, hr, -⟩ := heapInsert_succ hroom hnot fuel (.slot 1)
  rw [← hfuel] at hr
  have hroot : ((g.nodes.refill s).heap.p 1).data.asNode = .ok i := by
    rw [hp, hi]
    rfl
  have hret : (g.nodes.refill s).ret = some 1 := rfl
  refine ⟨g.nodes.cnt, ?_⟩
  rw [loadBalance, heapMaxDelete_eq h.cnt_pos hs, ok_bind, hret]
  dsimp only
  rw [hroot, ok_bind, hr]
  exact ⟨_, rfl⟩

/-- `load_balance` does not return on a group that is spent. -/
theorem countP_of_spent {as : List GroupCall} (h : g.Spent) (hrun : Runs.exec step g as = some g') :
    as.countP GroupCall.isLoadBalance = 0 := by
  induction as generalizing g with
  | nil => rfl
  | cons a as ih =>
    obtain ⟨g₁, ha, hrun⟩ := Runs.exec_cons_eq_some.mp hrun
    cases a with
    | loadBalance fuel =>
      obtain ⟨r, hr, -⟩ := step_loadBalance_eq_some ha
      exact absurd hr (h.not_loadBalance r)
    | retProxyFd fd i =>
      obtain rfl := Option.some.inj ha
      rw [List.countP_cons_of_neg (by simp [GroupCall.isLoadBalance])]
      exact ih (h.retProxyFd fd i) hrun

/-- After the first call the group is spent. -/
theorem countP_of_weighted {as : List GroupCall} (h : g.Weighted)
    (hrun : Runs.exec step g as = some g') : as.countP GroupCall.isLoadBalance ≤ 1 := by
  induction as generalizing g with
  | nil => exact Nat.zero_le 1
  | cons a as ih =>
    obtain ⟨g₁, ha, hrun⟩ := Runs.exec_cons_eq_some.mp hrun
    cases a with
    | loadBalance fuel =>
      obtain ⟨r, hr, rfl⟩ := step_loadBalance_eq_some ha
      rw [List.countP_cons_of_pos rfl, countP_of_spent (h.spent hr) hrun]
    | retProxyFd fd i =>
      obtain rfl := Option.some.inj ha
      rw [List.countP_cons_of_neg (by simp [GroupCall.isLoadBalance])]
      exact ih (h.retProxyFd fd i) hrun

/-- **One request for each group.** In every run of the calls that use a group, `load_balance`
returns at most once. With two nodes or more it does return. -/
theorem atMostOne_loadBalance (h : g.Weighted) :
    (∀ (as : List GroupCall) (g' : ProxyGroup), Runs.exec step g as = some g' →
      as.countP GroupCall.isLoadBalance ≤ 1) ∧
    (2 ≤ g.nodes.cnt → (∀ e ∈ g.nodes.entries, ∃ i, e.data = .node i) →
      ∃ fuel r, g.loadBalance fuel = .ok r) :=
  ⟨fun _ _ hrun => countP_of_weighted h hrun, fun htwo hnodes =>
    h.exists_loadBalance htwo fun _ _ hs =>
      hnodes _ (root_after_delete h.order h.cnt_pos hs rfl).1⟩

/-- The nodes 0 and 1 of the weights 5 and 3. -/
def twoNodes : ProxyGroup where
  nodes := HeapH.full 2 fun i =>
    { key := if i = 1 then 5 else 3, data := if i = 1 then .node 0 else .node 1 }
  node := fun i => {
    weight := if i = 0 then 5 else 3
    fds := ((LidaQueue.queueInit 2 Nat.zero_lt_two).queueIn 7).2 }

/-- The keys are the weights of the nodes. -/
theorem weighted_twoNodes : twoNodes.Weighted where
  cnt_pos := (by decide : 1 ≤ 2)
  order := by decide
  weight e he i hi := by
    obtain ⟨j, ⟨hj, hle⟩, rfl⟩ := mem_entries_iff.mp he
    have hle' : j ≤ 2 := hle
    obtain rfl | rfl : j = 1 ∨ j = 2 := by omega
    · obtain rfl : 0 = i := HeapData.node.inj hi
      rfl
    · obtain rfl : 1 = i := HeapData.node.inj hi
      rfl

theorem atMostOne_loadBalance_twoNodes :
    (∀ (as : List GroupCall) (g' : ProxyGroup), Runs.exec step twoNodes as = some g' →
      as.countP GroupCall.isLoadBalance ≤ 1) ∧
    (2 ≤ twoNodes.nodes.cnt → (∀ e ∈ twoNodes.nodes.entries, ∃ i, e.data = .node i) →
      ∃ fuel r, twoNodes.loadBalance fuel = .ok r) :=
  atMostOne_loadBalance weighted_twoNodes

end ProxyGroup

end Proxy

end Lidas
