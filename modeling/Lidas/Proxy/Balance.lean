import Lidas.Memory.Heap
import Lidas.Memory.Queue

/-!
# Choosing a backend

`load_balance` takes the first entry off the heap of a proxy group, a descriptor from the queue
of its node, and returns the entry to the heap. What it returns is not the entry: the pointer
`n` that `heap_max_delete` gave it is handed to `heap_insert` as the `data`, where `n->data` was
taken before. So after one call the heap has an entry whose `data` is no `proxy_node`.
-/

namespace Lidas

namespace Proxy

/-- What the `data` of an entry can point to: `NULL`, a `proxy_node`, numbered in the order of
allocation, or a slot of the heap's own array. -/
inductive HeapData where
  | null
  | node (i : ℕ)
  | slot (i : ℕ)
  deriving DecidableEq

/-- The number of the node that a `data` pointer is taken for. The memory of a slot is that of a
`heap_t`, which is smaller. -/
def HeapData.asNode : HeapData → Except Fault ℕ
  | .null => .error .nullDeref
  | .node i => .ok i
  | .slot _ => .error .outOfBounds

/-- The members of `struct proxy_node` that `load_balance` uses. -/
structure ProxyNode where
  weight : UInt32
  fds : LidaQueue

/-- A `proxy_group`, with the nodes by number. -/
structure ProxyGroup where
  nodes : HeapH HeapData
  node : ℕ → ProxyNode

/-- What `load_balance` leaves: the node at `*p`, the value returned and the group. -/
structure Balanced where
  p : ℕ
  t : ℕ
  group : ProxyGroup

namespace ProxyGroup

/-- `load_balance`. -/
def loadBalance (fuel : ℕ) (g : ProxyGroup) : Except Fault Balanced := do
  let d ← g.nodes.heapMaxDelete fuel
  match d.ret with
  | none => .error .nullDeref
  | some n =>
    let i ← (d.heap.p n).data.asNode
    let (t, fds) := (g.node i).fds.queueOut
    let r ← d.heap.heapInsert fuel (.slot n) (g.node i).weight
    return {
      p := i
      t := t
      group := {
        nodes := r.heap
        node := Function.update g.node i { (g.node i) with fds := fds } } }

variable {g : ProxyGroup}

/-- The group holds nodes: its heap is in order and has an entry, each entry is a node with its
weight, and no node's queue is empty. -/
structure Stocked (g : ProxyGroup) : Prop where
  cnt_pos : 1 ≤ g.nodes.cnt
  order : g.nodes.MaxOrder
  entry : ∀ e ∈ g.nodes.entries, ∃ i, e = { key := (g.node i).weight, data := .node i } ∧
    (g.node i).fds.entries ≠ []

/-- The call of `load_balance` terminates with a node of maximum weight and the oldest descriptor
of its queue, which it removes, and leaves everything else as it was, the heap in order. -/
def BalancesRight (g : ProxyGroup) : Prop :=
  ∃ fuel r, g.loadBalance fuel = .ok r ∧
    { key := (g.node r.p).weight, data := .node r.p } ∈ g.nodes.entries ∧
    (∀ e ∈ g.nodes.entries, e.key ≤ (g.node r.p).weight) ∧
    (g.node r.p).fds.entries = r.t :: (r.group.node r.p).fds.entries ∧
    (∀ i, (r.group.node i).weight = (g.node i).weight ∧
      (i ≠ r.p → (r.group.node i).fds = (g.node i).fds)) ∧
    r.group.nodes.MaxOrder ∧ r.group.nodes.entries = g.nodes.entries

/-- An entry that is a slot of the array is left in the heap. -/
theorem exists_slot_of_loadBalance {fuel : ℕ} {r : Balanced} (hcnt : 1 ≤ g.nodes.cnt)
    (hr : g.loadBalance fuel = .ok r) :
    ∃ e ∈ r.group.nodes.entries, ∀ i, e.data ≠ .node i := by
  obtain ⟨d, hd, hr⟩ := bind_eq_ok.mp hr
  rw [HeapH.heapMaxDelete, if_neg (by omega)] at hd
  obtain ⟨s, -, hd⟩ := bind_eq_ok.mp hd
  obtain rfl := Except.ok.inj hd
  obtain ⟨i, -, hr⟩ := bind_eq_ok.mp hr
  obtain ⟨ins, hins, hr⟩ := bind_eq_ok.mp hr
  obtain rfl := Except.ok.inj hr
  have hle := g.nodes.cnt_le
  have hroom : (g.nodes.refill s).heap.cnt < (g.nodes.refill s).heap.size := by
    simp only [HeapH.refill]
    omega
  obtain ⟨-, -, -, -, hentries, -⟩ := HeapH.heapInsert_ok hroom hins
  refine ⟨_, by rw [hentries]; exact Multiset.mem_cons_self _ _, ?_⟩
  rintro i ⟨⟩

/-- **The group is not preserved.** No call of `load_balance` is right. -/
theorem not_balancesRight (g : ProxyGroup) (h : g.Stocked) : ¬g.BalancesRight := by
  rintro ⟨fuel, r, hr, -, -, -, -, -, hentries⟩
  obtain ⟨e, he, hslot⟩ := exists_slot_of_loadBalance h.cnt_pos hr
  rw [hentries] at he
  obtain ⟨i, rfl, -⟩ := h.entry e he
  exact hslot i rfl

/-- A group of one node of weight 5, with the descriptor 7. -/
def oneNode : ProxyGroup where
  nodes := HeapH.full 1
    (Function.update (fun _ => { key := 0, data := .null }) 1 { key := 5, data := .node 0 })
  node := fun _ => { weight := 5, fds := ((LidaQueue.queueInit 2 Nat.zero_lt_two).queueIn 7).2 }

theorem stocked_oneNode : oneNode.Stocked where
  cnt_pos := Nat.le_refl 1
  order := by decide
  entry := fun e he => ⟨0, Multiset.mem_singleton.mp he, by decide⟩

theorem not_balancesRight_oneNode : ¬oneNode.BalancesRight :=
  not_balancesRight oneNode stocked_oneNode

theorem not_forall_balancesRight : ¬∀ g : ProxyGroup, g.Stocked → g.BalancesRight := by
  intro hall
  obtain ⟨fuel, r, hr, -, -, -, -, -, hentries⟩ := hall oneNode stocked_oneNode
  obtain ⟨e, he, hslot⟩ := exists_slot_of_loadBalance (Nat.le_refl 1) hr
  rw [hentries] at he
  obtain ⟨i, rfl, -⟩ := stocked_oneNode.entry e he
  exact hslot i rfl

end ProxyGroup

end Proxy

end Lidas
