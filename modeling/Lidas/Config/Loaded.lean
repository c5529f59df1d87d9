import Lidas.Config.Nodes
import Lidas.Proxy.Once

/-!
# The groups that can be loaded

The first child with a weight keeps `load_proxy_nodes` in the loop of `heap_insert` for ever, as
long as there is room for it. So a group can be loaded only if all its children but the last have
the weight 0; the last one is dropped. What is loaded is the entry for `NULL` and these children,
all with the key 0 (`loadProxyNodes_returns_iff`), and it is good for one request
(`loaded_once`).
-/

namespace Lidas

open HeapH

open Proxy (HeapData)

theorem HeapH.eq_of_p {D : Type} {h h' : HeapH D} (hsize : h.size = h'.size) (hcnt : h.cnt = h'.cnt)
    (hp : h.p = h'.p) : h = h' := by
  cases h
  cases h'
  subst hsize hcnt hp
  rfl

namespace Config

open CString

/-- Slot `i` after `k` insertions of nodes of the weight 0. -/
def zeroSlot (k i : ℕ) : HeapT HeapData where
  key := 0
  data := if 2 ≤ i ∧ i ≤ k + 1 then .node (i - 2) else .null

/-- The heap of the size `n` after `k` insertions of nodes of the weight 0. -/
def zeroHeap (n k : ℕ) (h : k < n) : HeapH HeapData where
  size := n
  cnt := k + 1
  p := zeroSlot k
  cnt_le := h

/-- An insertion with the key 0 fills the next slot and moves nothing. -/
theorem update_zeroSlot (k : ℕ) :
    Function.update (zeroSlot k) (k + 2) { key := 0, data := .node k } = zeroSlot (k + 1) := by
  funext i
  rw [Function.update_apply]
  by_cases hi : i = k + 2
  · rw [if_pos hi, zeroSlot, if_pos (by omega), hi, Nat.add_sub_cancel]
  · have hiff : (2 ≤ i ∧ i ≤ k + 1) ↔ (2 ≤ i ∧ i ≤ k + 1 + 1) := by omega
    rw [if_neg hi, zeroSlot, zeroSlot]
    simp only [hiff]

/-- `heap_init` fills slot 1 with the key 0 and `NULL`. -/
theorem update_zeroSlot_null :
    Function.update (fun _ => { key := 0, data := .null }) 1 { key := 0, data := .null } =
      zeroSlot 0 := by
  funext i
  rw [Function.update_eq_self, zeroSlot, if_neg (by omega)]

variable {n k fuel : ℕ} {alloc : ℕ → Bool}

/-- So a new heap is one of nodes of the weight 0, without a node. -/
theorem heapInit_eq (h : 0 < n) : heapInit HeapData.null n .null 0 = .ok (zeroHeap n 0 h) := by
  have hsize : 1 ≤ n := h
  rw [heapInit, dif_pos hsize]
  exact congrArg Except.ok (eq_of_p rfl rfl update_zeroSlot_null)

/-- A node of the weight 0 is inserted at the end. -/
theorem heapInsert_zero (h : k + 1 < n) (fuel : ℕ) :
    ∃ r, (zeroHeap n k (Nat.lt_of_succ_lt h)).heapInsert (fuel + 1) (.node k) 0 = .ok r ∧
      r.ret = 0 ∧ r.heap = zeroHeap n (k + 1) h := by
  obtain ⟨r, hr, hret, hsize, hp, hcnt⟩ := heapInsert_succ (h := zeroHeap n k (Nat.lt_of_succ_lt h))
    h UInt32.not_lt_zero fuel (HeapData.node k)
  exact ⟨r, hr, hret, eq_of_p hsize hcnt (hp.trans (update_zeroSlot k))⟩

/-- One with a weight is not. -/
theorem eq_zero_of_heapInsert (h : k + 1 < n) {weight : UInt32} {r : Inserted HeapData}
    (hr : (zeroHeap n k (Nat.lt_of_succ_lt h)).heapInsert fuel (.node k) weight = .ok r) :
    weight = 0 := by
  by_contra hweight
  rw [heapInsert_diverges h fun _ _ => ?_] at hr
  · cases hr
  · rw [UInt32.lt_iff_toNat_lt]
    exact Nat.pos_of_ne_zero fun h0 => hweight (UInt32.toNat.inj h0)

/-- The weight is what `atoi` makes of the attribute. -/
theorem weight_of_readNode {node : NodeElem} {new : ProxyNode} (h : readNode node = .ok new) :
    new.weight = UInt32.ofInt (atoi node.weight) := by
  obtain ⟨tok, -, h⟩ := bind_eq_ok.mp h
  obtain ⟨ip, h⟩ : ∃ ip : Option (List UInt8), (do
      let l ← cstr tok.text (← deref tok.save)
      return {
        ip := ip
        port := UInt16.ofInt (atoi l)
        weight := UInt32.ofInt (atoi node.weight) } : Except Fault ProxyNode) = .ok new := by
    cases htok : tok.token with
    | none =>
      rw [htok] at h
      exact ⟨none, h⟩
    | some i =>
      rw [htok] at h
      obtain ⟨ip, -, h⟩ := bind_eq_ok.mp h
      exact ⟨ip, h⟩
  obtain ⟨save, -, h⟩ := bind_eq_ok.mp h
  obtain ⟨l, -, h⟩ := bind_eq_ok.mp h
  obtain rfl := Except.ok.inj h
  rfl

/-- The last child finds the heap full. -/
theorem insertNode_last (h : k < k + 1) (fuel i : ℕ) (weight : UInt32) :
    insertNode fuel (k + 1) i weight (some (zeroHeap (k + 1) k h)) =
      .ok (1, some (zeroHeap (k + 1) k h)) := by
  rw [insertNode, heapInsert_full (Nat.le_refl (k + 1))]
  rfl

/-- Another child is inserted if its weight is 0. -/
theorem insertNode_eq_ok (h : k + 1 < n) {weight : UInt32} {q : ℤ × Option (HeapH HeapData)}
    (hq : insertNode fuel n k weight (some (zeroHeap n k (Nat.lt_of_succ_lt h))) = .ok q) :
    weight = 0 ∧ q = (0, some (zeroHeap n (k + 1) h)) := by
  obtain ⟨r, hr, hq⟩ := bind_eq_ok.mp hq
  obtain rfl := Except.ok.inj hq
  obtain rfl := eq_zero_of_heapInsert h hr
  obtain ⟨hret, -, -, hsize, -⟩ := heapInsert_ok h hr
  obtain ⟨hp, hcnt⟩ := heapInsert_last h UInt32.not_lt_zero hr
  have hheap : r.heap = zeroHeap n (k + 1) h :=
    eq_of_p hsize hcnt (hp.trans (update_zeroSlot k))
  exact ⟨rfl, by rw [hret, hheap]⟩

/-- A node of the weight 0 is inserted in one round. -/
theorem insertNode_zero (h : k + 1 < n) (fuel : ℕ) :
    insertNode (fuel + 1) n k 0 (some (zeroHeap n k (Nat.lt_of_succ_lt h))) =
      .ok (0, some (zeroHeap n (k + 1) h)) := by
  obtain ⟨r, hr, hret, hheap⟩ := heapInsert_zero h fuel
  rw [insertNode, hr, ← hret, ← hheap]
  rfl

/-- A round of the loop. -/
theorem nodesLoop_cons_eq_ok {node : NodeElem} {rest : List NodeElem} {s s' : Loading} :
    nodesLoop fuel n alloc (node :: rest) s = .ok s' ↔ alloc s.built.length = true ∧
      ∃ new q, readNode node = .ok new ∧
        insertNode fuel n s.built.length new.weight s.nodes = .ok q ∧ 0 ≤ q.1 ∧
        nodesLoop fuel n alloc rest { nodes := q.2, built := s.built ++ [new] } = .ok s' := by
  rw [nodesLoop]
  cases halloc : alloc s.built.length with
  | false =>
    rw [if_pos rfl]
    exact iff_of_false (by rintro ⟨⟩) (by rintro ⟨⟨⟩, -⟩)
  | true =>
    rw [if_neg (by decide)]
    constructor
    · intro h
      obtain ⟨new, hnew, h⟩ := bind_eq_ok.mp h
      obtain ⟨q, hq, h⟩ := bind_eq_ok.mp h
      dsimp only at h
      by_cases hret : q.1 < 0
      · rw [if_pos hret] at h
        cases h
      · rw [if_neg hret] at h
        exact ⟨rfl, new, q, inMemory_eq_ok.mp hnew, inMemory_eq_ok.mp hq, Int.not_lt.mp hret, h⟩
    · rintro ⟨-, new, q, hnew, hq, hret, h⟩
      refine bind_eq_ok.mpr ⟨new, inMemory_eq_ok.mpr hnew, bind_eq_ok.mpr
        ⟨q, inMemory_eq_ok.mpr hq, ?_⟩⟩
      dsimp only
      rw [if_neg (Int.not_lt.mpr hret)]
      exact h

/-- The children can be loaded by a loop whose next one has the number `k`. -/
structure Weightless (alloc : ℕ → Bool) (k : ℕ) (children : List NodeElem) : Prop where
  alloc : ∀ i < children.length, alloc (k + i) = true
  weight : ∀ node ∈ children.dropLast, UInt32.ofInt (atoi node.weight) = 0

/-- A child before other weightless ones has to be weightless unless it is the last. -/
theorem Weightless.cons {node : NodeElem} {rest : List NodeElem} (halloc : alloc k = true)
    (hweight : rest ≠ [] → UInt32.ofInt (atoi node.weight) = 0)
    (h : Weightless alloc (k + 1) rest) : Weightless alloc k (node :: rest) where
  alloc i hi := by
    cases i with
    | zero => exact halloc
    | succ i =>
      rw [← Nat.succ_add_eq_add_succ]
      exact h.alloc i (Nat.lt_of_succ_lt_succ hi)
  weight := by
    cases rest with
    | nil => exact fun _ hmem => absurd hmem List.not_mem_nil
    | cons node' rest =>
      rw [List.dropLast_cons_cons]
      exact List.forall_mem_cons.mpr ⟨hweight (List.cons_ne_nil _ _), h.weight⟩

/-- What is said of all children is said of those after the first. -/
theorem Weightless.tail {node : NodeElem} {rest : List NodeElem}
    (h : Weightless alloc k (node :: rest)) : Weightless alloc (k + 1) rest where
  alloc i hi := by
    rw [Nat.succ_add_eq_add_succ]
    exact h.alloc (i + 1) (Nat.succ_lt_succ hi)
  weight := by
    cases rest with
    | nil => exact fun _ hmem => absurd hmem List.not_mem_nil
    | cons node' rest => exact (List.forall_mem_cons.mp h.weight).2

/-- What the loop has done when it ends. -/
theorem nodesLoop_ok {rest : List NodeElem} {built : List ProxyNode} {s' : Loading} (hk : k < n)
    (hlen : k + rest.length = n) (hbuilt : built.length = k)
    (h : nodesLoop fuel n alloc rest { nodes := some (zeroHeap n k hk), built := built } = .ok s') :
    Weightless alloc k rest ∧ ∃ hn news,
      List.Forall₂ (fun node new => readNode node = .ok new) rest news ∧
      s' = { nodes := some (zeroHeap n (n - 1) hn), built := built ++ news } := by
  induction rest generalizing k built with
  | nil => exact absurd hlen (Nat.ne_of_lt hk)
  | cons node rest ih =>
    obtain ⟨halloc, new, q, hnew, hq, -, h⟩ := nodesLoop_cons_eq_ok.mp h
    rw [hbuilt] at halloc hq
    have hbuilt' : (built ++ [new]).length = k + 1 := by
      rw [List.length_append, hbuilt, List.length_singleton]
    cases rest with
    | nil =>
      obtain rfl : n = k + 1 := hlen.symm
      rw [insertNode_last] at hq
      obtain rfl := Except.ok.inj hq
      obtain rfl := Except.ok.inj h
      refine ⟨.cons halloc (fun hne => absurd rfl hne) ⟨?_, ?_⟩, hk, [new],
        .cons hnew .nil, rfl⟩
      · exact fun _ hi => absurd hi (Nat.not_lt_zero _)
      · exact fun _ hmem => absurd hmem List.not_mem_nil
    | cons node' rest =>
      rw [List.length_cons, List.length_cons] at hlen
      have hk' : k + 1 < n := by omega
      obtain ⟨hweight, rfl⟩ := insertNode_eq_ok hk' hq
      obtain ⟨hless, hn, news, hnews, hs'⟩ := ih hk' (by rw [List.length_cons]; omega) hbuilt' h
      refine ⟨hless.cons halloc fun _ => ?_, hn, new :: news, .cons hnew hnews, ?_⟩
      · rw [← weight_of_readNode hnew]
        exact hweight
      · rw [hs', List.append_assoc]
        rfl

theorem initNodes_succ (n : ℕ) :
    initNodes true (n + 1) = .ok (0, some (zeroHeap (n + 1) 0 (Nat.succ_pos n))) := by
  rw [initNodes, if_pos rfl, heapInit_eq (Nat.succ_pos n)]
  rfl

/-- For a group without children slot 1 is outside the array. -/
theorem initNodes_zero : initNodes true 0 = .error .outOfBounds := rfl

theorem loadProxyNodes_cons (fuel : ℕ) (alloc : ℕ → Bool) (node : NodeElem)
    (rest : List NodeElem) : loadProxyNodes fuel true alloc (node :: rest) =
      nodesLoop fuel (rest.length + 1) alloc (node :: rest)
        { nodes := some (zeroHeap (rest.length + 1) 0 (Nat.succ_pos _)), built := [] } := by
  rw [loadProxyNodes, List.length_cons, initNodes_succ]
  rfl

/-- What a call has done when it returns. -/
theorem loadProxyNodes_ok {children : List NodeElem} {s : Loading}
    (hs : loadProxyNodes fuel true alloc children = .ok s) :
    children ≠ [] ∧ Weightless alloc 0 children ∧
      (∃ hn, s.nodes = some (zeroHeap children.length (children.length - 1) hn)) ∧
      List.Forall₂ (fun node new => readNode node = .ok new) children s.built := by
  cases children with
  | nil =>
    rw [loadProxyNodes, List.length_nil, initNodes_zero] at hs
    cases hs
  | cons node rest =>
    rw [loadProxyNodes_cons] at hs
    have hlen : 0 + (node :: rest).length = rest.length + 1 := Nat.zero_add _
    obtain ⟨hless, hn, news, hnews, rfl⟩ := nodesLoop_ok _ hlen List.length_nil hs
    exact ⟨List.cons_ne_nil _ _, hless, ⟨hn, rfl⟩, hnews⟩

section Requests

variable {g : Proxy.ProxyGroup} (hk : k < n)

/-- Node `i` is in slot `i + 2`. -/
theorem zeroSlot_node {i j : ℕ} (h : (zeroSlot k j).data = .node i) : i + 2 = j ∧ j ≤ k + 1 := by
  dsimp only [zeroSlot] at h
  split_ifs at h with hj
  · obtain rfl := HeapData.node.inj h
    omega

/-- The last slot has the last node. -/
theorem zeroSlot_last (hk : 0 < k) : (zeroSlot k (k + 1)).data = .node (k - 1) := by
  rw [zeroSlot, if_pos ⟨Nat.succ_le_succ hk, Nat.le_refl _⟩]
  rfl

/-- A group of nodes of the weight 0. -/
theorem weighted_of_zeroHeap (hnodes : g.nodes = zeroHeap n k hk)
    (hweight : ∀ i < k, (g.node i).weight = 0) : g.Weighted where
  cnt_pos := by
    rw [hnodes]
    exact Nat.succ_pos k
  order := by
    rw [hnodes]
    exact fun i _ _ => Nat.le_refl _
  weight e he i hi := by
    rw [hnodes] at he
    obtain ⟨j, -, rfl⟩ := mem_entries_iff.mp he
    obtain ⟨hij, hj⟩ := zeroSlot_node hi
    exact (hweight i (by omega)).symm

/-- The entry at the root after the deletion is the last one. -/
theorem root_zeroHeap {s : Hole HeapData} (hs : deleteLoop ((zeroHeap n k hk).p (k + 1)) k fuel
    (zeroHeap n k hk).p 1 [k + 1] = .ok s) :
    Function.update s.p s.i ((zeroHeap n k hk).p (k + 1)) 1 = zeroSlot k (k + 1) := by
  cases fuel with
  | zero => cases hs
  | succ fuel =>
    obtain ⟨used, hstops⟩ : ∃ used, deleteLoop ((zeroHeap n k hk).p (k + 1)) k (fuel + 1)
        (zeroHeap n k hk).p 1 [k + 1] = .ok { p := (zeroHeap n k hk).p, i := 1, used := used } :=
      deleteLoop_stops (fun _ => UInt32.le_refl _) fuel [k + 1]
    rw [hstops] at hs
    obtain rfl := Except.ok.inj hs
    exact Function.update_self _ _ _

/-- `load_balance` returns the last node in the heap. -/
theorem p_of_zeroHeap (hnodes : g.nodes = zeroHeap n k hk) {r : Proxy.Balanced}
    (hr : g.loadBalance fuel = .ok r) : r.p + 1 = k := by
  have hcnt : 1 ≤ g.nodes.cnt := by
    rw [hnodes]
    exact Nat.succ_pos k
  obtain ⟨s, i, ins, hs, hroot, -, hi, -⟩ := Proxy.ProxyGroup.loadBalance_cases hcnt hr
  rw [hnodes] at hs hroot
  have hlast : (zeroSlot k (k + 1)).data = .node i :=
    (congrArg HeapT.data (root_zeroHeap hk hs)).symm.trans hroot
  rw [hi]
  exact Nat.succ.inj (zeroSlot_node hlast).1

/-- The nodes built in the place of their children. -/
theorem weight_of_built {children : List NodeElem} {built : List ProxyNode}
    (hbuilt : List.Forall₂ (fun node new => readNode node = .ok new) children built)
    (hless : Weightless alloc 0 children) {i : ℕ} (hi : i < children.length - 1) :
    ∃ new, built[i]? = some new ∧ new.weight = 0 := by
  obtain ⟨hlength, hget⟩ := List.forall₂_iff_get.mp hbuilt
  have hi' : i < children.length := by omega
  have hread : readNode children[i] = .ok built[i] := hget i hi' (hlength ▸ hi')
  have hmem : children[i] ∈ children.dropLast := by
    rw [← List.getElem_dropLast (by rw [List.length_dropLast]; exact hi)]
    exact List.getElem_mem _
  refine ⟨built[i], List.getElem?_eq_getElem _, ?_⟩
  rw [weight_of_readNode hread]
  exact hless.weight _ hmem

/-- **A loaded group serves one request.** Of all calls of `load_balance` in a run on a group that
has been loaded one returns, and it gives the last but one of the children. -/
theorem loaded_once {children : List NodeElem} {s : Loading} {h : HeapH HeapData}
    (hs : loadProxyNodes fuel true alloc children = .ok s) (hsome : s.nodes = some h)
    (hnodes : g.nodes = h)
    (hweight : ∀ i new, s.built[i]? = some new → (g.node i).weight = new.weight) :
    (∀ (as : List Proxy.GroupCall) (g' : Proxy.ProxyGroup),
      Runs.exec Proxy.ProxyGroup.step g as = some g' →
        as.countP Proxy.GroupCall.isLoadBalance ≤ 1) ∧
    (∀ fuel r, g.loadBalance fuel = .ok r → r.p + 2 = children.length) ∧
    (2 ≤ children.length → ∃ fuel r, g.loadBalance fuel = .ok r) := by
  obtain ⟨hne, hless, ⟨hn, hheap⟩, hbuilt⟩ := loadProxyNodes_ok hs
  obtain rfl := Option.some.inj (hsome.symm.trans hheap)
  have hweighted : g.Weighted := weighted_of_zeroHeap hn hnodes fun i hi => by
    obtain ⟨new, hnew, hzero⟩ := weight_of_built hbuilt hless hi
    rw [hweight i new hnew, hzero]
  refine ⟨fun as g' hrun => Proxy.ProxyGroup.countP_of_weighted hweighted hrun,
    fun fuel r hr => ?_, fun htwo => hweighted.exists_loadBalance ?_ fun s fuel hdelete => ?_⟩
  · have hp := p_of_zeroHeap hn hnodes hr
    omega
  · rw [hnodes]
    exact Nat.succ_le_succ (Nat.le_sub_one_of_lt htwo)
  · rw [hnodes] at hdelete ⊢
    have hlast := zeroSlot_last (Nat.sub_pos_of_lt htwo)
    exact ⟨_, (congrArg HeapT.data (root_zeroHeap hn hdelete)).trans hlast⟩

/-- `<node weight="0">10.0.0.1:80</node>`, twice. -/
def twoChildren : List NodeElem :=
  List.replicate 2 { weight := ascii "0", text := ascii "10.0.0.1:80" }

def zeroNode : ProxyNode where
  ip := some (ascii "10.0.0.1")
  port := 80
  weight := 0

/-- The text and the weight are read. -/
theorem readNode_zeroNode :
    readNode { weight := ascii "0", text := ascii "10.0.0.1:80" } = .ok zeroNode := by
  rfl

/-- What is loaded for them. -/
def twoLoaded : Loading where
  nodes := some (zeroHeap 2 1 Nat.one_lt_two)
  built := [zeroNode, zeroNode]

theorem loadProxyNodes_twoChildren :
    loadProxyNodes 1 true (fun _ => true) twoChildren = .ok twoLoaded :=
  (loadProxyNodes_cons _ _ _ _).trans (nodesLoop_cons_eq_ok.mpr
    ⟨rfl, zeroNode, _, readNode_zeroNode, insertNode_zero Nat.one_lt_two 0, Int.le_refl 0,
      nodesLoop_cons_eq_ok.mpr ⟨rfl, zeroNode, _, readNode_zeroNode,
        insertNode_last Nat.one_lt_two _ _ _, Int.zero_le_ofNat 1, rfl⟩⟩)

def twoLoadedGroup : Proxy.ProxyGroup where
  nodes := zeroHeap 2 1 Nat.one_lt_two
  node := fun _ => { weight := 0, fds := LidaQueue.queueInit 2 Nat.zero_lt_two }

/-- The nodes of the group have the weights that were read. -/
theorem weight_twoLoaded (i : ℕ) (new : ProxyNode) (h : twoLoaded.built[i]? = some new) :
    (twoLoadedGroup.node i).weight = new.weight := by
  have hmem : new ∈ [zeroNode, zeroNode] := List.mem_of_getElem? h
  simp only [List.mem_cons, List.not_mem_nil, or_false, or_self] at hmem
  rw [hmem]
  rfl

theorem loaded_once_twoChildren :
    (∀ (as : List Proxy.GroupCall) (g' : Proxy.ProxyGroup),
      Runs.exec Proxy.ProxyGroup.step twoLoadedGroup as = some g' →
        as.countP Proxy.GroupCall.isLoadBalance ≤ 1) ∧
    (∀ fuel r, twoLoadedGroup.loadBalance fuel = .ok r → r.p + 2 = twoChildren.length) ∧
    (2 ≤ twoChildren.length → ∃ fuel r, twoLoadedGroup.loadBalance fuel = .ok r) :=
  loaded_once loadProxyNodes_twoChildren rfl rfl weight_twoLoaded

end Requests

end Config

end Lidas
