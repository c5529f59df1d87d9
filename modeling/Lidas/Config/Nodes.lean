import Lidas.Config.Hosts
import Lidas.Lib.Decimal
import Lidas.Proxy.Balance

/-!
# The backends of a proxy group

`load_proxy_nodes` builds a `proxy_node` for each child of a `<proxy>` element and inserts it
into the heap of the group. `heap_init` makes a heap that is not empty, with an entry for the
pointer `NULL` and the key 0, in an array for as many entries as there are children. So the last
child finds the heap full, which is reported by the result 1 and not by a negative one, and a
child with a weight is a new largest key before that.
-/

namespace Lidas.Config

open CString

open Proxy (HeapData)

/-- The members of `struct proxy_node` that `load_proxy_nodes` sets; `ip` is `NULL` if the text
of the child has no token. -/
structure ProxyNode where
  ip : Option (List UInt8)
  port : UInt16
  weight : UInt32

/-- The node for a child. -/
def readNode (node : NodeElem) : Except Fault ProxyNode := do
  let tok ← strtokR (node.text ++ [0]) (some 0) [colon]
  let ip ← match tok.token with
    | none => .ok none
    | some i => (cstr tok.text i).map some
  let l ← cstr tok.text (← deref tok.save)
  return {
    ip := ip
    port := UInt16.ofInt (atoi l)
    weight := UInt32.ofInt (atoi node.weight) }

/-- `p->nodes` and the nodes built so far, which are numbered in this order. The array of the
heap is `none` when `calloc` has failed; `cnt` is 1 then. -/
structure Loading where
  nodes : Option (HeapH HeapData)
  built : List ProxyNode

/-- `heap_init (&(p->nodes), cnt, NULL, 0)`: the value returned and the heap. -/
def initNodes (calloc : Bool) (cnt : ℕ) : Except Fault (ℤ × Option (HeapH HeapData)) :=
  if calloc then do
    let h ← HeapH.heapInit .null cnt .null 0
    return (0, some h)
  else return (1, none)

/-- `heap_insert` of node `i` in a heap of the size `cnt`: the value returned and the heap. -/
def insertNode (fuel cnt i : ℕ) (weight : UInt32) :
    Option (HeapH HeapData) → Except Fault (ℤ × Option (HeapH HeapData))
  | none => if cnt ≤ 1 then return (1, none) else .error .nullDeref
  | some h => do
    let r ← h.heapInsert fuel (.node i) weight
    return (r.ret, some r.heap)

/-- The loop of `load_proxy_nodes`. The outcomes of `mem_cache_alloc` are given by `alloc`. -/
def nodesLoop (fuel cnt : ℕ) (alloc : ℕ → Bool) :
    List NodeElem → Loading → Except LoadFault Loading
  | [], s => .ok s
  | node :: rest, s => do
    if alloc s.built.length = false then
      throw (.access .nullDeref)
    let new ← inMemory (readNode node)
    let (ret, nodes) ← inMemory (insertNode fuel cnt s.built.length new.weight s.nodes)
    if ret < 0 then
      throw .exit
    nodesLoop fuel cnt alloc rest { nodes := nodes, built := s.built ++ [new] }

/-- `load_proxy_nodes`. -/
def loadProxyNodes (fuel : ℕ) (calloc : Bool) (alloc : ℕ → Bool) (children : List NodeElem) :
    Except LoadFault Loading := do
  let cnt := children.length
  let (ret, nodes) ← inMemory (initNodes calloc cnt)
  if ret < 0 then
    throw .exit
  nodesLoop fuel cnt alloc children { nodes := nodes, built := [] }

/-- The call of `load_proxy_nodes` exits, or it terminates and the heap is in order and has one
entry for each child: the node built from it with its weight. -/
def LoadsRight (calloc : Bool) (alloc : ℕ → Bool) (children : List NodeElem) : Prop :=
  ∃ fuel, loadProxyNodes fuel calloc alloc children = .error .exit ∨
    ∃ s h, loadProxyNodes fuel calloc alloc children = .ok s ∧ s.nodes = some h ∧
      h.cnt = children.length ∧ h.MaxOrder ∧
      List.Forall₂ (fun node new => readNode node = .ok new) children s.built ∧
      h.entries = (s.built.mapIdx fun i new => { key := new.weight, data := .node i } :
        List (HeapT HeapData))

/-! ### The entry of `heap_init` -/

/-- The heap has an entry for `NULL`. -/
def HasNull (nodes : Option (HeapH HeapData)) : Prop :=
  ∀ h, nodes = some h → ∃ e ∈ h.entries, e.data = .null

section Loop

variable {fuel cnt i : ℕ} {weight : UInt32} {nodes nodes' : Option (HeapH HeapData)} {ret : ℤ}

theorem initNodes_ok {calloc : Bool} (h : initNodes calloc cnt = .ok (ret, nodes)) :
    0 ≤ ret ∧ HasNull nodes := by
  rw [initNodes] at h
  split_ifs at h
  · obtain ⟨heap, hheap, h⟩ := bind_eq_ok.mp h
    obtain ⟨rfl, rfl⟩ := Prod.mk.inj (Except.ok.inj h)
    refine ⟨Int.le_refl 0, fun _ hsome => ?_⟩
    obtain rfl := Option.some.inj hsome
    rw [HeapH.heapInit] at hheap
    split_ifs at hheap
    obtain rfl := Except.ok.inj hheap
    exact ⟨_, MaxHeap.mem_entries _ (Nat.le_refl 1) (Nat.le_refl 1), rfl⟩
  · obtain ⟨rfl, rfl⟩ := Prod.mk.inj (Except.ok.inj h)
    exact ⟨by decide, fun _ hsome => by cases hsome⟩

/-- An insertion never returns a negative value, and keeps the entry. -/
theorem insertNode_ok (hnull : HasNull nodes)
    (h : insertNode fuel cnt i weight nodes = .ok (ret, nodes')) : 0 ≤ ret ∧ HasNull nodes' := by
  rcases nodes with _ | heap
  · rw [insertNode] at h
    split_ifs at h
    obtain ⟨rfl, rfl⟩ := Prod.mk.inj (Except.ok.inj h)
    exact ⟨by decide, fun _ hsome => by cases hsome⟩
  · obtain ⟨r, hr, h⟩ := bind_eq_ok.mp h
    obtain ⟨rfl, rfl⟩ := Prod.mk.inj (Except.ok.inj h)
    obtain ⟨e, he, hdata⟩ := hnull heap rfl
    by_cases hroom : heap.cnt < heap.size
    · obtain ⟨hret, -, -, -, hentries, -⟩ := HeapH.heapInsert_ok hroom hr
      refine ⟨by rw [hret], fun _ hsome => ?_⟩
      obtain rfl := Option.some.inj hsome
      exact ⟨e, by rw [hentries]; exact Multiset.mem_cons_of_mem he, hdata⟩
    · rw [HeapH.heapInsert, dif_pos (Nat.le_of_not_lt hroom)] at hr
      obtain rfl := Except.ok.inj hr
      exact ⟨Int.zero_le_ofNat 1, hnull⟩

theorem inMemory_eq_error {α : Type} {x : Except Fault α} {e : LoadFault}
    (h : inMemory x = .error e) : e ≠ .exit := by
  rcases x with f | a
  · obtain rfl := Except.error.inj h
    rintro ⟨⟩
  · cases h

theorem bind_eq_error {ε β γ : Type} {x : Except ε β} {f : β → Except ε γ} {e : ε}
    (h : (x >>= f) = .error e) : x = .error e ∨ ∃ b, x = .ok b ∧ f b = .error e := by
  rcases x with e' | b
  · rw [error_bind] at h
    exact Or.inl (congrArg Except.error (Except.error.inj h))
  · exact Or.inr ⟨b, rfl, h⟩

/-- The loop keeps the entry, and does not exit. -/
theorem nodesLoop_keeps {alloc : ℕ → Bool} {children : List NodeElem} {s : Loading}
    (hnull : HasNull s.nodes) : nodesLoop fuel cnt alloc children s ≠ .error .exit ∧
      ∀ s', nodesLoop fuel cnt alloc children s = .ok s' → HasNull s'.nodes := by
  induction children generalizing s with
  | nil =>
    refine ⟨by rintro ⟨⟩, fun s' hs' => ?_⟩
    obtain rfl := Except.ok.inj hs'
    exact hnull
  | cons node rest ih =>
    rw [nodesLoop]
    split_ifs
    · exact ⟨by rintro ⟨⟩, by rintro s' ⟨⟩⟩
    · constructor
      · intro h
        rcases bind_eq_error h with h | ⟨new, -, h⟩
        · exact inMemory_eq_error h rfl
        rcases bind_eq_error h with h | ⟨⟨ret, nodes'⟩, hins, h⟩
        · exact inMemory_eq_error h rfl
        obtain ⟨hret, hnull'⟩ := insertNode_ok hnull (inMemory_eq_ok.mp hins)
        dsimp only at h
        rw [if_neg (Int.not_lt.mpr hret)] at h
        exact (ih hnull').1 h
      · intro s' h
        obtain ⟨new, -, h⟩ := bind_eq_ok.mp h
        obtain ⟨⟨ret, nodes'⟩, hins, h⟩ := bind_eq_ok.mp h
        obtain ⟨hret, hnull'⟩ := insertNode_ok hnull (inMemory_eq_ok.mp hins)
        dsimp only at h
        rw [if_neg (Int.not_lt.mpr hret)] at h
        exact (ih hnull').2 s' h

/-- `load_proxy_nodes` does not exit, and the heap it leaves has the entry. -/
theorem loadProxyNodes_keeps (fuel : ℕ) (calloc : Bool) (alloc : ℕ → Bool)
    (children : List NodeElem) : loadProxyNodes fuel calloc alloc children ≠ .error .exit ∧
      ∀ s, loadProxyNodes fuel calloc alloc children = .ok s → HasNull s.nodes := by
  constructor
  · intro h
    rcases bind_eq_error h with h | ⟨⟨ret, nodes⟩, hinit, h⟩
    · exact inMemory_eq_error h rfl
    obtain ⟨hret, hnull⟩ := initNodes_ok (inMemory_eq_ok.mp hinit)
    dsimp only at h
    rw [if_neg (Int.not_lt.mpr hret)] at h
    exact (nodesLoop_keeps hnull).1 h
  · intro s h
    obtain ⟨⟨ret, nodes⟩, hinit, h⟩ := bind_eq_ok.mp h
    obtain ⟨hret, hnull⟩ := initNodes_ok (inMemory_eq_ok.mp hinit)
    dsimp only at h
    rw [if_neg (Int.not_lt.mpr hret)] at h
    exact (nodesLoop_keeps hnull).2 s h

end Loop

/-- The entries of a heap that is loaded right are nodes. -/
theorem data_ne_null {built : List ProxyNode} {e : HeapT HeapData}
    (he : e ∈ built.mapIdx fun i new => { key := new.weight, data := HeapData.node i }) :
    e.data ≠ .null := by
  obtain ⟨i, hi, rfl⟩ := List.mem_mapIdx.mp he
  rintro ⟨⟩

/-- **The backends are not loaded.** No call of `load_proxy_nodes` is right: it never exits, and
if it terminates, the heap still has the entry for `NULL`. -/
theorem not_loadsRight (calloc : Bool) (alloc : ℕ → Bool) (children : List NodeElem) :
    ¬LoadsRight calloc alloc children := by
  rintro ⟨fuel, hexit | ⟨s, h, hs, hsome, -, -, -, hentries⟩⟩
  · exact (loadProxyNodes_keeps fuel calloc alloc children).1 hexit
  · obtain ⟨e, he, hdata⟩ := (loadProxyNodes_keeps fuel calloc alloc children).2 s hs h hsome
    rw [hentries, Multiset.mem_coe] at he
    exact data_ne_null he hdata

/-- One child, `<node weight="3">10.0.0.1:80</node>`. -/
def oneChild : List NodeElem := [{ weight := ascii "3", text := ascii "10.0.0.1:80" }]

theorem not_forall_loadsRight : ¬∀ (calloc : Bool) (alloc : ℕ → Bool) (children : List NodeElem),
    children ≠ [] → LoadsRight calloc alloc children := by
  intro hall
  obtain ⟨fuel, hexit | ⟨s, h, hs, hsome, -, -, -, hentries⟩⟩ :=
    hall true (fun _ => true) oneChild (by decide)
  · exact (loadProxyNodes_keeps _ _ _ _).1 hexit
  · obtain ⟨e, he, hdata⟩ := (loadProxyNodes_keeps _ _ _ _).2 s hs h hsome
    rw [hentries, Multiset.mem_coe] at he
    exact data_ne_null he hdata

end Lidas.Config
