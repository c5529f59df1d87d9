import Lidas.Lib.BlockPool
import Lidas.Lib.ByteMem
import Lidas.Lib.Runs

/-!
# The fixed-block cache of `memory.c`

`mem_cache_locate` threads a free list through the blocks themselves: a free block starts
with a `struct mem_cache` (`prev` at offset 0, `next` at offset 8) and the head keeps the
first free block and their number. `mem_cache_alloc` pops, clearing the block and writing
the `prev` link of its successor, `mem_cache_free` pushes. Pointers are addresses, `0` is
`NULL`, and the memory is byte addressed, so what the clients write into the blocks they
hold and what the allocator writes into the links live in the same cells.

The allocator is shown to refine a `BlockPool` (`Represents`): in every state reached from
`mem_cache_locate` the links of the free blocks spell the free list of a pool whose
outstanding set is the clients' one. Nothing is assumed about the bytes of a block that is
out, nor about the `prev` links, which are stale after a few operations and never read.
-/

namespace Lidas

open Runs

/-! ### The embedding -/

/-- `struct mem_cache_head`. -/
structure MemCacheHead where
  size : ℕ
  num : ℕ
  next : ℕ

/-- `sizeof (struct mem_cache)`: two pointers. -/
def sizeofMemCache : ℕ := 16

/-- The memory the blocks live in, together with the head of the cache. -/
structure CacheState where
  mem : Mem
  head : MemCacheHead

/-- The `next` link of the block at `b`. -/
def nextLink (m : Mem) (b : ℕ) : ℕ := m.load64 (b + 8)

/-- `memcpy (b, &t, sizeof (struct mem_cache))` for `t = {prev, next}`. -/
def writeLinks (m : Mem) (b prev next : ℕ) : Mem := (m.store64 b prev).store64 (b + 8) next

/-- The `while (num--)` loop of `mem_cache_locate`. -/
def locateLoop (size : ℕ) : ℕ → ℕ → Mem → Mem
  | 0, _, m => m
  | num + 1, p, m =>
    let m' := writeLinks m p (p - size) (p + size)
    locateLoop size num (nextLink m' p) m'

/-- `mem_cache_locate`. -/
def memCacheLocate (s : CacheState) (addr size : ℕ) : CacheState :=
  let m := writeLinks s.mem addr 0 (addr + size)
  { mem := locateLoop size s.head.num (nextLink m addr) m
    head := { s.head with next := addr } }

/-- `mem_cache_alloc` on the cache whose head is at address `p`: the block handed out (`0`
for `NULL`) and the new state. -/
def memCacheAlloc (p : ℕ) (s : CacheState) : ℕ × CacheState :=
  if p = 0 then (0, s)
  else if s.head.num = 0 then (0, s)
  else
    let a := s.head.next
    let m := s.mem.store64 (nextLink s.mem a) p
    (a, { mem := m.memset a 0 s.head.size
          head := { s.head with next := nextLink s.mem a, num := s.head.num - 1 } })

/-- `mem_cache_free (g, p)`. -/
def memCacheFree (g p : ℕ) (s : CacheState) : CacheState :=
  { mem := writeLinks s.mem g p s.head.next
    head := { s.head with next := g, num := s.head.num + 1 } }

/-! ### The cells -/

/-- Where a cache lives: its head at `self`, and from `addr` on the `n + 1` cells of `size`
bytes that `mem_cache_locate` links. -/
structure CacheLayout where
  self : ℕ
  addr : ℕ
  size : ℕ
  n : ℕ
  self_ne_null : self ≠ 0
  addr_ne_null : addr ≠ 0
  sizeof_le_size : sizeofMemCache ≤ size
  in_memory : addr + (n + 1) * size < 2 ^ 64

namespace CacheLayout

variable (L : CacheLayout)

/-- The address of the `i`-th cell. -/
def cell (i : ℕ) : ℕ := L.addr + i * L.size

/-- The blocks in address order; the last cell `cell n` is linked but is not one of them. -/
def cells : List ℕ := (List.range L.n).map L.cell

/-- The set of the `n` blocks. -/
def blocks : Finset ℕ := L.cells.toFinset

theorem size_pos : 16 ≤ L.size := L.sizeof_le_size

@[simp] theorem cell_succ (i : ℕ) : L.cell (i + 1) = L.cell i + L.size := by
  simp only [cell]
  ring

/-- Distinct cells do not overlap. -/
theorem cell_add_size_le {i j : ℕ} (h : i < j) : L.cell i + L.size ≤ L.cell j := by
  have hmul : (i + 1) * L.size ≤ j * L.size := Nat.mul_le_mul_right _ h
  have hsucc : (i + 1) * L.size = i * L.size + L.size := Nat.succ_mul i L.size
  simp only [cell]
  omega

/-- The cells are in memory, the one behind the blocks included. -/
theorem cell_lt {i : ℕ} (h : i ≤ L.n + 1) : L.cell i < 2 ^ 64 := by
  have hmul : i * L.size ≤ (L.n + 1) * L.size := Nat.mul_le_mul_right _ h
  have := L.in_memory
  simp only [cell]
  omega

/-- Different cells have different addresses. -/
theorem cell_injective : Function.Injective L.cell := by
  intro i j h
  have hs := L.size_pos
  rcases Nat.lt_trichotomy i j with hij | hij | hij
  · have := L.cell_add_size_le hij
    omega
  · exact hij
  · have := L.cell_add_size_le hij
    omega

theorem cell_ne_null (i : ℕ) : L.cell i ≠ 0 := by
  have := L.addr_ne_null
  simp only [cell]
  omega

/-- The blocks are all cells but the last. -/
theorem mem_blocks {b : ℕ} : b ∈ L.blocks ↔ ∃ i < L.n, L.cell i = b := by
  simp [blocks, cells]

theorem ne_null_of_mem_blocks {b : ℕ} (h : b ∈ L.blocks) : b ≠ 0 := by
  obtain ⟨i, -, rfl⟩ := L.mem_blocks.mp h
  exact L.cell_ne_null i

theorem cells_nodup : L.cells.Nodup :=
  (List.nodup_range (n := L.n)).map L.cell_injective

theorem card_blocks : L.blocks.card = L.n := by
  rw [blocks, List.toFinset_card_of_nodup L.cells_nodup, cells, List.length_map, List.length_range]

/-- A link target: a block or the extra cell that ends the chain. -/
def IsCell (b : ℕ) : Prop := ∃ i ≤ L.n, L.cell i = b

theorem isCell_of_mem_blocks {b : ℕ} (h : b ∈ L.blocks) : L.IsCell b := by
  obtain ⟨i, hi, rfl⟩ := L.mem_blocks.mp h
  exact ⟨i, by omega, rfl⟩

theorem IsCell.lt {b : ℕ} (h : L.IsCell b) : b < 2 ^ 64 := by
  obtain ⟨i, hi, rfl⟩ := h
  exact L.cell_lt (by omega)

/-- Two different cells are disjoint intervals. -/
theorem IsCell.disjoint {b c : ℕ} (hb : L.IsCell b) (hc : L.IsCell c) (hne : b ≠ c) :
    b + L.size ≤ c ∨ c + L.size ≤ b := by
  obtain ⟨i, -, rfl⟩ := hb
  obtain ⟨j, -, rfl⟩ := hc
  rcases Nat.lt_trichotomy i j with hij | rfl | hij
  · exact Or.inl (L.cell_add_size_le hij)
  · exact absurd rfl hne
  · exact Or.inr (L.cell_add_size_le hij)

/-- The cell behind the blocks is none of them. -/
theorem extra_not_mem_blocks : L.cell L.n ∉ L.blocks := by
  intro h
  obtain ⟨i, hi, heq⟩ := L.mem_blocks.mp h
  exact absurd (L.cell_injective heq) (by omega)

end CacheLayout

/-! ### The chain of free blocks -/

/-- The links from `q` on visit exactly the listed blocks and then reach `last`. -/
def Linked (m : Mem) (last : ℕ) : ℕ → List ℕ → Prop
  | q, [] => q = last
  | q, b :: bs => q = b ∧ Linked m last (nextLink m b) bs

/-- The first `k` blocks met when following the links from `q`. -/
def chainFrom (m : Mem) : ℕ → ℕ → List ℕ
  | 0, _ => []
  | k + 1, q => q :: chainFrom m k (nextLink m q)

/-- Following the links of a chain visits it. -/
theorem Linked.chainFrom {m : Mem} {last q : ℕ} {l : List ℕ} (h : Linked m last q l) :
    chainFrom m l.length q = l := by
  induction l generalizing q with
  | nil => rfl
  | cons b bs ih =>
    obtain ⟨rfl, h⟩ := h
    rw [List.length_cons, Lidas.chainFrom, ih h]

/-- A chain survives any change that leaves the links of its blocks alone. -/
theorem Linked.frame {m m' : Mem} {last q : ℕ} {l : List ℕ} (h : Linked m last q l)
    (hm : ∀ b ∈ l, nextLink m' b = nextLink m b) : Linked m' last q l := by
  induction l generalizing q with
  | nil => exact h
  | cons b bs ih =>
    obtain ⟨rfl, h⟩ := h
    refine ⟨rfl, ?_⟩
    rw [hm q (by simp)]
    exact ih h fun c hc => hm c (by simp [hc])

/-- The block a link leads to is the next block of the list, or the end of the chain. -/
theorem Linked.head_mem {m : Mem} {last q : ℕ} {l : List ℕ} (h : Linked m last q l) :
    q ∈ l ∨ q = last := by
  cases l with
  | nil => exact Or.inr h
  | cons b bs => exact Or.inl (by rw [h.1]; exact List.mem_cons_self)

/-- The link written is the link read. -/
theorem nextLink_writeLinks {m : Mem} {b prev next : ℕ} (h : next < 2 ^ 64) :
    nextLink (writeLinks m b prev next) b = next :=
  Mem.load64_store64 h

/-- Writing the links of one block leaves the bytes outside its first sixteen alone. -/
theorem writeLinks_of_outside {m : Mem} {b prev next x : ℕ} (h : x < b ∨ b + 16 ≤ x) :
    writeLinks m b prev next x = m x := by
  rw [writeLinks, Mem.store64_of_outside (by omega), Mem.store64_of_outside (by omega)]

/-- The links of a block do not touch those of another one. -/
theorem nextLink_writeLinks_of_disjoint {m : Mem} {b c prev next : ℕ}
    (h : b + 16 ≤ c ∨ c + 16 ≤ b) :
    nextLink (writeLinks m b prev next) c = nextLink m c :=
  Mem.load64_congr fun _ hi => writeLinks_of_outside (by omega)

section Locate

variable (L : CacheLayout)

/-- What the linking loop does from the `i`-th cell on: the cells it passes are linked to
their successors, the links of the earlier cells are unchanged. -/
theorem locateLoop_spec (k i : ℕ) (m : Mem) (hik : i + k ≤ L.n + 1) :
    (∀ j, i ≤ j → j < i + k → nextLink (locateLoop L.size k (L.cell i) m) (L.cell j) =
      L.cell (j + 1)) ∧
    ∀ j < i, nextLink (locateLoop L.size k (L.cell i) m) (L.cell j) = nextLink m (L.cell j) := by
  have hs := L.size_pos
  induction k generalizing i m with
  | zero => exact ⟨fun j h1 h2 => absurd h2 (by omega), fun j _ => rfl⟩
  | succ k ih =>
    set m' := writeLinks m (L.cell i) (L.cell i - L.size) (L.cell i + L.size) with hm'
    have hnext : nextLink m' (L.cell i) = L.cell (i + 1) := by
      rw [hm', ← L.cell_succ]
      exact nextLink_writeLinks (L.cell_lt (by omega))
    have hloop : locateLoop L.size (k + 1) (L.cell i) m =
        locateLoop L.size k (L.cell (i + 1)) m' := by
      rw [locateLoop, ← hm', hnext]
    obtain ⟨hpassed, hearlier⟩ := ih (i + 1) m' (by omega)
    rw [hloop]
    constructor
    · intro j h1 h2
      rcases Nat.eq_or_lt_of_le h1 with rfl | h1
      · rw [hearlier i (by omega), hnext]
      · exact hpassed j (by omega) (by omega)
    · intro j hj
      rw [hearlier j (by omega), hm']
      refine nextLink_writeLinks_of_disjoint (Or.inr ?_)
      have := L.cell_add_size_le hj
      omega

/-- The linked cells, read off their links. -/
theorem linked_range (m : Mem) (k i : ℕ)
    (h : ∀ j, i ≤ j → j < i + k → nextLink m (L.cell j) = L.cell (j + 1)) :
    Linked m (L.cell (i + k)) (L.cell i) ((List.range' i k).map L.cell) := by
  induction k generalizing i with
  | zero => rfl
  | succ k ih =>
    rw [List.range'_succ, List.map_cons]
    refine ⟨rfl, ?_⟩
    rw [h i (by omega) (by omega), show i + (k + 1) = i + 1 + k by omega]
    exact ih (i + 1) fun j h1 h2 => h j (by omega) (by omega)

/-- `mem_cache_locate` links all the cells, in address order. -/
theorem memCacheLocate_linked (s : CacheState) (hn : s.head.num = L.n) :
    Linked (memCacheLocate s L.addr L.size).mem (L.cell L.n) L.addr L.cells := by
  have hs := L.size_pos
  have hc0 : L.addr = L.cell 0 := by simp [CacheLayout.cell]
  set m := writeLinks s.mem L.addr 0 (L.addr + L.size) with hm
  have hfirst : nextLink m (L.cell 0) = L.cell 1 := by
    rw [hm, ← hc0, nextLink_writeLinks]
    · rw [L.cell_succ 0, ← hc0]
    · rw [hc0, ← L.cell_succ]
      exact L.cell_lt (by omega)
  have hmem : (memCacheLocate s L.addr L.size).mem = locateLoop L.size L.n (L.cell 1) m := by
    rw [memCacheLocate, hn, ← hm, hc0, hfirst]
  obtain ⟨hpassed, hearlier⟩ := locateLoop_spec L L.n 1 m (by omega)
  rw [hmem, hc0, CacheLayout.cells, List.range_eq_range',
    show L.cell L.n = L.cell (0 + L.n) by rw [Nat.zero_add]]
  refine linked_range L _ L.n 0 fun j _ hj => ?_
  rcases Nat.eq_zero_or_pos j with rfl | hpos
  · rw [hearlier 0 (by omega), hfirst]
  · exact hpassed j hpos (by omega)

end Locate

/-! ### The clients -/

/-- What happens to a cache: its three operations, the third one being any store of a client
into a block it holds. -/
inductive CacheOp where
  | alloc
  | free (g : ℕ)
  | write (b off : ℕ) (v : UInt8)

/-- A cache with the blocks its clients currently hold. -/
structure CacheClients where
  st : CacheState
  out : Finset ℕ

namespace CacheLayout

variable (L : CacheLayout)

/-- The cache as `mem_cache_creat` and `mem_cache_locate` leave it, over any memory. -/
def init (m : Mem) : CacheClients where
  st := memCacheLocate { mem := m, head := { size := L.size, num := L.n, next := 0 } }
    L.addr L.size
  out := ∅

/-- One operation. Only a block that is out is freed or written to. -/
def step (s : CacheClients) : CacheOp → Option CacheClients
  | .alloc =>
    let r := memCacheAlloc L.self s.st
    some { st := r.2, out := if r.1 = 0 then s.out else insert r.1 s.out }
  | .free g =>
    if g ∈ s.out then some { st := memCacheFree g L.self s.st, out := s.out.erase g } else none
  | .write b off v =>
    if b ∈ s.out ∧ off < s.st.head.size then
      some { s with st := { s.st with mem := Function.update s.st.mem (b + off) v } }
    else none

/-! ### The refinement -/

/-- The links of the cache spell the free list of the pool, and the clients hold its
outstanding blocks. -/
structure Represents (s : CacheClients) (p : BlockPool L.blocks) : Prop where
  size : s.st.head.size = L.size
  num : s.st.head.num = p.free.length
  out : s.out = p.out
  linked : Linked s.st.mem (L.cell L.n) s.st.head.next p.free

/-- `mem_cache_creat` makes a cache of which all blocks are free. -/
theorem represents_init (m : Mem) :
    L.Represents (L.init m) (BlockPool.full L.cells L.cells_nodup) where
  size := rfl
  num := by simp [init, memCacheLocate, BlockPool.full, cells]
  out := rfl
  linked := memCacheLocate_linked L _ rfl

variable {L} {s : CacheClients} {p : BlockPool L.blocks}

/-- The successor of the first free block is a cell other than that block, and is not out. -/
theorem Represents.nextLink_head (h : L.Represents s p) {b : ℕ} {rest : List ℕ}
    (hfree : p.free = b :: rest) :
    L.IsCell (nextLink s.st.mem b) ∧ nextLink s.st.mem b ∉ p.out ∧
      nextLink s.st.mem b ≠ b := by
  have hlink : Linked s.st.mem (L.cell L.n) (nextLink s.st.mem b) rest :=
    (hfree ▸ h.linked).2
  rcases hlink.head_mem with hmem | hlast
  · have hfreemem := BlockPool.tail_mem_free hfree hmem
    exact ⟨L.isCell_of_mem_blocks (p.mem_blocks_of_free hfreemem), p.free_disjoint _ hfreemem,
      BlockPool.tail_ne_head hfree hmem⟩
  · rw [hlast]
    have hb : b ∈ L.blocks := BlockPool.head_mem_blocks hfree
    exact ⟨⟨L.n, Nat.le_refl _, rfl⟩,
      fun ho => L.extra_not_mem_blocks (p.mem_blocks_of_out ho),
      fun heq => L.extra_not_mem_blocks (heq ▸ hb)⟩

/-- An exhausted cache hands out nothing. -/
theorem Represents.alloc_nil (h : L.Represents s p) (hfree : p.free = []) :
    memCacheAlloc L.self s.st = (0, s.st) := by
  have hnum : s.st.head.num = 0 := by simp [h.num, hfree]
  rw [memCacheAlloc, if_neg L.self_ne_null, if_pos hnum]

/-- The memory after an allocation: the successor's `prev` link is set, the block cleared. -/
def allocMem (s : CacheClients) (self b : ℕ) : Mem :=
  (s.st.mem.store64 (nextLink s.st.mem b) self).memset b 0 s.st.head.size

/-- A cache that is not exhausted hands out the first free block. -/
theorem Represents.alloc_cons (h : L.Represents s p) {b : ℕ} {rest : List ℕ}
    (hfree : p.free = b :: rest) :
    memCacheAlloc L.self s.st =
      (b, { mem := allocMem s L.self b
            head := { size := L.size, num := rest.length, next := nextLink s.st.mem b } }) := by
  have hnum : s.st.head.num = rest.length + 1 := by simp [h.num, hfree]
  have hnext : s.st.head.next = b := (hfree ▸ h.linked).1
  rw [memCacheAlloc, if_neg L.self_ne_null, if_neg (by omega)]
  simp only [hnext, hnum, Nat.add_sub_cancel, h.size, allocMem]

/-- An allocation only writes into the block it hands out and into one further cell, which
is not out. -/
theorem Represents.allocMem_of_outside (h : L.Represents s p) {b : ℕ} {rest : List ℕ}
    (hfree : p.free = b :: rest) {c : ℕ} (hc : L.IsCell c) (hcb : c ≠ b) {i : ℕ}
    (hi : i < L.size) (hnext : c ≠ nextLink s.st.mem b ∨ 8 ≤ i) :
    allocMem s L.self b (c + i) = s.st.mem (c + i) := by
  have hb : L.IsCell b := L.isCell_of_mem_blocks (BlockPool.head_mem_blocks hfree)
  obtain ⟨hcell, -, -⟩ := h.nextLink_head hfree
  have hdis := hc.disjoint L hb hcb
  have hs := L.size_pos
  rw [allocMem, Mem.memset_of_outside (by rw [h.size]; omega)]
  refine Mem.store64_of_outside ?_
  rcases eq_or_ne c (nextLink s.st.mem b) with heq | hne
  · rcases hnext with hne | h8
    · exact absurd heq hne
    · omega
  · have := hc.disjoint L hcell hne
    omega

/-- After an allocation the cache represents the pool without the block. -/
theorem Represents.alloc (h : L.Represents s p) {b : ℕ} {rest : List ℕ}
    (hfree : p.free = b :: rest) :
    L.Represents ⟨{ mem := allocMem s L.self b
                    head := { size := L.size, num := rest.length, next := nextLink s.st.mem b } },
      insert b s.out⟩ (p.alloc b rest hfree) := by
  have hlink : Linked s.st.mem (L.cell L.n) (nextLink s.st.mem b) rest := (hfree ▸ h.linked).2
  refine ⟨rfl, rfl, by simp [BlockPool.alloc, h.out], ?_⟩
  refine hlink.frame fun c hc => Mem.load64_congr fun i hi => ?_
  have hcfree := BlockPool.tail_mem_free hfree hc
  have hs := L.size_pos
  rw [Nat.add_assoc]
  exact h.allocMem_of_outside hfree (L.isCell_of_mem_blocks (p.mem_blocks_of_free hcfree))
    (BlockPool.tail_ne_head hfree hc) (by omega) (Or.inr (by omega))

/-- The cache represents the same pool if the links of its free blocks do not change. -/
theorem Represents.congr (h : L.Represents s p) {m : Mem}
    (hm : ∀ c ∈ p.free, nextLink m c = nextLink s.st.mem c) :
    L.Represents { s with st := { s.st with mem := m } } p :=
  ⟨h.size, h.num, h.out, h.linked.frame hm⟩

/-- Giving back a block changes no byte of another cell. -/
theorem memCacheFree_of_outside {g c : ℕ} (hg : L.IsCell g) (hc : L.IsCell c) (hne : c ≠ g)
    {i : ℕ} (hi : i < L.size) :
    (memCacheFree g L.self s.st).mem (c + i) = s.st.mem (c + i) := by
  have hdis := hc.disjoint L hg hne
  have hs := L.size_pos
  exact writeLinks_of_outside (by omega)

/-- A client's store into a block it holds leaves the links of the free blocks alone. -/
theorem nextLink_update {b c off : ℕ} {v : UInt8} (hb : L.IsCell b) (hc : L.IsCell c)
    (hne : c ≠ b) (hoff : off < L.size) :
    nextLink (Function.update s.st.mem (b + off) v) c = nextLink s.st.mem c := by
  have hdis := hc.disjoint L hb hne
  have hs := L.size_pos
  refine Mem.load64_congr fun i hi => Function.update_of_ne ?_ _ _
  omega

/-- The first link of a represented cache is a cell, so it fits in a pointer. -/
theorem Represents.head_lt (h : L.Represents s p) : s.st.head.next < 2 ^ 64 := by
  rcases h.linked.head_mem with hmem | hlast
  · exact (L.isCell_of_mem_blocks (p.mem_blocks_of_free hmem)).lt
  · rw [hlast]
    exact L.cell_lt (by omega)

/-- After the release of a block the cache represents the pool with it. -/
theorem Represents.free (h : L.Represents s p) {g : ℕ} (hg : g ∈ p.out) :
    L.Represents ⟨memCacheFree g L.self s.st, s.out.erase g⟩ (p.release g hg) := by
  have hgc : L.IsCell g := L.isCell_of_mem_blocks (p.mem_blocks_of_out hg)
  refine ⟨h.size, by simp [memCacheFree, BlockPool.release, h.num],
    by simp [BlockPool.release, h.out], rfl, ?_⟩
  have hnext : nextLink (memCacheFree g L.self s.st).mem g = s.st.head.next :=
    nextLink_writeLinks h.head_lt
  rw [hnext]
  refine h.linked.frame fun c hc => Mem.load64_congr fun i hi => ?_
  have hcg : c ≠ g := fun heq => p.free_disjoint c hc (heq ▸ hg)
  have hs := L.size_pos
  rw [Nat.add_assoc]
  exact memCacheFree_of_outside hgc (L.isCell_of_mem_blocks (p.mem_blocks_of_free hc)) hcg
    (by omega)

/-- **Refinement.** Every operation on a represented cache leads to a represented cache. -/
theorem Represents.step (h : L.Represents s p) {op : CacheOp} {s' : CacheClients}
    (hstep : L.step s op = some s') : ∃ p' : BlockPool L.blocks, L.Represents s' p' := by
  cases op with
  | alloc =>
    cases hfree : p.free with
    | nil =>
      obtain rfl : s = s' := by
        simpa [CacheLayout.step, h.alloc_nil hfree] using hstep
      exact ⟨p, h⟩
    | cons b rest =>
      have hb : b ∈ L.blocks := BlockPool.head_mem_blocks hfree
      simp only [CacheLayout.step, h.alloc_cons hfree, if_neg (L.ne_null_of_mem_blocks hb),
        Option.some.injEq] at hstep
      subst hstep
      exact ⟨p.alloc b rest hfree, h.alloc hfree⟩
  | free g =>
    by_cases hg : g ∈ s.out
    · simp only [CacheLayout.step, if_pos hg, Option.some.injEq] at hstep
      subst hstep
      exact ⟨_, h.free (h.out ▸ hg)⟩
    · simp [CacheLayout.step, hg] at hstep
  | write b off v =>
    by_cases hb : b ∈ s.out ∧ off < s.st.head.size
    · have hbp : b ∈ p.out := h.out ▸ hb.1
      have hbc : L.IsCell b := L.isCell_of_mem_blocks (p.mem_blocks_of_out hbp)
      simp only [CacheLayout.step, if_pos hb, Option.some.injEq] at hstep
      subst hstep
      refine ⟨p, h.congr fun c hc => ?_⟩
      have hcb : c ≠ b := fun heq => p.free_disjoint c hc (heq ▸ hbp)
      exact nextLink_update hbc (L.isCell_of_mem_blocks (p.mem_blocks_of_free hc)) hcb
        (h.size ▸ hb.2)
    · simp [CacheLayout.step, hb] at hstep

/-! ### The allocator invariant -/

variable (L) in
/-- What a client may rely on in a state of the cache. -/
structure Sound (s : CacheClients) : Prop where
  /-- The chain from `head->next` visits `head->num` distinct blocks, none of them out. -/
  chain_nodup : (chainFrom s.st.mem s.st.head.num s.st.head.next).Nodup
  chain_free : ∀ b ∈ chainFrom s.st.mem s.st.head.num s.st.head.next, b ∈ L.blocks ∧ b ∉ s.out
  /-- Free and outstanding blocks add up. -/
  count : s.st.head.num + s.out.card = L.n
  /-- An allocation fails exactly when every block is out. -/
  alloc_eq_null_iff : (memCacheAlloc L.self s.st).1 = 0 ↔ s.out.card = L.n
  /-- A successful one hands out a cleared block that nobody holds. -/
  alloc_fresh : (memCacheAlloc L.self s.st).1 ≠ 0 →
    (memCacheAlloc L.self s.st).1 ∈ L.blocks ∧ (memCacheAlloc L.self s.st).1 ∉ s.out ∧
      ∀ i < L.size, (memCacheAlloc L.self s.st).2.mem ((memCacheAlloc L.self s.st).1 + i) = 0
  /-- Neither operation touches an outstanding block other than the one it is given. -/
  alloc_frame : ∀ c ∈ s.out, ∀ i < L.size,
    (memCacheAlloc L.self s.st).2.mem (c + i) = s.st.mem (c + i)
  free_frame : ∀ g ∈ s.out, ∀ c ∈ s.out, c ≠ g → ∀ i < L.size,
    (memCacheFree g L.self s.st).mem (c + i) = s.st.mem (c + i)

/-- The outstanding blocks of a represented cache are cells. -/
theorem Represents.isCell_of_out (h : L.Represents s p) {c : ℕ} (hc : c ∈ s.out) :
    L.IsCell c :=
  L.isCell_of_mem_blocks (p.mem_blocks_of_out (h.out ▸ hc))

/-- An allocation changes no byte of an outstanding block. -/
theorem Represents.alloc_frame (h : L.Represents s p) {c : ℕ} (hc : c ∈ s.out) {i : ℕ}
    (hi : i < L.size) : (memCacheAlloc L.self s.st).2.mem (c + i) = s.st.mem (c + i) := by
  cases hfree : p.free with
  | nil => rw [h.alloc_nil hfree]
  | cons b rest =>
    have hcp : c ∈ p.out := h.out ▸ hc
    have hcb : c ≠ b := fun heq =>
      p.free_disjoint b (BlockPool.head_mem_free hfree) (heq ▸ hcp)
    have hcn : c ≠ nextLink s.st.mem b := fun heq => (h.nextLink_head hfree).2.1 (heq ▸ hcp)
    rw [h.alloc_cons hfree]
    exact h.allocMem_of_outside hfree (h.isCell_of_out hc) hcb hi (Or.inl hcn)

/-- A cache that represents a pool is sound. -/
theorem Represents.sound (h : L.Represents s p) : L.Sound s := by
  have hchain : chainFrom s.st.mem s.st.head.num s.st.head.next = p.free := by
    rw [h.num]
    exact h.linked.chainFrom
  have hcard := p.length_free_add_card_out
  rw [L.card_blocks] at hcard
  refine ⟨by rw [hchain]; exact p.free_nodup, fun b hb => ?_, ?_, ?_, ?_,
    fun c hc i hi => h.alloc_frame hc hi, fun g hg c hc hne i hi => ?_⟩
  · rw [hchain] at hb
    exact ⟨p.mem_blocks_of_free hb, h.out ▸ p.free_disjoint b hb⟩
  · rw [h.num, h.out, hcard]
  · cases hfree : p.free with
    | nil =>
      rw [hfree, List.length_nil] at hcard
      rw [h.alloc_nil hfree, h.out]
      exact iff_of_true rfl (by omega)
    | cons b rest =>
      have hb : b ∈ L.blocks := BlockPool.head_mem_blocks hfree
      rw [hfree, List.length_cons] at hcard
      rw [h.alloc_cons hfree, h.out]
      exact iff_of_false (L.ne_null_of_mem_blocks hb) (by omega)
  · intro hne
    cases hfree : p.free with
    | nil => exact absurd (by rw [h.alloc_nil hfree]) hne
    | cons b rest =>
      have hbf := BlockPool.head_mem_free hfree
      rw [h.alloc_cons hfree]
      refine ⟨p.mem_blocks_of_free hbf, h.out ▸ p.free_disjoint b hbf, fun i hi => ?_⟩
      exact Mem.memset_of_inside (by rw [h.size]; omega)
  · exact memCacheFree_of_outside (h.isCell_of_out hg) (h.isCell_of_out hc) hne hi

variable (L) in
/-- **The allocator invariant.** Whatever the sequence of allocations, releases of blocks
that are out and stores of clients into the blocks they hold, the cache is sound in every
state. -/
theorem memCache_sound (m : Mem) (ops : List CacheOp) :
    Holds L.step L.Sound (L.init m) ops := by
  have hrep : Holds L.step (fun s => ∃ p : BlockPool L.blocks, L.Represents s p) (L.init m) ops :=
    holds_of_meets (C := fun _ _ => True) (fun _ _ _ ⟨_, hp⟩ _ hstep => hp.step hstep)
      ⟨_, L.represents_init m⟩ (meets_true _ _)
  exact hrep.mono fun _ ⟨_, hp⟩ => hp.sound

end CacheLayout

end Lidas
