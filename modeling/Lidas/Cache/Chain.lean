import Lidas.Lib.CString
import Lidas.Memory.Cache
import Mathlib.Data.UInt

/-!
# The chain of cells for a file

`file_cache_to_client` takes cells from the cache of shared memory and links them, the first bytes
of a cell being a `struct cache_chain_t`. The macro for the bytes behind it has no parentheses, so
that the number of cells comes out 23 less than the quotient of the size by a whole cell: without
a cell more than that there are always too few bytes, and where the number is not positive the loop
goes on until there are no cells left.
-/

namespace Lidas

namespace Cache

/-- `sizeof (struct cache_chain_t)`: `prev` at 0, `next` at 8 and `addr` at 16. -/
def sizeofCacheChain : ℕ := 24

/-- `CACHE_BUFSIZ` where nothing stands around it. -/
def cacheBufsiz : ℕ := 32768 - sizeofCacheChain

/-- `int num = size/CACHE_BUFSIZ + 1`, as the macro expands. -/
def cellNum (size : UInt64) : ℤ := ((size / 32768 - 24 + 1).toBitVec.setWidth 32).toInt

/-- The assignments that link a cell behind another one. -/
def linkCell (prev tmp : ℕ) (m : Mem) : Mem :=
  let m := m.store64 (prev + 8) tmp
  let m := m.store64 tmp prev
  m.store64 (tmp + 16) (tmp + sizeofCacheChain)

/-- The `while (--num)` loop of `file_cache_to_client`, of no more than the given number of rounds;
`false` if a cell was missing. Decrementing the least `int` is undefined: here `num` goes on. -/
def preAlloc (self : ℕ) : ℕ → ℤ → ℕ → CacheState → Except Fault (Bool × CacheState)
  | 0, _, _, _ => .error .diverges
  | fuel + 1, num, prev, s =>
    if num - 1 = 0 then .ok (true, s)
    else
      let (tmp, s) := memCacheAlloc self s
      if tmp = 0 then .ok (false, s)
      else preAlloc self fuel (num - 1) tmp { s with mem := linkCell prev tmp s.mem }

/-- `mem_cache_destroy`, of no more than the given number of calls. -/
def memCacheDestroy (self : ℕ) : ℕ → ℕ → CacheState → Except Fault CacheState
  | 0, _, _ => .error .diverges
  | fuel + 1, head, s => do
    if head = 0 then .error .nullDeref
    let next := nextLink s.mem head
    let s ← if next ≠ 0 then memCacheDestroy self fuel next s else pure s
    return memCacheFree head self s

/-- What `file_cache_to_client` does not set: `tmp` where it is used first, `head` if there is no
cell, and the operand that `(cnt--)?head->addr:` lacks. -/
structure Unset where
  tmp : ℕ
  head : ℕ
  operand : ℕ

/-- What comes of the cells: a chain from its first cell on, no first cell, or not enough cells. -/
inductive Cells where
  | chain (head : ℕ) (s : CacheState)
  | none (s : CacheState)
  | short (s : CacheState)

/-- The cells that `file_cache_to_client` takes. -/
def allocCells (self : ℕ) (u : Unset) (size : UInt64) (s : CacheState) : Except Fault Cells := do
  let fuel := s.head.num
  let (prev, s) := memCacheAlloc self s
  if prev = 0 then return .none s
  let s := { s with mem := s.mem.store64 (prev + 16) (u.tmp + sizeofCacheChain) }
  let (complete, s) ← preAlloc self fuel (cellNum size) prev s
  if complete then return .chain prev s
  else return .short (← memCacheDestroy self fuel prev s)

/-! ### The number of cells -/

/-- There are 23 cells less than whole ones would fill, if there are any. -/
theorem cellNum_le {size : UInt64} (hpos : 0 < cellNum size) :
    cellNum size + 23 ≤ (size.toNat / 32768 : ℕ) := by
  have hlt := size.toNat_lt
  rw [cellNum, BitVec.toInt_eq_toNat_cond] at hpos ⊢
  simp only [BitVec.toNat_setWidth, UInt64.toNat_toBitVec, UInt64.toNat_add, UInt64.toNat_sub,
    UInt64.toNat_div, UInt64.reduceToNat] at hpos ⊢
  split_ifs at hpos ⊢ <;> omega

/-- The cells hold less than the file. -/
theorem cellNum_mul_lt {size : UInt64} (hpos : 0 < cellNum size) :
    cellNum size * cacheBufsiz < size.toNat := by
  have hle := cellNum_le hpos
  have hbufsiz : cacheBufsiz = 32744 := rfl
  rw [hbufsiz]
  omega

/-! ### The chain -/

section Linked

variable {m m' : Mem} {last q c : ℕ} {l l' : List ℕ}

theorem linked_concat : Linked m last q (l ++ [c]) ↔ Linked m c q l ∧ nextLink m c = last := by
  induction l generalizing q with
  | nil =>
    constructor
    · rintro ⟨rfl, h⟩
      exact ⟨rfl, h⟩
    · rintro ⟨rfl, h⟩
      exact ⟨rfl, h⟩
  | cons b l ih => exact (and_congr_right fun _ => ih).trans and_assoc.symm

/-- A chain to `NULL` is determined by its links. -/
theorem Linked.unique (h : Linked m 0 q l) (h' : Linked m 0 q l') (hl : ∀ b ∈ l, b ≠ 0)
    (hl' : ∀ b ∈ l', b ≠ 0) : l = l' := by
  induction l generalizing q l' with
  | nil =>
    cases l' with
    | nil => rfl
    | cons b l' => exact absurd (h'.1.symm.trans h) (hl' b List.mem_cons_self)
  | cons b l ih =>
    cases l' with
    | nil => exact absurd (h.1.symm.trans h') (hl b List.mem_cons_self)
    | cons b' l' =>
      obtain rfl : b = b' := h.1.symm.trans h'.1
      rw [ih h.2 h'.2 (fun c hc => hl c (List.mem_cons_of_mem _ hc)) fun c hc =>
        hl' c (List.mem_cons_of_mem _ hc)]

end Linked

section Growth

variable {L : CacheLayout} {s : CacheClients} {p : BlockPool L.blocks} {m : Mem}
  {head prev tmp b c : ℕ} {init rest : List ℕ}

theorem nextLink_linkCell_prev (hp : L.IsCell prev) (ht : L.IsCell tmp) (hne : prev ≠ tmp)
    (hsize : sizeofCacheChain ≤ L.size) : nextLink (linkCell prev tmp m) prev = tmp := by
  have hdis := hp.disjoint L ht hne
  rw [sizeofCacheChain] at hsize
  rw [nextLink, linkCell, Mem.load64_store64_of_disjoint (by omega),
    Mem.load64_store64_of_disjoint (by omega), Mem.load64_store64 ht.lt]

/-- The link of a cell is not written, unless it is the one behind which the new one is linked. -/
theorem nextLink_linkCell_of_disjoint (hp : c + 16 ≤ prev + 8 ∨ prev + 16 ≤ c + 8)
    (ht : c + 16 ≤ tmp ∨ tmp + 24 ≤ c + 8 ∨ c = tmp) :
    nextLink (linkCell prev tmp m) c = nextLink m c := by
  rw [nextLink, linkCell, Mem.load64_store64_of_disjoint (by omega),
    Mem.load64_store64_of_disjoint (by omega), Mem.load64_store64_of_disjoint (by omega)]
  rfl

theorem nextLink_linkCell_tmp (hp : L.IsCell prev) (ht : L.IsCell tmp) (hne : prev ≠ tmp)
    (hsize : sizeofCacheChain ≤ L.size) :
    nextLink (linkCell prev tmp m) tmp = nextLink m tmp := by
  have hdis := hp.disjoint L ht hne
  rw [sizeofCacheChain] at hsize
  exact nextLink_linkCell_of_disjoint (by omega) (Or.inr (Or.inr rfl))

theorem nextLink_linkCell_of_ne (hp : L.IsCell prev) (ht : L.IsCell tmp) (hc : L.IsCell c)
    (hcp : c ≠ prev) (hct : c ≠ tmp) (hsize : sizeofCacheChain ≤ L.size) :
    nextLink (linkCell prev tmp m) c = nextLink m c := by
  have hdp := hc.disjoint L hp hcp
  have hdt := hc.disjoint L ht hct
  rw [sizeofCacheChain] at hsize
  exact nextLink_linkCell_of_disjoint (by omega) (by omega)

/-- A cell that has just been handed out is linked to none. -/
theorem nextLink_allocMem (h : L.Represents s p) (b : ℕ) (hsize : sizeofCacheChain ≤ L.size) :
    nextLink (CacheLayout.allocMem s L.self b) b = 0 := by
  rw [sizeofCacheChain] at hsize
  refine Mem.load64_eq_zero fun i hi => Mem.memset_of_inside ?_
  rw [h.size]
  omega

/-- A chain of cells that are out, the last of them being `prev`. -/
structure Chain (s : CacheClients) (p : BlockPool L.blocks) (head prev : ℕ) (init : List ℕ) :
    Prop where
  represents : L.Represents s p
  linked : Linked s.st.mem 0 head (init ++ [prev])
  out : ∀ c ∈ init ++ [prev], c ∈ p.out
  nodup : (init ++ [prev]).Nodup

/-- The first cell. -/
theorem Chain.start (h : L.Represents s p) (hfree : p.free = b :: rest) (a : ℕ)
    (hsize : sizeofCacheChain ≤ L.size) :
    Chain ⟨{ mem := (CacheLayout.allocMem s L.self b).store64 (b + 16) a
             head := { size := L.size, num := rest.length, next := nextLink s.st.mem b } },
      insert b s.out⟩ (p.alloc b rest hfree) b b [] := by
  have hb : L.IsCell b := L.isCell_of_mem_blocks (BlockPool.head_mem_blocks hfree)
  rw [sizeofCacheChain] at hsize
  refine ⟨(h.alloc hfree).congr fun c hc => ?_, ⟨rfl, ?_⟩, fun c hc => ?_, List.nodup_singleton b⟩
  · have hcfree := BlockPool.tail_mem_free hfree hc
    have hcb := BlockPool.tail_ne_head hfree hc
    have hdis := (L.isCell_of_mem_blocks (p.mem_blocks_of_free hcfree)).disjoint L hb hcb
    exact Mem.load64_store64_of_disjoint (by omega)
  · exact (Mem.load64_store64_of_disjoint (by omega)).trans (nextLink_allocMem h b hsize)
  · rw [List.mem_singleton.mp hc]
    exact Finset.mem_insert_self b p.out

/-- One more cell. -/
theorem Chain.grow (h : Chain s p head prev init) (hfree : p.free = b :: rest)
    (hsize : sizeofCacheChain ≤ L.size) :
    Chain ⟨{ mem := linkCell prev b (CacheLayout.allocMem s L.self b)
             head := { size := L.size, num := rest.length, next := nextLink s.st.mem b } },
      insert b s.out⟩ (p.alloc b rest hfree) head b (init ++ [prev]) := by
  have hbmem := BlockPool.head_mem_free hfree
  have hb : L.IsCell b := L.isCell_of_mem_blocks (p.mem_blocks_of_free hbmem)
  have hcell (c : ℕ) (hc : c ∈ init ++ [prev]) : L.IsCell c :=
    L.isCell_of_mem_blocks (p.mem_blocks_of_out (h.out c hc))
  have hbnew : b ∉ init ++ [prev] := fun hmem => p.free_disjoint b hbmem (h.out b hmem)
  have hlast : prev ∈ init ++ [prev] := List.mem_append_right _ (List.mem_singleton.mpr rfl)
  have hprev := hcell prev hlast
  have hne : prev ≠ b := ne_of_mem_of_not_mem hlast hbnew
  -- taking a block off the free list leaves the links of the chain alone
  have hlink (c : ℕ) (hc : c ∈ init ++ [prev]) :
      nextLink (CacheLayout.allocMem s L.self b) c = nextLink s.st.mem c := by
    refine Mem.load64_congr fun i hi => ?_
    have hframe := h.represents.alloc_frame (h.represents.out ▸ h.out c hc) (i := 8 + i)
      (by rw [sizeofCacheChain] at hsize; omega)
    rw [h.represents.alloc_cons hfree] at hframe
    rw [Nat.add_assoc]
    exact hframe
  obtain ⟨hinit, -⟩ := linked_concat.mp h.linked
  obtain ⟨-, hdisj, hnodup⟩ := List.nodup_append.mp h.nodup
  refine ⟨(h.represents.alloc hfree).congr fun c hc => ?_, ?_, fun c hc => ?_, ?_⟩
  · -- the free list does not pass through the two cells that are linked
    have hcfree := BlockPool.tail_mem_free hfree hc
    have hcb := BlockPool.tail_ne_head hfree hc
    have hcp : c ≠ prev := fun heq => p.free_disjoint c hcfree (heq ▸ h.out prev hlast)
    exact nextLink_linkCell_of_ne hprev hb (L.isCell_of_mem_blocks (p.mem_blocks_of_free hcfree))
      hcp hcb hsize
  · refine linked_concat.mpr ⟨linked_concat.mpr ⟨hinit.frame fun c hc => ?_, ?_⟩, ?_⟩
    · have hcmem : c ∈ init ++ [prev] := List.mem_append_left _ hc
      have hcp : c ≠ prev := hnodup c hc prev (List.mem_singleton.mpr rfl)
      exact (nextLink_linkCell_of_ne hprev hb (hcell c hcmem) hcp
        (ne_of_mem_of_not_mem hcmem hbnew) hsize).trans (hlink c hcmem)
    · exact nextLink_linkCell_prev hprev hb hne hsize
    · exact (nextLink_linkCell_tmp hprev hb hne hsize).trans
        (nextLink_allocMem h.represents b hsize)
  · rcases List.mem_append.mp hc with hc | hc
    · exact Finset.mem_insert_of_mem (h.out c hc)
    · rw [List.mem_singleton.mp hc]
      exact Finset.mem_insert_self b p.out
  · exact List.nodup_append.mpr ⟨h.nodup, List.nodup_singleton b, fun c hc d hd => by
      rw [List.mem_singleton.mp hd]
      exact ne_of_mem_of_not_mem hc hbnew⟩

/-- The loop goes on until it has the cells that it was asked for. -/
theorem preAlloc_done {self fuel : ℕ} {num : ℤ} {s : CacheState} (hnum : num - 1 = 0) :
    preAlloc self (fuel + 1) num prev s = .ok (true, s) := by
  rw [preAlloc, if_pos hnum]

/-- It stops where there is no cell. -/
theorem preAlloc_nil (h : L.Represents s p) (hfree : p.free = []) {fuel : ℕ} {num : ℤ}
    (hnum : num - 1 ≠ 0) : preAlloc L.self (fuel + 1) num prev s.st = .ok (false, s.st) := by
  rw [preAlloc, if_neg hnum, h.alloc_nil hfree]
  rfl

/-- It links the first free cell. -/
theorem preAlloc_cons (h : L.Represents s p) (hfree : p.free = b :: rest) {fuel : ℕ} {num : ℤ}
    (hnum : num - 1 ≠ 0) : preAlloc L.self (fuel + 1) num prev s.st =
      preAlloc L.self fuel (num - 1) b
        { mem := linkCell prev b (CacheLayout.allocMem s L.self b)
          head := { size := L.size, num := rest.length, next := nextLink s.st.mem b } } := by
  have hb0 : b ≠ 0 := L.ne_null_of_mem_blocks (BlockPool.head_mem_blocks hfree)
  rw [preAlloc, if_neg hnum, h.alloc_cons hfree]
  dsimp only
  rw [if_neg hb0]

/-- The chain of a loop that comes to its end has the cells that were asked for. -/
theorem preAlloc_spec (h : Chain s p head prev init) (hsize : sizeofCacheChain ≤ L.size)
    {fuel : ℕ} {num : ℤ} {s' : CacheState}
    (hrun : preAlloc L.self fuel num prev s.st = .ok (true, s')) :
    ∃ (s₁ : CacheClients) (p' : BlockPool L.blocks) (prev' : ℕ) (init' : List ℕ), s₁.st = s' ∧
      Chain s₁ p' head prev' init' ∧ init.length ≤ init'.length ∧
      (init'.length + 1 : ℤ) = init.length + num := by
  induction fuel generalizing s p prev init num with
  | zero => cases hrun
  | succ fuel ih =>
    by_cases hnum : num - 1 = 0
    · rw [preAlloc_done hnum] at hrun
      obtain ⟨-, rfl⟩ := Prod.mk.inj (Except.ok.inj hrun)
      exact ⟨s, p, prev, init, rfl, h, le_rfl, by omega⟩
    · cases hfree : p.free with
      | nil =>
        rw [preAlloc_nil h.represents hfree hnum] at hrun
        cases hrun
      | cons b rest =>
        rw [preAlloc_cons h.represents hfree hnum] at hrun
        obtain ⟨s₁, p', prev', init', hs, hchain, hle, hlength⟩ := ih (h.grow hfree hsize) hrun
        rw [List.length_append, List.length_singleton] at hle hlength
        exact ⟨s₁, p', prev', init', hs, hchain, by omega, by push_cast at hlength; omega⟩

/-- The chain for a file has the number of cells that is computed from its size. -/
theorem allocCells_chain (h : L.Represents s p) (hsize : sizeofCacheChain ≤ L.size) {u : Unset}
    {size : UInt64} {s' : CacheState}
    (hrun : allocCells L.self u size s.st = .ok (.chain head s')) :
    ∃ cells, Linked s'.mem 0 head cells ∧ (∀ c ∈ cells, c ∈ L.blocks) ∧ 0 < cellNum size ∧
      (cells.length : ℤ) = cellNum size := by
  rw [allocCells] at hrun
  cases hfree : p.free with
  | nil =>
    rw [h.alloc_nil hfree] at hrun
    cases hrun
  | cons b rest =>
    have hb0 : b ≠ 0 := L.ne_null_of_mem_blocks (BlockPool.head_mem_blocks hfree)
    rw [h.alloc_cons hfree] at hrun
    dsimp only at hrun
    rw [if_neg hb0] at hrun
    obtain ⟨⟨complete, s₂⟩, hpre, hrun⟩ := bind_eq_ok.mp hrun
    cases complete with
    | false =>
      obtain ⟨s₃, -, hrun⟩ := bind_eq_ok.mp hrun
      cases hrun
    | true =>
      cases hrun
      obtain ⟨s₁, p', prev, init, rfl, hchain, -, hlength⟩ :=
        preAlloc_spec (Chain.start h hfree _ hsize) hsize hpre
      rw [List.length_nil, Nat.cast_zero, zero_add] at hlength
      refine ⟨init ++ [prev], hchain.linked, fun c hc => ?_, by omega, ?_⟩
      · exact p'.mem_blocks_of_out (hchain.out c hc)
      · rw [List.length_append, List.length_singleton]
        push_cast
        exact hlength

end Growth

end Cache

end Lidas
