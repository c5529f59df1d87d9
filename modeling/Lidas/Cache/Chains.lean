import Lidas.Cache.Rollback

/-!
# The chains of the cells

Many files at a time: chains of cells are taken as `file_cache_to_client` takes them, given back by
`mem_cache_destroy`, and the bytes behind the links of their cells are written. In every run each
cell is in one chain or free (`CacheLayout.partitioned_run`), and a chain that is kept is not
touched by what happens to the others (`CacheLayout.untouched_run`).

The first cells of the chains are a history of the run: the program does not keep them, as the
record of a file is given `prev` for its chain before `prev` is set. All the cells of a file are
taken in one step; in the source the first of them, and `mem_cache_destroy`, are outside of the
mutex.
-/

namespace Lidas

namespace Cache

/-- The cells, and the first cells of the chains that are kept, a ghost. -/
structure Chains where
  st : CacheState
  heads : List ℕ

/-- What happens to the chains: a file asks for cells, a chain is given back, or a byte is written
into the cell that the links lead to from its first one. -/
inductive ChainOp where
  | take (u : Unset) (size : UInt64)
  | give (fuel head : ℕ)
  | write (head i off : ℕ) (v : UInt8)

/-- The cells that the links lead to, no more than the given number. -/
def walk (m : Mem) : ℕ → ℕ → List ℕ
  | 0, _ => []
  | k + 1, q => if q = 0 then [] else q :: walk m k (nextLink m q)

end Cache

namespace CacheLayout

open Cache

variable (L : CacheLayout)

/-- The cells of a chain. -/
def cellsOf (s : Chains) (head : ℕ) : List ℕ := walk s.st.mem L.n head

/-- The address that is written. -/
def target (s : Chains) : ChainOp → Option ℕ
  | .write head i off _ => ((L.cellsOf s head)[i]?).map (· + off)
  | _ => none

/-- One operation. Only chains that are kept are given back or written to, and no links are
written. -/
def chainStep (s : Chains) : ChainOp → Option Chains
  | .take u size =>
    match allocCells L.self u size s.st with
    | .ok (.chain head st) => some ⟨st, head :: s.heads⟩
    | .ok (.none st) => some ⟨st, s.heads⟩
    | .ok (.short st) => some ⟨st, s.heads⟩
    | .error _ => none
  | .give fuel head =>
    if head ∈ s.heads then
      match memCacheDestroy L.self fuel head s.st with
      | .ok st => some ⟨st, s.heads.erase head⟩
      | .error _ => none
    else none
  | .write head i off v => do
    let c ← (L.cellsOf s head)[i]?
    if head ∈ s.heads ∧ sizeofCacheChain ≤ off ∧ off < L.size then
      return { s with st := { s.st with mem := Function.update s.st.mem (c + off) v } }
    else none

/-- Each cell is in one of the chains, or free. -/
def Partitioned (s : Chains) : Prop :=
  (s.heads.flatMap (L.cellsOf s) ++ freeCells s.st).Perm L.cells

/-- The chains that are kept after the operation have the cells they had, and the bytes in them,
but for the one that is written. -/
def Untouched (s : Chains) (op : ChainOp) : Prop :=
  ∀ s', L.chainStep s op = some s' → ∀ head ∈ s.heads, head ∈ s'.heads →
    L.cellsOf s' head = L.cellsOf s head ∧ ∀ c ∈ L.cellsOf s head, ∀ i < L.size,
      L.target s op ≠ some (c + i) → s'.st.mem (c + i) = s.st.mem (c + i)

/-- The cells are those of a pool, and the ones that are out are those of the chains. -/
structure Keeps (s : Chains) (p : BlockPool L.blocks) : Prop where
  represents : L.Represents ⟨s.st, p.out⟩ p
  ne_null : ∀ head ∈ s.heads, head ≠ 0
  linked : ∀ head ∈ s.heads, Linked s.st.mem 0 head (L.cellsOf s head)
  nodup : (s.heads.flatMap (L.cellsOf s)).Nodup
  out : ∀ c, c ∈ p.out ↔ c ∈ s.heads.flatMap (L.cellsOf s)

end CacheLayout

namespace BlockPool

variable {β : Type*} [DecidableEq β] {blocks : Finset β}

/-- A block is out if it is not free. -/
theorem mem_out_iff (p : BlockPool blocks) (b : β) : b ∈ p.out ↔ b ∈ blocks ∧ b ∉ p.free := by
  refine ⟨fun h => ⟨p.mem_blocks_of_out h, fun hb => p.free_disjoint b hb h⟩, fun ⟨hb, hfree⟩ => ?_⟩
  exact ((p.cover b).mp hb).resolve_left hfree

/-- Distinct blocks are not more than there are. -/
theorem length_le_card {l : List β} (hl : l.Nodup) (hsub : ∀ b ∈ l, b ∈ blocks) :
    l.length ≤ blocks.card := by
  rw [← List.toFinset_card_of_nodup hl]
  exact Finset.card_le_card fun b hb => hsub b (List.mem_toFinset.mp hb)

end BlockPool

namespace Cache

/-! ### What a chain is made of -/

section Walks

variable {m m' : Mem} {q k : ℕ} {l : List ℕ}

/-- The walk of a chain that ends is the chain. -/
theorem walk_eq (h : Linked m 0 q l) (hl : ∀ c ∈ l, c ≠ 0) (hk : l.length ≤ k) :
    walk m k q = l := by
  induction k generalizing q l with
  | zero => exact (List.eq_nil_of_length_eq_zero (Nat.le_zero.mp hk)).symm
  | succ k ih =>
    cases l with
    | nil =>
      obtain rfl : q = 0 := h
      rw [walk, if_pos rfl]
    | cons b l =>
      obtain ⟨rfl, h⟩ := h
      rw [walk, if_neg (hl q List.mem_cons_self),
        ih h (fun c hc => hl c (List.mem_cons_of_mem q hc)) (Nat.le_of_succ_le_succ hk)]

/-- A walk starts at its head. -/
theorem head_mem_walk (hq : q ≠ 0) (hk : k ≠ 0) : q ∈ walk m k q := by
  obtain ⟨k, rfl⟩ := Nat.exists_eq_succ_of_ne_zero hk
  rw [walk, if_neg hq]
  exact List.mem_cons_self

/-- The links of a cell are in its bytes. -/
theorem nextLink_eq_of_cell {n c : ℕ} (hn : 16 ≤ n) (h : ∀ i < n, m' (c + i) = m (c + i)) :
    nextLink m' c = nextLink m c := by
  refine Mem.load64_congr fun i hi => ?_
  rw [Nat.add_assoc]
  exact h (8 + i) (by omega)

end Walks

section Cells

variable {L : CacheLayout} {s : CacheClients} {p : BlockPool L.blocks} {m : Mem}
  {head prev tmp b c q fuel : ℕ} {init rest l : List ℕ} {num : ℤ} {st st' : CacheState}
  {complete : Bool}

/-- Linking two cells changes no byte of another one. -/
theorem linkCell_of_ne (hp : L.IsCell prev) (ht : L.IsCell tmp) (hc : L.IsCell c) (hcp : c ≠ prev)
    (hct : c ≠ tmp) (hsize : sizeofCacheChain ≤ L.size) {i : ℕ} (hi : i < L.size) :
    linkCell prev tmp m (c + i) = m (c + i) := by
  have hdp := hc.disjoint L hp hcp
  have hdt := hc.disjoint L ht hct
  rw [sizeofCacheChain] at hsize
  rw [linkCell, Mem.store64_of_outside (by omega), Mem.store64_of_outside (by omega),
    Mem.store64_of_outside (by omega)]

/-- A round of the loop changes no byte of a cell that was out, but for the last one of the
chain. -/
theorem Chain.grow_frame (h : Chain s p head prev init) (hfree : p.free = b :: rest)
    (hsize : sizeofCacheChain ≤ L.size) (hc : c ∈ p.out) (hcp : c ≠ prev) {i : ℕ}
    (hi : i < L.size) :
    linkCell prev b (CacheLayout.allocMem s L.self b) (c + i) = s.st.mem (c + i) := by
  have hbfree := BlockPool.head_mem_free hfree
  have hprev := h.out prev (List.mem_append_right _ List.mem_cons_self)
  have hcb : c ≠ b := fun heq => p.free_disjoint b hbfree (heq ▸ hc)
  have hframe := h.represents.alloc_frame (h.represents.out ▸ hc) hi
  rw [h.represents.alloc_cons hfree] at hframe
  rw [← hframe]
  exact linkCell_of_ne (L.isCell_of_mem_blocks (p.mem_blocks_of_out hprev))
    (L.isCell_of_mem_blocks (p.mem_blocks_of_free hbfree))
    (L.isCell_of_mem_blocks (p.mem_blocks_of_out hc)) hcp hcb hsize hi

/-- What the loop has done from a chain on: it has added the first free cells, and has changed no
byte of a cell that was out but for the last one of the chain. -/
structure Grown (s : CacheClients) (p : BlockPool L.blocks) (head prev : ℕ) (init : List ℕ)
    (st' : CacheState) (p' : BlockPool L.blocks) (prev' : ℕ) (init' : List ℕ) : Prop where
  chain : Chain ⟨st', p'.out⟩ p' head prev' init'
  added : ∃ l, init' ++ [prev'] = init ++ [prev] ++ l ∧ p.free = l ++ p'.free
  frame : ∀ c ∈ p.out, c ≠ prev → ∀ i < L.size, st'.mem (c + i) = s.st.mem (c + i)

/-- A chain that nothing was added to. -/
theorem Chain.grown_refl (h : Chain s p head prev init) :
    Grown s p head prev init s.st p prev init where
  chain := by rwa [← h.represents.out]
  added := ⟨[], (List.append_nil _).symm, rfl⟩
  frame _ _ _ _ _ := rfl

/-- Whether or not it gets the cells it was asked for. -/
theorem preAlloc_grown (h : Chain s p head prev init) (hsize : sizeofCacheChain ≤ L.size)
    (hrun : preAlloc L.self fuel num prev s.st = .ok (complete, st')) :
    ∃ p' prev' init', Grown s p head prev init st' p' prev' init' := by
  induction fuel generalizing s p prev init num with
  | zero => cases hrun
  | succ fuel ih =>
    by_cases hnum : num - 1 = 0
    · rw [preAlloc_done hnum] at hrun
      obtain ⟨-, rfl⟩ := Prod.mk.inj (Except.ok.inj hrun)
      exact ⟨p, prev, init, h.grown_refl⟩
    · cases hfree : p.free with
      | nil =>
        rw [preAlloc_nil h.represents hfree hnum] at hrun
        obtain ⟨-, rfl⟩ := Prod.mk.inj (Except.ok.inj hrun)
        exact ⟨p, prev, init, h.grown_refl⟩
      | cons b rest =>
        rw [preAlloc_cons h.represents hfree hnum] at hrun
        obtain ⟨p', prev', init', hgrown⟩ := ih (h.grow hfree hsize) hrun
        obtain ⟨l, hcells, hrest⟩ := hgrown.added
        refine ⟨p', prev', init', hgrown.chain, ⟨b :: l, ?_, ?_⟩, fun c hc hcp i hi => ?_⟩
        · rw [hcells, List.append_assoc (init ++ [prev])]
          rfl
        · rw [hfree, List.cons_append, ← hrest]
          rfl
        · have hcb : c ≠ b := fun heq =>
            p.free_disjoint b (BlockPool.head_mem_free hfree) (heq ▸ hc)
          rw [hgrown.frame c (Finset.mem_insert_of_mem hc) hcb i hi]
          exact h.grow_frame hfree hsize hc hcp hi

/-- The loop comes to an end. -/
theorem preAlloc_returns (h : Chain s p head prev init) (hsize : sizeofCacheChain ≤ L.size)
    (hfuel : p.free.length < fuel) : ∃ r, preAlloc L.self fuel num prev s.st = .ok r := by
  induction fuel generalizing s p prev init num with
  | zero => exact absurd hfuel (Nat.not_lt_zero _)
  | succ fuel ih =>
    by_cases hnum : num - 1 = 0
    · exact ⟨_, preAlloc_done hnum⟩
    · cases hfree : p.free with
      | nil => exact ⟨_, preAlloc_nil h.represents hfree hnum⟩
      | cons b rest =>
        rw [hfree, List.length_cons] at hfuel
        rw [preAlloc_cons h.represents hfree hnum]
        exact ih (h.grow hfree hsize) (Nat.lt_of_succ_lt_succ hfuel)

/-- `mem_cache_destroy` writes into the links of the cells of the chain only. -/
theorem memCacheDestroy_outside (h : Linked st.mem 0 q l) (hl : ∀ c ∈ l, c ≠ 0)
    (hrun : memCacheDestroy L.self fuel q st = .ok st') {x : ℕ}
    (hx : ∀ c ∈ l, x < c ∨ c + 16 ≤ x) : st'.mem x = st.mem x := by
  induction fuel generalizing q l st' with
  | zero => cases hrun
  | succ fuel ih =>
    cases l with
    | nil =>
      obtain rfl : q = 0 := h
      cases hrun
    | cons b l =>
      obtain ⟨rfl, h⟩ := h
      have hfree (st₁ : CacheState) : (memCacheFree q L.self st₁).mem x = st₁.mem x :=
        writeLinks_of_outside (hx q List.mem_cons_self)
      rw [memCacheDestroy] at hrun
      simp only [if_neg (hl q List.mem_cons_self)] at hrun
      split_ifs at hrun with hnext
      · obtain ⟨st₁, hst₁, hrun⟩ := bind_eq_ok.mp hrun
        rw [← Except.ok.inj hrun, hfree]
        exact ih h (fun c hc => hl c (List.mem_cons_of_mem q hc)) hst₁
          fun c hc => hx c (List.mem_cons_of_mem q hc)
      · rw [← Except.ok.inj hrun]
        exact hfree st

/-- It returns only if it has a call for each cell. -/
theorem length_le_of_memCacheDestroy (h : Linked st.mem 0 q l) (hl : ∀ c ∈ l, c ≠ 0)
    (hrun : memCacheDestroy L.self fuel q st = .ok st') : l.length ≤ fuel := by
  induction fuel generalizing q l st' with
  | zero => cases hrun
  | succ fuel ih =>
    cases l with
    | nil => exact Nat.zero_le _
    | cons b l =>
      obtain ⟨rfl, h⟩ := h
      have hl' (c : ℕ) (hc : c ∈ l) : c ≠ 0 := hl c (List.mem_cons_of_mem q hc)
      rw [memCacheDestroy] at hrun
      simp only [if_neg (hl q List.mem_cons_self)] at hrun
      refine Nat.succ_le_succ ?_
      split_ifs at hrun with hnext
      · obtain ⟨st₁, hst₁, -⟩ := bind_eq_ok.mp hrun
        exact ih h hl' hst₁
      · cases l with
        | nil => exact Nat.zero_le _
        | cons b' l => exact absurd (h.1 ▸ not_not.mp hnext) (hl' b' List.mem_cons_self)

/-- The cells of a chain that is given back are free again, and no byte of another cell that was
out has changed. -/
theorem memCacheDestroy_given (h : L.Represents ⟨st, p.out⟩ p) (hlink : Linked st.mem 0 q l)
    (hne : l ≠ []) (hout : ∀ c ∈ l, c ∈ p.out) (hnodup : l.Nodup)
    (hrun : memCacheDestroy L.self fuel q st = .ok st') :
    ∃ p' : BlockPool L.blocks, L.Represents ⟨st', p'.out⟩ p' ∧ p'.free = l ++ p.free ∧
      ∀ c ∈ p.out, c ∉ l → ∀ i < L.size, st'.mem (c + i) = st.mem (c + i) := by
  have hcell (c : ℕ) (hc : c ∈ p.out) : L.IsCell c :=
    L.isCell_of_mem_blocks (p.mem_blocks_of_out hc)
  have hnull (c : ℕ) (hc : c ∈ l) : c ≠ 0 :=
    L.ne_null_of_mem_blocks (p.mem_blocks_of_out (hout c hc))
  have hlength := length_le_of_memCacheDestroy hlink hnull hrun
  obtain ⟨reads, s', p', htrace, -, hrep, hfree, -⟩ :=
    memCacheDestroyTrace_spec h hlink hne hout hnodup hlength
  have hst : s'.st = st' := by
    have hsnd := memCacheDestroyTrace_snd L.self fuel q st
    rw [htrace, hrun] at hsnd
    exact Except.ok.inj hsnd
  have hpout : s'.out = p'.out := hrep.out
  refine ⟨p', ?_, hfree, fun c hc hcl i hi => ?_⟩
  · rw [← hst, ← hpout]
    exact hrep
  · refine memCacheDestroy_outside hlink hnull hrun fun d hd => ?_
    have hdis := (hcell c hc).disjoint L (hcell d (hout d hd)) fun heq => hcl (heq ▸ hd)
    have hs := L.size_pos
    omega

end Cells

end Cache

/-! ### The chains that are kept -/

namespace CacheLayout

open Cache

variable {L : CacheLayout} {s s' : Chains} {p p' : BlockPool L.blocks} {c head : ℕ}

section Keeps

/-- The cells of a chain are out. -/
theorem Keeps.cell_out (h : L.Keeps s p) (hhead : head ∈ s.heads) (hc : c ∈ L.cellsOf s head) :
    c ∈ p.out :=
  (h.out c).mpr (List.mem_flatMap.mpr ⟨head, hhead, hc⟩)

theorem Keeps.isCell (h : L.Keeps s p) (hhead : head ∈ s.heads) (hc : c ∈ L.cellsOf s head) :
    L.IsCell c :=
  L.isCell_of_mem_blocks (p.mem_blocks_of_out (h.cell_out hhead hc))

theorem Keeps.cell_ne_null (h : L.Keeps s p) (hhead : head ∈ s.heads)
    (hc : c ∈ L.cellsOf s head) : c ≠ 0 :=
  L.ne_null_of_mem_blocks (p.mem_blocks_of_out (h.cell_out hhead hc))

/-- The first cell is one of them. -/
theorem Keeps.head_mem (h : L.Keeps s p) (hhead : head ∈ s.heads) : head ∈ L.cellsOf s head := by
  have hnull := h.ne_null head hhead
  refine head_mem_walk hnull fun hn => ?_
  have hlink := h.linked head hhead
  rw [cellsOf, hn] at hlink
  exact hnull hlink

/-- Chains whose cells are given. -/
theorem Keeps.of_cells {cells : ℕ → List ℕ} (hrep : L.Represents ⟨s.st, p.out⟩ p)
    (hnull : ∀ head ∈ s.heads, head ≠ 0)
    (hlinked : ∀ head ∈ s.heads, Linked s.st.mem 0 head (cells head))
    (hnodup : (s.heads.flatMap cells).Nodup) (hout : ∀ c, c ∈ p.out ↔ c ∈ s.heads.flatMap cells) :
    L.Keeps s p ∧ ∀ head ∈ s.heads, L.cellsOf s head = cells head := by
  have hcells (head : ℕ) (hhead : head ∈ s.heads) : L.cellsOf s head = cells head := by
    have hblock (c : ℕ) (hc : c ∈ cells head) : c ∈ L.blocks :=
      p.mem_blocks_of_out ((hout c).mpr (List.mem_flatMap.mpr ⟨head, hhead, hc⟩))
    have hlength := BlockPool.length_le_card ((List.nodup_flatMap.mp hnodup).1 head hhead) hblock
    rw [L.card_blocks] at hlength
    exact walk_eq (hlinked head hhead) (fun c hc => L.ne_null_of_mem_blocks (hblock c hc)) hlength
  have hflat : s.heads.flatMap (L.cellsOf s) = s.heads.flatMap cells := List.flatMap_congr hcells
  refine ⟨⟨hrep, hnull, fun head hhead => ?_, ?_, ?_⟩, hcells⟩
  · rw [hcells head hhead]
    exact hlinked head hhead
  · rwa [hflat]
  · rwa [hflat]

/-- The chains and the free cells are all the cells. -/
theorem Keeps.partitioned (h : L.Keeps s p) : L.Partitioned s := by
  rw [Partitioned, freeCells_eq h.represents]
  have hnodup : (s.heads.flatMap (L.cellsOf s) ++ p.free).Nodup :=
    List.nodup_append.mpr ⟨h.nodup, p.free_nodup, fun c hc d hd heq =>
      p.free_disjoint d hd (heq ▸ (h.out c).mpr hc)⟩
  refine (List.perm_ext_iff_of_nodup hnodup L.cells_nodup).mpr fun c => ?_
  have hblocks : c ∈ L.cells ↔ c ∈ L.blocks := List.mem_toFinset.symm
  rw [List.mem_append, ← h.out, hblocks, p.cover c, or_comm]

/-- The links of the kept chains lead where they did, if no byte of their cells has changed. -/
theorem Keeps.linked_congr (h : L.Keeps s p) (hhead : head ∈ s.heads) {m : Mem}
    (hm : ∀ c ∈ L.cellsOf s head, ∀ i < L.size, m (c + i) = s.st.mem (c + i)) :
    Linked m 0 head (L.cellsOf s head) :=
  (h.linked head hhead).frame fun c hc => nextLink_eq_of_cell L.size_pos (hm c hc)

end Keeps

/-! ### The operations -/

/-- Cells have been taken: a chain of the first free ones, and no byte of a cell that was out has
changed. -/
structure Took (s : Chains) (p : BlockPool L.blocks) (b : ℕ) (l : List ℕ) (st₁ : CacheState)
    (p₁ : BlockPool L.blocks) : Prop where
  represents : L.Represents ⟨st₁, p₁.out⟩ p₁
  linked : Linked st₁.mem 0 b l
  nodup : l.Nodup
  head_mem : b ∈ l
  free : p.free = l ++ p₁.free
  frame : ∀ c ∈ p.out, ∀ i < L.size, st₁.mem (c + i) = s.st.mem (c + i)

section Operations

variable {u : Unset} {size : UInt64} {b : ℕ} {l : List ℕ} {st₁ st₂ : CacheState}
  {p₁ : BlockPool L.blocks}

/-- The cells taken were not out before. -/
theorem Took.notMem_out (h : Took s p b l st₁ p₁) (hc : c ∈ l) : c ∉ p.out := by
  refine p.free_disjoint c ?_
  rw [h.free]
  exact List.mem_append_left _ hc

/-- Afterwards they are out besides those that were. -/
theorem Took.mem_out_iff (h : Took s p b l st₁ p₁) : c ∈ p₁.out ↔ c ∈ l ∨ c ∈ p.out := by
  have hsplit : c ∈ p.free ↔ c ∈ l ∨ c ∈ p₁.free := by rw [h.free, List.mem_append]
  constructor
  · intro hc
    obtain ⟨hblock, hnot⟩ := (p₁.mem_out_iff c).mp hc
    exact ((p.cover c).mp hblock).imp_left fun hc' => (hsplit.mp hc').resolve_right hnot
  · rintro (hc | hc)
    · have hnodup : (l ++ p₁.free).Nodup := h.free ▸ p.free_nodup
      have hblock := p.mem_blocks_of_free (hsplit.mpr (.inl hc))
      exact (p₁.mem_out_iff c).mpr ⟨hblock, fun hc' =>
        (List.nodup_append.mp hnodup).2.2 c hc c hc' rfl⟩
    · obtain ⟨hblock, hnot⟩ := (p.mem_out_iff c).mp hc
      exact (p₁.mem_out_iff c).mpr ⟨hblock, fun hc' => hnot (hsplit.mpr (.inr hc'))⟩

/-- What comes of a call that asks for cells: nothing where there is none, or a chain, which is
given back if a cell is missing. -/
theorem allocCells_cases (h : L.Represents ⟨s.st, p.out⟩ p) (hsize : sizeofCacheChain ≤ L.size)
    {cs : Cells} (hrun : allocCells L.self u size s.st = .ok cs) :
    cs = .none s.st ∨ ∃ b l st₁ p₁, Took s p b l st₁ p₁ ∧ (cs = .chain b st₁ ∨
      ∃ st₂, memCacheDestroy L.self s.st.head.num b st₁ = .ok st₂ ∧ cs = .short st₂) := by
  rw [allocCells] at hrun
  by_cases hnone : p.free = []
  · rw [h.alloc_nil hnone] at hrun
    exact .inl (Except.ok.inj hrun).symm
  · obtain ⟨b, rest, hfree⟩ := List.exists_cons_of_ne_nil hnone
    have hbfree := BlockPool.head_mem_free hfree
    have hb0 : b ≠ 0 := L.ne_null_of_mem_blocks (p.mem_blocks_of_free hbfree)
    have hstart := Chain.start h hfree (u.tmp + sizeofCacheChain) hsize
    have halloc (c : ℕ) (hc : c ∈ p.out) (i : ℕ) (hi : i < L.size) := h.alloc_frame hc hi
    rw [h.alloc_cons hfree] at hrun halloc
    dsimp only at hrun halloc
    rw [if_neg hb0] at hrun
    obtain ⟨⟨complete, st₁⟩, hpre, hrun⟩ := bind_eq_ok.mp hrun
    -- the first cell is a chain of one, and the others are put behind it
    obtain ⟨p₁, prev, init, hgrown⟩ := preAlloc_grown hstart hsize hpre
    obtain ⟨l, hcells, hrest⟩ := hgrown.added
    refine .inr ⟨b, init ++ [prev], st₁, p₁, ⟨hgrown.chain.represents, hgrown.chain.linked,
      hgrown.chain.nodup, ?_, ?_, fun c hc i hi => ?_⟩, ?_⟩
    · rw [hcells]
      exact List.mem_cons_self
    · have hrest' : rest = l ++ p₁.free := hrest
      rw [hfree, hcells, hrest']
      rfl
    · have hcb : c ≠ b := fun heq => p.free_disjoint b hbfree (heq ▸ hc)
      have hdis := (L.isCell_of_mem_blocks (p.mem_blocks_of_out hc)).disjoint L
        (L.isCell_of_mem_blocks (p.mem_blocks_of_free hbfree)) hcb
      rw [sizeofCacheChain] at hsize
      rw [hgrown.frame c (Finset.mem_insert_of_mem hc) hcb i hi, ← halloc c hc i hi]
      exact Mem.store64_of_outside (by omega)
    · -- a chain that came out short is destroyed again
      cases complete with
      | true => exact .inl (Except.ok.inj hrun).symm
      | false =>
        obtain ⟨st₂, hdestroy, hrun⟩ := bind_eq_ok.mp hrun
        exact .inr ⟨st₂, hdestroy, (Except.ok.inj hrun).symm⟩

/-- A call that asks for cells returns. -/
theorem allocCells_returns (h : L.Represents ⟨s.st, p.out⟩ p) (hsize : sizeofCacheChain ≤ L.size)
    (u : Unset) (size : UInt64) : ∃ cs, allocCells L.self u size s.st = .ok cs := by
  rw [allocCells]
  by_cases hnone : p.free = []
  · rw [h.alloc_nil hnone]
    exact ⟨_, rfl⟩
  · obtain ⟨b, rest, hfree⟩ := List.exists_cons_of_ne_nil hnone
    have hb0 : b ≠ 0 := L.ne_null_of_mem_blocks (BlockPool.head_mem_blocks hfree)
    have hnum : s.st.head.num = rest.length + 1 := by rw [h.num, hfree, List.length_cons]
    have hstart := Chain.start h hfree (u.tmp + sizeofCacheChain) hsize
    have hfuel : (p.alloc b rest hfree).free.length < rest.length + 1 := Nat.lt_succ_self _
    obtain ⟨⟨complete, st₁⟩, hpre⟩ :
        ∃ r, preAlloc L.self (rest.length + 1) (cellNum size) _ _ = .ok r :=
      preAlloc_returns hstart hsize hfuel
    obtain ⟨p₁, prev, init, hgrown⟩ := preAlloc_grown hstart hsize hpre
    rw [h.alloc_cons hfree, hnum]
    dsimp only
    rw [if_neg hb0, hpre, ok_bind]
    cases complete with
    | true => exact ⟨_, rfl⟩
    | false =>
      -- the chain has no more cells than were free
      obtain ⟨l, hcells, hrest⟩ := hgrown.added
      have hlength : (init ++ [prev]).length ≤ rest.length + 1 := by
        have hrest' : rest = l ++ p₁.free := hrest
        rw [hcells, hrest']
        simp only [List.nil_append, List.length_append, List.length_cons, List.length_nil]
        omega
      obtain ⟨reads, s', p', htrace, -⟩ := memCacheDestroyTrace_spec hgrown.chain.represents
        hgrown.chain.linked (by simp) hgrown.chain.out hgrown.chain.nodup hlength
      have hsnd := memCacheDestroyTrace_snd L.self (rest.length + 1) b st₁
      rw [htrace] at hsnd
      rw [if_neg Bool.false_ne_true, ← hsnd]
      exact ⟨_, rfl⟩

/-- The kept chains have the cells they had, and the bytes in them, but for one. -/
def Same (L : CacheLayout) (s s' : Chains) (x : Option ℕ) : Prop :=
  ∀ head ∈ s.heads, head ∈ s'.heads → L.cellsOf s' head = L.cellsOf s head ∧
    ∀ c ∈ L.cellsOf s head, ∀ i < L.size, x ≠ some (c + i) →
      s'.st.mem (c + i) = s.st.mem (c + i)

/-- Some of the chains are kept, none of whose bytes has changed. -/
theorem Keeps.kept (h : L.Keeps s p) (hrep : L.Represents ⟨s'.st, p'.out⟩ p')
    (hsub : ∀ head ∈ s'.heads, head ∈ s.heads)
    (hnodup : (s'.heads.flatMap (L.cellsOf s)).Nodup)
    (hout : ∀ c, c ∈ p'.out ↔ c ∈ s'.heads.flatMap (L.cellsOf s))
    (hframe : ∀ head ∈ s'.heads, ∀ c ∈ L.cellsOf s head, ∀ i < L.size,
      s'.st.mem (c + i) = s.st.mem (c + i)) : L.Keeps s' p' ∧ L.Same s s' none := by
  obtain ⟨hkeeps, hcells⟩ := Keeps.of_cells hrep
    (fun head hhead => h.ne_null head (hsub head hhead))
    (fun head hhead => h.linked_congr (hsub head hhead) (hframe head hhead)) hnodup hout
  exact ⟨hkeeps, fun head _ hhead => ⟨hcells head hhead, fun c hc i hi _ =>
    hframe head hhead c hc i hi⟩⟩

/-- A chain that has been taken is kept. -/
theorem Keeps.keep (h : L.Keeps s p) (htook : Took s p b l st₁ p₁) :
    L.Keeps ⟨st₁, b :: s.heads⟩ p₁ ∧ L.Same s ⟨st₁, b :: s.heads⟩ none := by
  have hbheads : b ∉ s.heads := fun hhead =>
    htook.notMem_out htook.head_mem (h.cell_out hhead (h.head_mem hhead))
  set cells := Function.update (L.cellsOf s) b l with hcells
  have hnew : cells b = l := Function.update_self ..
  have hold (head : ℕ) (hhead : head ∈ s.heads) : cells head = L.cellsOf s head :=
    Function.update_of_ne (ne_of_mem_of_not_mem hhead hbheads) _ _
  have hflat : (b :: s.heads).flatMap cells = l ++ s.heads.flatMap (L.cellsOf s) := by
    rw [List.flatMap_cons, List.flatMap_congr hold, hnew]
  have hnull : ∀ head ∈ b :: s.heads, head ≠ 0 := by
    intro head hhead
    rcases List.mem_cons.mp hhead with rfl | hhead
    · exact L.ne_null_of_mem_blocks (p₁.mem_blocks_of_out (htook.mem_out_iff.mpr
        (.inl htook.head_mem)))
    · exact h.ne_null head hhead
  have hlinked : ∀ head ∈ b :: s.heads, Linked st₁.mem 0 head (cells head) := by
    intro head hhead
    rcases List.mem_cons.mp hhead with rfl | hhead
    · rw [hnew]
      exact htook.linked
    · rw [hold head hhead]
      exact h.linked_congr hhead fun c hc => htook.frame c (h.cell_out hhead hc)
  have hnodup : ((b :: s.heads).flatMap cells).Nodup := by
    rw [hflat]
    exact List.nodup_append.mpr ⟨htook.nodup, h.nodup, fun c hc d hd heq =>
      htook.notMem_out hc (heq ▸ (h.out d).mpr hd)⟩
  have hout (c : ℕ) : c ∈ p₁.out ↔ c ∈ (b :: s.heads).flatMap cells := by
    rw [hflat, List.mem_append, ← h.out, htook.mem_out_iff]
  obtain ⟨hkeeps, hcellsOf⟩ := Keeps.of_cells (s := ⟨st₁, b :: s.heads⟩) htook.represents hnull
    hlinked hnodup hout
  refine ⟨hkeeps, fun head hhead hhead' => ⟨?_, fun c hc i hi _ => ?_⟩⟩
  · rw [hcellsOf head hhead', hold head hhead]
  · exact htook.frame c (h.cell_out hhead hc) i hi

/-- A chain that has been taken is given back at once. -/
theorem Keeps.undo (h : L.Keeps s p) (htook : Took s p b l st₁ p₁) {fuel : ℕ}
    (hdestroy : memCacheDestroy L.self fuel b st₁ = .ok st₂) :
    ∃ p', L.Keeps ⟨st₂, s.heads⟩ p' ∧ L.Same s ⟨st₂, s.heads⟩ none := by
  obtain ⟨p', hrep, hfree, hframe⟩ := memCacheDestroy_given htook.represents htook.linked
    (List.ne_nil_of_mem htook.head_mem) (fun c hc => htook.mem_out_iff.mpr (.inl hc)) htook.nodup
    hdestroy
  refine ⟨p', ?_⟩
  refine h.kept hrep (fun _ hhead => hhead) h.nodup (fun c => ?_) fun head hhead c hc i hi => ?_
  · rw [p'.mem_out_iff, hfree, ← htook.free, ← p.mem_out_iff, h.out]
  · have hc' := h.cell_out hhead hc
    rw [← htook.frame c hc' i hi]
    exact hframe c (htook.mem_out_iff.mpr (.inr hc')) (fun hmem => htook.notMem_out hmem hc') i hi

/-- A file asks for cells. -/
theorem Keeps.take (h : L.Keeps s p) (hsize : sizeofCacheChain ≤ L.size)
    (hstep : L.chainStep s (.take u size) = some s') :
    ∃ p', L.Keeps s' p' ∧ L.Same s s' none := by
  rw [chainStep] at hstep
  cases hrun : allocCells L.self u size s.st with
  | error e =>
    rw [hrun] at hstep
    cases hstep
  | ok cs =>
    rw [hrun] at hstep
    rcases allocCells_cases h.represents hsize hrun with
      rfl | ⟨b, l, st₁, p₁, htook, rfl | ⟨st₂, hdestroy, rfl⟩⟩
    · obtain rfl := Option.some.inj hstep
      exact ⟨p, h, fun head _ _ => ⟨rfl, fun _ _ _ _ _ => rfl⟩⟩
    · obtain rfl := Option.some.inj hstep
      exact ⟨p₁, h.keep htook⟩
    · obtain rfl := Option.some.inj hstep
      exact h.undo htook hdestroy

/-- A chain is given back. -/
theorem Keeps.give (h : L.Keeps s p) {fuel : ℕ}
    (hstep : L.chainStep s (.give fuel head) = some s') :
    ∃ p', L.Keeps s' p' ∧ L.Same s s' none := by
  rw [chainStep] at hstep
  split_ifs at hstep with hhead
  cases hrun : memCacheDestroy L.self fuel head s.st with
  | error e =>
    rw [hrun] at hstep
    cases hstep
  | ok st =>
    rw [hrun] at hstep
    obtain rfl := Option.some.inj hstep
    -- the cells that are out are those of this chain and those of the others
    have hperm : (s.heads.flatMap (L.cellsOf s)).Perm
        (L.cellsOf s head ++ (s.heads.erase head).flatMap (L.cellsOf s)) :=
      (List.perm_cons_erase hhead).flatMap_right _
    obtain ⟨hnodup, hnodup', hdisj⟩ := List.nodup_append.mp (hperm.nodup_iff.mp h.nodup)
    have hne : L.cellsOf s head ≠ [] := List.ne_nil_of_mem (h.head_mem hhead)
    obtain ⟨p', hrep, hfree, hframe⟩ := memCacheDestroy_given h.represents (h.linked head hhead) hne
      (fun c hc => h.cell_out hhead hc) hnodup hrun
    have hkept (head' : ℕ) (hhead' : head' ∈ s.heads.erase head) (c : ℕ)
        (hc : c ∈ L.cellsOf s head') : c ∉ L.cellsOf s head := fun hc' =>
      hdisj c hc' c (List.mem_flatMap.mpr ⟨head', hhead', hc⟩) rfl
    refine ⟨p', h.kept hrep (fun _ hmem => List.mem_of_mem_erase hmem) hnodup' (fun c => ?_)
      fun head' hhead' c hc i hi => ?_⟩
    · rw [p'.mem_out_iff, hfree, List.mem_append, not_or]
      have hout : c ∈ p.out ↔ c ∈ L.cellsOf s head ∨
          c ∈ (s.heads.erase head).flatMap (L.cellsOf s) := by
        rw [h.out, hperm.mem_iff, List.mem_append]
      constructor
      · rintro ⟨hblock, hc, hcfree⟩
        exact (hout.mp ((p.mem_out_iff c).mpr ⟨hblock, hcfree⟩)).resolve_left hc
      · intro hc
        obtain ⟨hblock, hcfree⟩ := (p.mem_out_iff c).mp (hout.mpr (.inr hc))
        exact ⟨hblock, fun hc' => hdisj c hc' c hc rfl, hcfree⟩
    · exact hframe c (h.cell_out (List.mem_of_mem_erase hhead') hc) (hkept head' hhead' c hc) i hi

/-- A byte behind the links of a cell is written. -/
theorem Keeps.write (h : L.Keeps s p) {i off : ℕ} {v : UInt8} (hhead : head ∈ s.heads)
    (hc : (L.cellsOf s head)[i]? = some c) (hoff : sizeofCacheChain ≤ off) (hlt : off < L.size)
    (hs' : s' = { s with st := { s.st with mem := Function.update s.st.mem (c + off) v } }) :
    L.Keeps s' p ∧ L.Same s s' (some (c + off)) := by
  have hcmem : c ∈ L.cellsOf s head := List.mem_of_getElem? hc
  have hcell : L.IsCell c := h.isCell hhead hcmem
  have hlink (d : ℕ) (hd : L.IsCell d) :
      nextLink (Function.update s.st.mem (c + off) v) d = nextLink s.st.mem d := by
    by_cases hdc : d = c
    · rw [sizeofCacheChain] at hoff
      exact Mem.load64_congr fun k hk => Function.update_of_ne (by omega) _ _
    · have hdis := hd.disjoint L hcell hdc
      have hsize := L.size_pos
      exact Mem.load64_congr fun k hk => Function.update_of_ne (by omega) _ _
  have hmem : s'.st.mem = Function.update s.st.mem (c + off) v := by rw [hs']
  have hheads : s'.heads = s.heads := by rw [hs']
  have hrep : L.Represents ⟨s'.st, p.out⟩ p := by
    rw [hs']
    exact h.represents.congr fun d hd => hlink d (L.isCell_of_mem_blocks (p.mem_blocks_of_free hd))
  have hlinked : ∀ head ∈ s'.heads, Linked s'.st.mem 0 head (L.cellsOf s head) := by
    intro head' hhead'
    rw [hheads] at hhead'
    rw [hmem]
    exact (h.linked head' hhead').frame fun d hd => hlink d (h.isCell hhead' hd)
  obtain ⟨hkeeps, hcells⟩ := Keeps.of_cells hrep (hheads ▸ h.ne_null) hlinked (hheads ▸ h.nodup)
    (hheads ▸ h.out)
  refine ⟨hkeeps, fun head' _ hhead' => ⟨hcells head' hhead', fun d _ k _ hne => ?_⟩⟩
  rw [hmem]
  exact Function.update_of_ne (fun heq => hne (congrArg some heq.symm)) _ _

/-- A call for a new chain returns, whatever the size. -/
theorem Keeps.take_returns (h : L.Keeps s p) (hsize : sizeofCacheChain ≤ L.size) (u : Unset)
    (size : UInt64) : (L.chainStep s (.take u size)).isSome := by
  obtain ⟨cs, hrun⟩ := allocCells_returns h.represents hsize u size
  rw [chainStep, hrun]
  cases cs <;> rfl

/-- Every operation keeps the chains. -/
theorem Keeps.step (h : L.Keeps s p) (hsize : sizeofCacheChain ≤ L.size) {op : ChainOp}
    (hstep : L.chainStep s op = some s') :
    ∃ p', L.Keeps s' p' ∧ L.Same s s' (L.target s op) := by
  cases op with
  | take u size => exact h.take hsize hstep
  | give fuel head => exact h.give hstep
  | write head i off v =>
    rw [chainStep] at hstep
    obtain ⟨c, hc, hstep⟩ := Option.bind_eq_some_iff.mp hstep
    split_ifs at hstep with hguard
    obtain ⟨hhead, hoff, hlt⟩ := hguard
    rw [target, hc]
    exact ⟨p, h.write hhead hc hoff hlt (Option.some.inj hstep).symm⟩

end Operations

/-! ### Runs -/

/-- The cells as `mem_cache_locate` leaves them, without a chain. -/
def noChains (L : CacheLayout) (m : Mem) : Chains := ⟨(L.init m).st, []⟩

/-- Before the first call all blocks are free. -/
theorem keeps_noChains (m : Mem) :
    L.Keeps (L.noChains m) (BlockPool.full L.cells L.cells_nodup) where
  represents := L.represents_init m
  ne_null head hhead := by cases hhead
  linked head hhead := by cases hhead
  nodup := List.nodup_nil
  out c := by simp [BlockPool.full, noChains]

/-- **No cell is lost or taken twice.** In every run each cell is in exactly one of the chains that
are kept, or free, and a file that asks for cells then gets an answer. -/
theorem partitioned_run (hsize : sizeofCacheChain ≤ L.size) (m : Mem) (ops : List ChainOp) :
    Runs.Holds L.chainStep (fun s => L.Partitioned s ∧
      ∀ u size, (L.chainStep s (.take u size)).isSome) (L.noChains m) ops := by
  have hall : Runs.Holds L.chainStep (fun s => ∃ p, L.Keeps s p) (L.noChains m) ops :=
    Runs.holds_of_meets (fun s op s' h _ hstep => by
      obtain ⟨p, hp⟩ := h
      obtain ⟨p', hp', -⟩ := hp.step hsize hstep
      exact ⟨p', hp'⟩) ⟨_, keeps_noChains m⟩ (Runs.meets_true _ ops)
  exact hall.mono fun s ⟨_, hp⟩ => ⟨hp.partitioned, hp.take_returns hsize⟩

/-- Two files, of which the first one is given back. -/
theorem partitioned_run_fortyCells :
    Runs.Holds ShmPool.fortyCells.layout.chainStep (fun s =>
      ShmPool.fortyCells.layout.Partitioned s ∧
        ∀ u size, (ShmPool.fortyCells.layout.chainStep s (.take u size)).isSome)
      (ShmPool.fortyCells.layout.noChains fun _ => 0)
      [.take ⟨0, 0, 0⟩ 819200, .take ⟨0, 0, 0⟩ 851968, .write 32768 1 24 7, .give 40 32768] :=
  partitioned_run (by decide) _ _

/-- **The chains do not touch each other.** In every run an operation leaves the cells of the other
chains, and the bytes in them, as they are. -/
theorem untouched_run (hsize : sizeofCacheChain ≤ L.size) (m : Mem) (ops : List ChainOp) :
    Runs.Meets L.chainStep L.Untouched (L.noChains m) ops :=
  Runs.meets_of_inv (I := fun s => ∃ p, L.Keeps s p)
    (fun s op s' h _ hstep => by
      obtain ⟨p, hp⟩ := h
      obtain ⟨p', hp', -⟩ := hp.step hsize hstep
      exact ⟨p', hp'⟩)
    (fun s op s' h _ _ s'' hstep => by
      obtain ⟨p, hp⟩ := h
      exact (hp.step hsize hstep).choose_spec.2) ⟨_, keeps_noChains m⟩ (Runs.meets_true _ ops)

/-- The second file is not touched when the first one is written to and given back. -/
theorem untouched_run_fortyCells :
    Runs.Meets ShmPool.fortyCells.layout.chainStep ShmPool.fortyCells.layout.Untouched
      (ShmPool.fortyCells.layout.noChains fun _ => 0)
      [.take ⟨0, 0, 0⟩ 819200, .take ⟨0, 0, 0⟩ 851968, .write 32768 1 24 7, .give 40 32768] :=
  untouched_run (by decide) _ _

end CacheLayout

end Lidas
