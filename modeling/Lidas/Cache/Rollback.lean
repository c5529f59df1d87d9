import Lidas.Cache.Serve
import Lidas.Memory.Destroy

/-!
# Giving back the cells of a file

Where a cell is missing, `file_cache_to_client` gives the record back to one cache and the cells to
the other one. `mem_cache_destroy` goes down the chain before it frees a cell, so that it has read
all the links when `mem_cache_free` writes its own ones over them, and it stops at the last cell
because `mem_cache_alloc` has cleared it. It frees the last cell first, which puts the cells into
the order in which they were handed out.
-/

namespace Lidas

namespace Cache

open Pages (Access Unfreed)

/-- `sizeof (struct cache_info_t)`: the flags in the byte at 0, `time` at 8, `query` at 16, `size`
at 24, `rest` at 32 and `next` at 40. -/
def sizeofCacheInfo : ℕ := 48

/-- `cache_info_pool` and `cache_shm_pool`. -/
structure Caches where
  info : CacheState
  shm : CacheState

/-- What the record gets besides the size; `prev` is not set at that point. -/
structure InfoFields where
  time : ℕ
  query : ℕ
  prev : ℕ

/-- The assignments to `new->local` and `new->remote`. -/
def infoFlags (flags : UInt8) : UInt8 := (flags &&& 0xcf ||| 0x10) &&& 0x3f

/-- The assignments to the record `new`. -/
def writeInfo (new : ℕ) (r : InfoFields) (size : UInt64) (m : Mem) : Mem :=
  let m : Mem := Function.update m new (infoFlags (m new))
  let m := m.store64 (new + 8) r.time
  let m := m.store64 (new + 16) r.query
  let m := m.store64 (new + 40) r.prev
  m.store64 (new + 24) size.toNat

/-- `mem_cache_destroy`, of no more than the given number of calls, with what it reads of the cells
and frees. -/
def memCacheDestroyTrace (self : ℕ) : ℕ → ℕ → CacheState → Except Fault (List Access × CacheState)
  | 0, _, _ => .error .diverges
  | fuel + 1, head, s => do
    if head = 0 then .error .nullDeref
    let next := nextLink s.mem head
    if next ≠ 0 then
      let (trace, s) ← memCacheDestroyTrace self fuel next s
      return (.read (head + 8) :: .read (head + 8) :: trace ++ [.free head],
        memCacheFree head self s)
    else return ([.read (head + 8), .free head], memCacheFree head self s)

/-- `file_cache_to_client` on both caches: what it returns, what `mem_cache_destroy` does, and the
caches. -/
def fileCacheToClientTrace (infoSelf self : ℕ) (u : Unset) (r : InfoFields) (size : UInt64)
    (file : Option (List UInt8)) (s : Caches) : Except Fault (ℤ × List Access × Caches) := do
  let postStart (head : ℕ) (s : Caches) : Except Fault (ℤ × List Access × Caches) :=
    match file with
    | none => .ok (cacheClientErr, [], s)
    | some content => do
      let m ← fillLoop u.operand content 0 head size s.shm.mem
      return (0, [], { s with shm := { s.shm with mem := m } })
  let fuel := s.shm.head.num
  let (new, info) := memCacheAlloc infoSelf s.info
  if new = 0 then postStart u.head { s with info := info }
  else
    let info := { info with mem := writeInfo new r size info.mem }
    let (prev, shm) := memCacheAlloc self s.shm
    if prev = 0 then postStart u.head { info := info, shm := shm }
    else
      let shm := { shm with mem := shm.mem.store64 (prev + 16) (u.tmp + sizeofCacheChain) }
      let (complete, shm) ← preAlloc self fuel (cellNum size) prev shm
      if complete then postStart prev { info := info, shm := shm }
      else
        let info := memCacheFree new infoSelf info
        let (trace, shm) ← memCacheDestroyTrace self fuel prev shm
        return (nonCacheMem, trace, { info := info, shm := shm })

/-! ### The trace and the code -/

theorem memCacheDestroyTrace_snd (self fuel head : ℕ) (s : CacheState) :
    (memCacheDestroyTrace self fuel head s).map Prod.snd = memCacheDestroy self fuel head s := by
  induction fuel generalizing head s with
  | zero => rfl
  | succ fuel ih =>
    rw [memCacheDestroyTrace, memCacheDestroy]
    by_cases hhead : head = 0
    · simp only [if_pos hhead]
      rfl
    · simp only [if_neg hhead]
      by_cases hnext : nextLink s.mem head = 0
      · simp only [if_neg (not_not.mpr hnext)]
        rfl
      · simp only [if_pos hnext, ← ih]
        cases memCacheDestroyTrace self fuel (nextLink s.mem head) s with
        | error e => rfl
        | ok q => rfl

/-- What happens to the cells is what happens to them without the other cache. -/
theorem fileCacheToClientTrace_shm (infoSelf self : ℕ) (u : Unset) (r : InfoFields) (size : UInt64)
    (file : Option (List UInt8)) (s : Caches) :
    (fileCacheToClientTrace infoSelf self u r size file s).map (fun q => (q.1, q.2.2.shm)) =
      fileCacheToClient self (memCacheAlloc infoSelf s.info).1 u size file s.shm := by
  -- the copy loop accesses no list head, so the trace does not see it
  have hpost (head : ℕ) (info shm : CacheState) :
      Except.map (fun q : ℤ × List Access × Caches => (q.1, q.2.2.shm)) (match file with
        | none => .ok (cacheClientErr, [], ⟨info, shm⟩)
        | some content => do
          let m ← fillLoop u.operand content 0 head size shm.mem
          return (0, [], ⟨info, { shm with mem := m }⟩)) =
      match file with
        | none => .ok (cacheClientErr, shm)
        | some content => do
          let m ← fillLoop u.operand content 0 head size shm.mem
          return (0, { shm with mem := m }) := by
    cases file with
    | none => rfl
    | some content =>
      dsimp only
      cases fillLoop u.operand content 0 head size shm.mem with
      | error e => rfl
      | ok m => rfl
  rw [fileCacheToClientTrace, fileCacheToClient, allocCells]
  by_cases hnew : (memCacheAlloc infoSelf s.info).1 = 0
  · simp only [if_pos hnew]
    exact hpost ..
  simp only [if_neg hnew]
  by_cases hprev : (memCacheAlloc self s.shm).1 = 0
  · simp only [if_pos hprev]
    exact hpost ..
  simp only [if_neg hprev]
  -- the cells run out or not; the roll back is traced on its own
  cases preAlloc self s.shm.head.num (cellNum size) (memCacheAlloc self s.shm).1 _ with
  | error e => rfl
  | ok q =>
    obtain ⟨complete, shm⟩ := q
    cases complete with
    | true => exact hpost ..
    | false =>
      dsimp only [ok_bind]
      rw [← memCacheDestroyTrace_snd]
      cases memCacheDestroyTrace self s.shm.head.num (memCacheAlloc self s.shm).1 shm with
      | error e => rfl
      | ok q => rfl

/-! ### Where a cell is missing -/

section Short

variable {L : CacheLayout} {s : CacheClients} {p : BlockPool L.blocks} {head prev q fuel : ℕ}
  {init l : List ℕ} {num : ℤ}

/-- If a cell is missing, the chain has all the cells that were free. -/
theorem preAlloc_short (h : Chain s p head prev init) (hsize : sizeofCacheChain ≤ L.size)
    {s' : CacheState} (hrun : preAlloc L.self fuel num prev s.st = .ok (false, s')) :
    ∃ (s₁ : CacheClients) (p' : BlockPool L.blocks) (prev' : ℕ) (init' : List ℕ), s₁.st = s' ∧
      Chain s₁ p' head prev' init' ∧ init' ++ [prev'] = init ++ [prev] ++ p.free ∧
      p'.free = [] := by
  induction fuel generalizing s p prev init num with
  | zero => cases hrun
  | succ fuel ih =>
    by_cases hnum : num - 1 = 0
    · rw [preAlloc_done hnum] at hrun
      cases hrun
    · cases hfree : p.free with
      | nil =>
        rw [preAlloc_nil h.represents hfree hnum] at hrun
        obtain ⟨-, rfl⟩ := Prod.mk.inj (Except.ok.inj hrun)
        exact ⟨s, p, prev, init, rfl, h, (List.append_nil _).symm, hfree⟩
      | cons b rest =>
        rw [preAlloc_cons h.represents hfree hnum] at hrun
        obtain ⟨s₁, p', prev', init', hs, hchain, hcells, hnone⟩ := ih (h.grow hfree hsize) hrun
        refine ⟨s₁, p', prev', init', hs, hchain, ?_, hnone⟩
        rw [hcells, List.append_assoc _ [b]]
        rfl

/-- The loop comes to an end, and a cell is missing exactly if more are asked for than there are, or
a number that is not positive. -/
theorem preAlloc_short_iff (h : Chain s p head prev init) (hsize : sizeofCacheChain ≤ L.size)
    (hfuel : p.free.length < fuel) :
    (∃ s', preAlloc L.self fuel num prev s.st = .ok (false, s')) ↔
      num ≤ 0 ∨ p.free.length + 1 < num := by
  induction fuel generalizing s p prev init num with
  | zero => exact absurd hfuel (Nat.not_lt_zero _)
  | succ fuel ih =>
    by_cases hnum : num - 1 = 0
    · rw [preAlloc_done hnum]
      refine iff_of_false ?_ (by omega)
      rintro ⟨s', hrun⟩
      cases hrun
    · cases hfree : p.free with
      | nil =>
        rw [preAlloc_nil h.represents hfree hnum]
        exact iff_of_true ⟨_, rfl⟩ (by rw [List.length_nil]; omega)
      | cons b rest =>
        rw [hfree, List.length_cons] at hfuel
        rw [preAlloc_cons h.represents hfree hnum]
        refine (ih (h.grow hfree hsize) (Nat.lt_of_succ_lt_succ hfuel)).trans ?_
        have hrest : (p.alloc b rest hfree).free = rest := rfl
        rw [hrest, List.length_cons]
        push_cast
        omega

/-- The cells of a chain are freed, the last one first, after all the links have been read. -/
theorem memCacheDestroyTrace_spec (h : L.Represents s p) (hlink : Linked s.st.mem 0 q l)
    (hne : l ≠ []) (hout : ∀ c ∈ l, c ∈ p.out) (hnodup : l.Nodup) (hfuel : l.length ≤ fuel) :
    ∃ reads s' p', memCacheDestroyTrace L.self fuel q s.st =
        .ok (reads ++ l.reverse.map Access.free, s'.st) ∧
      (∀ a ∈ reads, ∃ x, a = Access.read x) ∧ L.Represents s' p' ∧ p'.free = l ++ p.free ∧
      ∀ c ∈ p.out, c ∉ l → c ∈ p'.out := by
  induction l generalizing q fuel with
  | nil => exact absurd rfl hne
  | cons b l ih =>
    obtain ⟨rfl, hlink⟩ := hlink
    have hq := hout q List.mem_cons_self
    have hq0 : q ≠ 0 := L.ne_null_of_mem_blocks (p.mem_blocks_of_out hq)
    obtain ⟨hnew, hnodup⟩ := List.nodup_cons.mp hnodup
    obtain ⟨fuel, rfl⟩ := Nat.exists_eq_succ_of_ne_zero (Nat.ne_zero_of_lt hfuel)
    rw [memCacheDestroyTrace]
    simp only [if_neg hq0]
    cases l with
    | nil =>
      -- the last cell
      have hlast : nextLink s.st.mem q = 0 := hlink
      rw [if_neg (not_not.mpr hlast)]
      refine ⟨[.read (q + 8)], _, _, rfl, fun a ha => ⟨q + 8, List.mem_singleton.mp ha⟩, h.free hq,
        rfl, fun c hc hcl => Finset.mem_erase.mpr ⟨List.ne_of_not_mem_cons hcl, hc⟩⟩
    | cons c l =>
      have hc : c ∈ p.out := hout c (List.mem_cons_of_mem q List.mem_cons_self)
      have hnext : nextLink s.st.mem q = c := hlink.1
      have hnull : nextLink s.st.mem q ≠ 0 := by
        rw [hnext]
        exact L.ne_null_of_mem_blocks (p.mem_blocks_of_out hc)
      obtain ⟨reads, s₁, p₁, hrun, hreads, hrep, hfree, hkept⟩ := ih hlink (List.cons_ne_nil c l)
        (fun d hd => hout d (List.mem_cons_of_mem q hd)) hnodup (Nat.le_of_succ_le_succ hfuel)
      have hq₁ : q ∈ p₁.out := hkept q hq hnew
      rw [if_pos hnull, hrun]
      refine ⟨.read (q + 8) :: .read (q + 8) :: reads, _, _, ?_, fun a ha => ?_, hrep.free hq₁, ?_,
        fun d hd hdl => ?_⟩
      · rw [List.reverse_cons (a := q), List.map_append]
        simp
      · rcases List.mem_cons.mp ha with rfl | ha
        · exact ⟨_, rfl⟩
        · rcases List.mem_cons.mp ha with rfl | ha
          · exact ⟨_, rfl⟩
          · exact hreads a ha
      · exact congrArg (q :: ·) hfree
      · exact Finset.mem_erase.mpr ⟨List.ne_of_not_mem_cons hdl,
          hkept d hd (List.not_mem_of_not_mem_cons hdl)⟩

end Short

/-! ### The record -/

section Record

variable {L : CacheLayout} {s : CacheClients} {p : BlockPool L.blocks}

theorem nextLink_writeInfo_of_disjoint {new c : ℕ} {r : InfoFields} {size : UInt64} {m : Mem}
    (h : new + 48 ≤ c ∨ c + 16 ≤ new) : nextLink (writeInfo new r size m) c = nextLink m c := by
  rw [nextLink, writeInfo]
  rw [Mem.load64_store64_of_disjoint (by omega), Mem.load64_store64_of_disjoint (by omega),
    Mem.load64_store64_of_disjoint (by omega), Mem.load64_store64_of_disjoint (by omega)]
  exact Mem.load64_congr fun i hi => Function.update_of_ne (by omega) _ _

/-- The record that is given back is the first free block again. -/
theorem represents_writeInfo (h : L.Represents s p) (hne : p.free ≠ [])
    (hsize : sizeofCacheInfo ≤ L.size) (r : InfoFields) (size : UInt64) :
    ∃ s' p', L.Represents s' p' ∧ p'.free = p.free ∧
      s'.st = memCacheFree (memCacheAlloc L.self s.st).1 L.self
        { (memCacheAlloc L.self s.st).2 with
          mem := writeInfo (memCacheAlloc L.self s.st).1 r size
            (memCacheAlloc L.self s.st).2.mem } := by
  obtain ⟨b, rest, hfree⟩ := List.exists_cons_of_ne_nil hne
  have hb : L.IsCell b := L.isCell_of_mem_blocks (BlockPool.head_mem_blocks hfree)
  have hwritten := (h.alloc hfree).congr (m := writeInfo b r size (CacheLayout.allocMem s L.self b))
    fun c hc => by
      have hc' := L.isCell_of_mem_blocks (p.mem_blocks_of_free (BlockPool.tail_mem_free hfree hc))
      have hdis := hc'.disjoint L hb (BlockPool.tail_ne_head hfree hc)
      rw [sizeofCacheInfo] at hsize
      exact nextLink_writeInfo_of_disjoint (by omega)
  refine ⟨_, _, hwritten.free (Finset.mem_insert_self b p.out), hfree.symm, ?_⟩
  rw [h.alloc_cons hfree]

end Record

/-! ### Both caches -/

/-- The free cells, in the order in which they are handed out. -/
def freeCells (s : CacheState) : List ℕ := chainFrom s.mem s.head.num s.head.next

theorem freeCells_eq {L : CacheLayout} {s : CacheClients} {p : BlockPool L.blocks}
    (h : L.Represents s p) : freeCells s.st = p.free := by
  rw [freeCells, h.num]
  exact h.linked.chainFrom

theorem alloc_ne_null_iff {L : CacheLayout} {s : CacheClients} {p : BlockPool L.blocks}
    (h : L.Represents s p) : (memCacheAlloc L.self s.st).1 ≠ 0 ↔ p.free ≠ [] := by
  cases hfree : p.free with
  | nil => simp [h.alloc_nil hfree]
  | cons b rest =>
    have hb : b ∈ L.blocks := BlockPool.head_mem_blocks hfree
    simp [h.alloc_cons hfree, L.ne_null_of_mem_blocks hb]

/-- Both caches in some state. -/
structure CachePools where
  infoLayout : CacheLayout
  layout : CacheLayout
  sizeof_le_info : sizeofCacheInfo ≤ infoLayout.size
  sizeof_le : sizeofCacheChain ≤ layout.size
  infoClients : CacheClients
  clients : CacheClients
  infoPool : BlockPool infoLayout.blocks
  pool : BlockPool layout.blocks
  infoRepresents : infoLayout.Represents infoClients infoPool
  represents : layout.Represents clients pool

namespace CachePools

variable (P : CachePools) (u : Unset) (size : UInt64)

/-- A call of `file_cache_to_client`. -/
def call (r : InfoFields) (file : Option (List UInt8)) : Except Fault (ℤ × List Access × Caches) :=
  fileCacheToClientTrace P.infoLayout.self P.layout.self u r size file
    { info := P.infoClients.st, shm := P.clients.st }

/-- The record. -/
def new : ℕ := (memCacheAlloc P.infoLayout.self P.infoClients.st).1

/-- The first cell. -/
def head : ℕ := (memCacheAlloc P.layout.self P.clients.st).1

/-- The cells where the loop begins. -/
def first : CacheState :=
  { (memCacheAlloc P.layout.self P.clients.st).2 with
    mem := (memCacheAlloc P.layout.self P.clients.st).2.mem.store64 (P.head + 16)
      (u.tmp + sizeofCacheChain) }

/-- There is a record and a first cell, but a cell is missing in the loop, which leaves the cells as
given. -/
def RunsOut (shm : CacheState) : Prop :=
  P.new ≠ 0 ∧ P.head ≠ 0 ∧
    preAlloc P.layout.self P.clients.st.head.num (cellNum size) P.head (P.first u) =
      .ok (false, shm)

/-- The same cells and records are free as before, each cell of the chain was freed once and nothing
else was, and no cell was read that had been freed. -/
structure RolledBack (chain : List ℕ) (trace : List Access) (s : Caches) : Prop where
  shm_eq : freeCells s.shm = freeCells P.clients.st
  info_eq : freeCells s.info = freeCells P.infoClients.st
  info_num : s.info.head.num = P.infoClients.st.head.num
  nodup : (trace.filterMap Access.freed).Nodup
  mem_iff : ∀ c, c ∈ trace.filterMap Access.freed ↔ c ∈ chain
  unfreed : trace.Pairwise (Unfreed (chain.map fun c => (c, P.layout.size)))

variable {P u size} {b : ℕ} {rest : List ℕ}

/-- With a free cell there is a chain of one. -/
theorem chain_first (hfree : P.pool.free = b :: rest) :
    P.head = b ∧ ∃ s, s.st = P.first u ∧ Chain s (P.pool.alloc b rest hfree) b b [] := by
  have hhead : P.head = b := by
    rw [head, P.represents.alloc_cons hfree]
  refine ⟨hhead, _, ?_, Chain.start P.represents hfree (u.tmp + sizeofCacheChain) P.sizeof_le⟩
  rw [first, hhead, P.represents.alloc_cons hfree]

/-- A cell is missing in the loop exactly if there is a record and a cell, and more cells are asked
for than there are, or a number that is not positive. -/
theorem exists_runsOut_iff : (∃ shm, P.RunsOut u size shm) ↔ P.infoPool.free ≠ [] ∧
    P.pool.free ≠ [] ∧ (cellNum size ≤ 0 ∨ P.pool.free.length < cellNum size) := by
  rw [← alloc_ne_null_iff P.infoRepresents]
  cases hfree : P.pool.free with
  | nil =>
    have hnull : ¬P.head ≠ 0 := fun h => (alloc_ne_null_iff P.represents).mp h hfree
    exact iff_of_false (fun ⟨_, h⟩ => hnull h.2.1) fun h => h.2.1 rfl
  | cons b rest =>
    obtain ⟨hhead, s, hs, hchain⟩ := chain_first (u := u) hfree
    have hnull : P.head ≠ 0 := (alloc_ne_null_iff P.represents).mpr (by simp [hfree])
    have hnum : rest.length < P.clients.st.head.num := by
      rw [P.represents.num, hfree]
      exact Nat.lt_succ_self _
    have hshort := @preAlloc_short_iff _ _ _ _ _ _ _ (cellNum size) hchain P.sizeof_le hnum
    have hrest : (P.pool.alloc b rest hfree).free = rest := rfl
    rw [hs, hrest, ← hhead] at hshort
    rw [List.length_cons]
    push_cast
    constructor
    · rintro ⟨shm, hnew, -, hrun⟩
      exact ⟨hnew, List.cons_ne_nil b rest, hshort.mp ⟨shm, hrun⟩⟩
    · rintro ⟨hnew, -, hnum⟩
      obtain ⟨shm, hrun⟩ := hshort.mpr hnum
      exact ⟨shm, hnew, hnull, hrun⟩

/-- What is left of a call in which a cell is missing: the record and the cells are given back. -/
theorem call_eq {shm shm' info : CacheState} (hrun : P.RunsOut u size shm) {trace : List Access}
    {r : InfoFields} (hinfo : info = memCacheFree P.new P.infoLayout.self
      { (memCacheAlloc P.infoLayout.self P.infoClients.st).2 with
        mem := writeInfo P.new r size (memCacheAlloc P.infoLayout.self P.infoClients.st).2.mem })
    (hdestroy : memCacheDestroyTrace P.layout.self P.clients.st.head.num P.head shm =
      .ok (trace, shm')) (file : Option (List UInt8)) :
    P.call u size r file = .ok (nonCacheMem, trace, { info := info, shm := shm' }) := by
  obtain ⟨hnew, hhead, hloop⟩ := hrun
  rw [new] at hnew hinfo
  rw [head] at hhead hloop hdestroy
  rw [first, head] at hloop
  rw [call, fileCacheToClientTrace]
  simp only [if_neg hnew, if_neg hhead]
  rw [hloop, ok_bind]
  dsimp only
  rw [hdestroy, hinfo]
  rfl

/-- The reads free nothing. -/
theorem filterMap_freed {reads : List Access} (hreads : ∀ a ∈ reads, ∃ x, a = Access.read x)
    (chain : List ℕ) : (reads ++ chain.map Access.free).filterMap Access.freed = chain := by
  have hnone : reads.filterMap Access.freed = [] := List.filterMap_eq_nil_iff.mpr fun a ha => by
    obtain ⟨x, rfl⟩ := hreads a ha
    rfl
  rw [List.filterMap_append, hnone, List.filterMap_map, List.nil_append]
  exact List.filterMap_some

/-- Reads that come first are not of what has been freed. -/
theorem pairwise_unfreed {reads : List Access} (hreads : ∀ a ∈ reads, ∃ x, a = Access.read x)
    (chain : List ℕ) (regions : List (ℕ × ℕ)) :
    (reads ++ chain.map Access.free).Pairwise (Unfreed regions) := by
  have hread (a : Access) (ha : a ∈ reads) (b : Access) : Unfreed regions a b := by
    obtain ⟨x, rfl⟩ := hreads a ha
    trivial
  refine List.pairwise_append.mpr ⟨?_, List.pairwise_map.mpr ?_, fun a ha b _ => hread a ha b⟩
  · exact List.pairwise_of_forall_mem_list fun a ha b _ => hread a ha b
  · exact List.pairwise_of_forall fun _ _ => trivial

/-- **Rollback.** If a cell is missing, the call returns `NON_CACHE_MEM` and has taken back what it
did. -/
theorem rolledBack {shm : CacheState} (hrun : P.RunsOut u size shm) (r : InfoFields)
    (file : Option (List UInt8)) : ∃ chain trace s, P.call u size r file =
      .ok (nonCacheMem, trace, s) ∧ Linked shm.mem 0 P.head chain ∧ P.RolledBack chain trace s := by
  have ⟨hnew, hhead, hloop⟩ := hrun
  obtain ⟨b, rest, hfree⟩ :=
    List.exists_cons_of_ne_nil ((alloc_ne_null_iff P.represents).mp hhead)
  obtain ⟨hb, s₀, hs₀, hfirst⟩ := chain_first (u := u) hfree
  -- the chain has all the cells that were free
  rw [← hs₀, hb] at hloop
  obtain ⟨s, p, prev, init, rfl, hchain, hcells, hnone⟩ :=
    preAlloc_short hfirst P.sizeof_le hloop
  have hall : init ++ [prev] = P.pool.free := by
    rw [hcells, hfree]
    rfl
  have hlength : (init ++ [prev]).length ≤ P.clients.st.head.num := by
    rw [hall, P.represents.num]
  -- they are freed
  obtain ⟨reads, s', p', hdestroy, hreads, hrep, hback, -⟩ := memCacheDestroyTrace_spec
    hchain.represents hchain.linked (by simp) hchain.out hchain.nodup hlength
  -- and so is the record
  obtain ⟨si, pi, hinfo, hinfoback, hsi⟩ :=
    represents_writeInfo P.infoRepresents ((alloc_ne_null_iff P.infoRepresents).mp hnew)
      P.sizeof_le_info r size
  rw [← hb] at hdestroy
  have hfreed := filterMap_freed hreads (init ++ [prev]).reverse
  refine ⟨init ++ [prev], _, _, call_eq hrun hsi hdestroy file, ?_, ?_, ?_, ?_, ?_, fun c => ?_,
    pairwise_unfreed hreads _ _⟩
  · rw [hb]
    exact hchain.linked
  · rw [freeCells_eq hrep, hback, hnone, List.append_nil, hall, freeCells_eq P.represents]
  · rw [freeCells_eq hinfo, hinfoback, freeCells_eq P.infoRepresents]
  · rw [hinfo.num, hinfoback, P.infoRepresents.num]
  · rw [hfreed]
    exact List.nodup_reverse.mpr hchain.nodup
  · rw [hfreed, List.mem_reverse]

/-- One record and forty cells, all of them free. -/
def fortyCells : CachePools where
  infoLayout := ⟨16, 65536, 48, 1, by decide, by decide, by decide, by decide⟩
  layout := ShmPool.fortyCells.layout
  sizeof_le_info := by decide
  sizeof_le := by decide
  infoClients := CacheLayout.init _ fun _ => 0
  clients := ShmPool.fortyCells.clients
  infoPool := BlockPool.full _ (CacheLayout.cells_nodup _)
  pool := ShmPool.fortyCells.pool
  infoRepresents := CacheLayout.represents_init _ _
  represents := ShmPool.fortyCells.represents

/-- A file of one byte asks for a number of cells that is not positive. -/
theorem rolledBack_fortyCells : ∃ (shm : CacheState) (chain : List ℕ) (trace : List Access)
    (s : Caches), fortyCells.call ⟨0, 0, 0⟩ 1 ⟨0, 0, 0⟩ none = .ok (nonCacheMem, trace, s) ∧
      Linked shm.mem 0 fortyCells.head chain ∧ fortyCells.RolledBack chain trace s := by
  have hout : ∃ shm, fortyCells.RunsOut ⟨0, 0, 0⟩ 1 shm :=
    exists_runsOut_iff.mpr ⟨by decide, by decide, Or.inl (by decide)⟩
  obtain ⟨shm, hrun⟩ := hout
  exact ⟨shm, rolledBack hrun ⟨0, 0, 0⟩ none⟩

end CachePools

end Cache

end Lidas
