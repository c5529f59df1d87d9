import Lidas.Memory.Cache

/-!
# Where the blocks of a cache lie

`mem_cache_creat` allocates a head and `n` blocks, and gives `mem_cache_locate` the address that is
`sizeof (struct mem_cache_head)` behind the head as the pointer arithmetic of C has it, in units of
the head: 576 bytes instead of 24. So the blocks end 552 bytes behind the allocation. In front of
its last block, or of the first one that ends outside, nothing goes wrong, whatever the size is: the
links there are those of `cell`, and `mem_cache_alloc` hands them out one after the other.
-/

namespace Lidas

/-- `sizeof (struct mem_cache_head)`: a `size_t`, an `int` with its padding and a pointer. -/
def sizeofMemCacheHead : ℕ := 24

/-- `mem_cache_creat`, for the address that `malloc` returns. -/
def memCacheCreat (base size n : ℕ) (m : Mem) : CacheState :=
  memCacheLocate { mem := m, head := { size := size, num := n, next := 0 } }
    (base + sizeofMemCacheHead * sizeofMemCacheHead) size

/-- What the given number of calls of `mem_cache_alloc` return. -/
def handOut (self : ℕ) : ℕ → CacheState → List ℕ
  | 0, _ => []
  | k + 1, s => (memCacheAlloc self s).1 :: handOut self k (memCacheAlloc self s).2

/-- A call of `mem_cache_creat`: the address that `malloc` returns and the arguments. -/
structure Creat where
  base : ℕ
  size : ℕ
  n : ℕ
  base_ne_null : base ≠ 0
  sizeof_le_size : sizeofMemCache ≤ size
  n_pos : 1 ≤ n
  in_memory : base + sizeofMemCacheHead + n * size ≤ 2 ^ 64

namespace Creat

variable (C : Creat)

/-- In the allocation, and behind the head. -/
def Inside (x : ℕ) : Prop :=
  C.base + sizeofMemCacheHead ≤ x ∧ x < C.base + sizeofMemCacheHead + C.n * C.size

/-- `mem_cache_locate` writes the byte: not every memory has it unchanged. -/
def Writes (x : ℕ) : Prop := ∃ m, (memCacheCreat C.base C.size C.n m).mem x ≠ m x

/-- The blocks that `mem_cache_alloc` hands out. -/
def blocks (m : Mem) : List ℕ := handOut C.base C.n (memCacheCreat C.base C.size C.n m)

/-- The links and the blocks lie in the allocation, and no two blocks overlap. -/
def FitsIn : Prop :=
  (∀ x, C.Writes x → C.Inside x) ∧ ∀ m,
    (∀ b ∈ C.blocks m, ∀ i < C.size, C.Inside (b + i)) ∧
    (C.blocks m).Pairwise fun a b => a + C.size ≤ b ∨ b + C.size ≤ a

/-- The address of a block, if it does not wrap around. -/
def cell (i : ℕ) : ℕ := C.base + sizeofMemCacheHead * sizeofMemCacheHead + i * C.size

end Creat

/-! ### The links -/

theorem nextLink_writeLinks_mod (m : Mem) (b prev next : ℕ) :
    nextLink (writeLinks m b prev next) b = next % 2 ^ 64 :=
  Mem.load64_store64_mod ..

/-- A link is that of another memory with the same bytes there. -/
theorem nextLink_congr {m m' : Mem} {b : ℕ} (h : ∀ x, b + 8 ≤ x → x < b + 16 → m x = m' x) :
    nextLink m b = nextLink m' b :=
  Mem.load64_congr fun i hi => h (b + 8 + i) (Nat.le_add_right _ _) (by omega)

/-- The loop writes the links of the cells that it comes to, and nothing else. -/
theorem locateLoop_of_outside {size : ℕ} (k : ℕ) {p : ℕ} (m : Mem) {x : ℕ} (hp : p < 2 ^ 64)
    (h : ∀ j < k, x < (p + j * size) % 2 ^ 64 ∨ (p + j * size) % 2 ^ 64 + 16 ≤ x) :
    locateLoop size k p m x = m x := by
  induction k generalizing p m with
  | zero => rfl
  | succ k ih =>
    have hfirst := h 0 (Nat.succ_pos k)
    rw [Nat.zero_mul, Nat.add_zero, Nat.mod_eq_of_lt hp] at hfirst
    rw [locateLoop]
    rw [nextLink_writeLinks_mod, ih _ (Nat.mod_lt _ (by decide)) fun j hj => ?_]
    · exact writeLinks_of_outside hfirst
    · have hmod : ((p + size) % 2 ^ 64 + j * size) % 2 ^ 64 = (p + (j + 1) * size) % 2 ^ 64 := by
        rw [Nat.mod_add_mod, Nat.add_mul, Nat.one_mul, Nat.add_assoc, Nat.add_comm size]
      rw [hmod]
      exact h (j + 1) (Nat.succ_lt_succ hj)

/-- A cell that the loop comes to is linked to the next one, if it comes to no cell that overlaps
the links of this one. -/
theorem nextLink_locateLoop {size : ℕ} (k : ℕ) {p : ℕ} (m : Mem) (hp : p < 2 ^ 64) {i : ℕ}
    (hi : i < k) (h : ∀ j < k, j ≠ i →
      (p + i * size) % 2 ^ 64 + 16 ≤ (p + j * size) % 2 ^ 64 ∨
        (p + j * size) % 2 ^ 64 + 16 ≤ (p + i * size) % 2 ^ 64) :
    nextLink (locateLoop size k p m) ((p + i * size) % 2 ^ 64) = (p + (i + 1) * size) % 2 ^ 64 := by
  induction k generalizing p m i with
  | zero => exact absurd hi (Nat.not_lt_zero i)
  | succ k ih =>
    have hshift (j : ℕ) : ((p + size) % 2 ^ 64 + j * size) % 2 ^ 64 =
        (p + (j + 1) * size) % 2 ^ 64 := by
      rw [Nat.mod_add_mod, Nat.add_mul, Nat.one_mul, Nat.add_assoc, Nat.add_comm size]
    have hlt : (p + size) % 2 ^ 64 < 2 ^ 64 := Nat.mod_lt _ (by decide)
    rw [locateLoop]
    rw [nextLink_writeLinks_mod]
    cases i with
    | zero =>
      have hzero : (p + 0 * size) % 2 ^ 64 = p := by
        rw [Nat.zero_mul, Nat.add_zero, Nat.mod_eq_of_lt hp]
      simp only [hzero] at h ⊢
      rw [Nat.zero_add, Nat.one_mul]
      refine Eq.trans (nextLink_congr fun x hle hx => ?_) (nextLink_writeLinks_mod m p (p - size) _)
      refine locateLoop_of_outside k _ hlt fun j hj => ?_
      rw [hshift]
      have hdis := h (j + 1) (Nat.succ_lt_succ hj) (Nat.succ_ne_zero j)
      omega
    | succ i =>
      rw [← hshift i, ← hshift (i + 1)]
      refine ih _ hlt (Nat.lt_of_succ_lt_succ hi) fun j hj hji => ?_
      rw [hshift, hshift]
      exact h (j + 1) (Nat.succ_lt_succ hj) fun heq => hji (Nat.succ_injective heq)

theorem handOut_prefix (self : ℕ) (k r : ℕ) (s : CacheState) :
    handOut self k s <+: handOut self (k + r) s := by
  induction k generalizing s with
  | zero => exact List.nil_prefix
  | succ k ih =>
    rw [Nat.succ_add]
    exact List.cons_prefix_cons.mpr ⟨rfl, ih _⟩

namespace Creat

variable {C : Creat} {k : ℕ}

theorem cell_zero (C : Creat) :
    C.base + sizeofMemCacheHead * sizeofMemCacheHead = C.cell 0 := by
  rw [cell, Nat.zero_mul, Nat.add_zero]

theorem cell_succ (C : Creat) (i : ℕ) : C.cell (i + 1) = C.cell i + C.size := by
  rw [cell, cell, Nat.succ_mul, ← Nat.add_assoc]

theorem cell_add_size_le (C : Creat) {i j : ℕ} (h : i < j) : C.cell i + C.size ≤ C.cell j := by
  rw [← cell_succ, cell, cell]
  exact Nat.add_le_add_left (Nat.mul_le_mul_right _ h) _

theorem cell_eq (C : Creat) (i : ℕ) : C.cell i = C.base + 576 + i * C.size := rfl

/-- An address that wraps around is in front of the blocks. -/
theorem cell_mod_lt (C : Creat) {i : ℕ} (hi : i ≤ C.n) (hle : 2 ^ 64 ≤ C.cell i) :
    C.cell i % 2 ^ 64 + 16 ≤ C.base + 576 := by
  have hmul : i * C.size ≤ C.n * C.size := Nat.mul_le_mul_right _ hi
  have hmem : C.base + 24 + C.n * C.size ≤ 2 ^ 64 := C.in_memory
  have hne := C.base_ne_null
  rw [cell_eq] at hle ⊢
  omega

/-- A cell that ends in memory does not overlap the links of another one. -/
theorem cell_disjoint (hk : ∀ j < k, C.cell j + C.size ≤ 2 ^ 64) {i j : ℕ} (hj : j < k)
    (hi : i ≤ C.n) (hij : i ≠ j) :
    C.cell j + 16 ≤ C.cell i % 2 ^ 64 ∨ C.cell i % 2 ^ 64 + 16 ≤ C.cell j := by
  have hs : 16 ≤ C.size := C.sizeof_le_size
  have hend := hk j hj
  rcases Nat.lt_or_gt_of_ne hij with hlt | hlt
  · have hle := C.cell_add_size_le hlt
    rw [Nat.mod_eq_of_lt (by omega)]
    omega
  · have hle := C.cell_add_size_le hlt
    rcases Nat.lt_or_ge (C.cell i) (2 ^ 64) with hin | hout
    · rw [Nat.mod_eq_of_lt hin]
      omega
    · have hfront := C.cell_mod_lt hi hout
      have hcell := C.cell_eq j
      omega

/-- The links of the cells that end in memory. -/
theorem nextLink_creat (hkn : k ≤ C.n) (hk : ∀ j < k, C.cell j + C.size ≤ 2 ^ 64) (m : Mem) {i : ℕ}
    (hi : i < k) :
    nextLink (memCacheCreat C.base C.size C.n m).mem (C.cell i) = C.cell (i + 1) % 2 ^ 64 := by
  have hs : 16 ≤ C.size := C.sizeof_le_size
  have hshift (j : ℕ) : (C.cell 1 % 2 ^ 64 + j * C.size) % 2 ^ 64 = C.cell (j + 1) % 2 ^ 64 := by
    rw [Nat.mod_add_mod, cell_eq, cell_eq, Nat.succ_mul j, Nat.one_mul]
    congr 1
    omega
  have hlt : C.cell 1 % 2 ^ 64 < 2 ^ 64 := Nat.mod_lt _ (by decide)
  rw [memCacheCreat, memCacheLocate, C.cell_zero, ← cell_succ]
  dsimp only
  rw [nextLink_writeLinks_mod]
  cases i with
  | zero =>
    refine Eq.trans (nextLink_congr fun x hle hx => ?_) (nextLink_writeLinks_mod m _ 0 _)
    refine locateLoop_of_outside C.n _ hlt fun j hj => ?_
    rw [hshift]
    have hdis := cell_disjoint (i := j + 1) hk hi (Nat.succ_le_of_lt hj) (Nat.succ_ne_zero j)
    omega
  | succ i =>
    have hend := hk (i + 1) hi
    have hself : C.cell (i + 1) = (C.cell 1 % 2 ^ 64 + i * C.size) % 2 ^ 64 := by
      rw [hshift, Nat.mod_eq_of_lt (by omega)]
    rw [← hshift (i + 1), hself]
    refine nextLink_locateLoop C.n _ hlt (by omega) fun j hj hji => ?_
    rw [← hself, hshift]
    exact cell_disjoint hk hi (Nat.succ_le_of_lt hj) fun heq => hji (Nat.succ_injective heq)

/-- The cells are handed out one after the other, up to the first one that does not end in memory.
-/
theorem handOut_eq (hkn : k < C.n) (hk : ∀ j < k, C.cell j + C.size ≤ 2 ^ 64) (r : ℕ) {j : ℕ}
    (hr : j + r ≤ k + 1) {s : CacheState} (hsize : s.head.size = C.size)
    (hnum : s.head.num = C.n - j) (hnext : s.head.next = C.cell j % 2 ^ 64)
    (hlinks : ∀ i, j ≤ i → i < k → nextLink s.mem (C.cell i) = C.cell (i + 1) % 2 ^ 64) :
    handOut C.base r s = (List.range' j r).map fun i => C.cell i % 2 ^ 64 := by
  have hs : 16 ≤ C.size := C.sizeof_le_size
  induction r generalizing j s with
  | zero => rfl
  | succ r ih =>
    have hnum0 : s.head.num ≠ 0 := by omega
    rw [handOut, List.range'_succ, List.map_cons, memCacheAlloc, if_neg C.base_ne_null,
      if_neg hnum0]
    refine congrArg₂ List.cons hnext ?_
    -- behind the last call no link is read any more
    rcases Nat.eq_zero_or_pos r with rfl | hpos
    · rfl
    have hj : j < k := by omega
    have hend := hk j hj
    have hself : s.head.next = C.cell j := by
      rw [hnext, Nat.mod_eq_of_lt (by omega)]
    have hlink := hlinks j le_rfl hj
    refine ih (by omega) hsize ?_ ?_ fun i hji hik => ?_
    · dsimp only
      omega
    · dsimp only
      rw [hself, hlink]
    · dsimp only
      rw [hself, hlink, hsize, ← hlinks i (by omega) hik]
      refine Mem.load64_congr fun x hx => ?_
      have hle := C.cell_add_size_le (Nat.lt_of_succ_le hji)
      rw [Mem.memset_of_outside (by omega)]
      refine Mem.store64_of_outside ?_
      rcases eq_or_ne (j + 1) i with rfl | hne
      · have hin := hk (j + 1) hik
        rw [Nat.mod_eq_of_lt (by omega)]
        omega
      · have hdis := cell_disjoint hk hik (show j + 1 ≤ C.n by omega) hne
        omega

/-- So it is after `mem_cache_creat`. -/
theorem handOut_creat (hkn : k < C.n) (hk : ∀ j < k, C.cell j + C.size ≤ 2 ^ 64)
    (hfirst : C.cell 0 < 2 ^ 64) {r : ℕ} (hr : r ≤ k + 1) (m : Mem) :
    handOut C.base r (memCacheCreat C.base C.size C.n m) =
      (List.range r).map fun i => C.cell i % 2 ^ 64 := by
  have hzero : C.base + sizeofMemCacheHead * sizeofMemCacheHead = C.cell 0 % 2 ^ 64 := by
    rw [Nat.mod_eq_of_lt hfirst, cell_zero]
  rw [List.range_eq_range']
  exact handOut_eq hkn hk r (by omega) rfl rfl hzero fun i _ hik => nextLink_creat hkn.le hk m hik

/-- The first block. -/
theorem cell_zero_mem_blocks (C : Creat) (m : Mem) : C.cell 0 ∈ C.blocks m := by
  obtain ⟨n, hn⟩ := Nat.exists_eq_succ_of_ne_zero (Nat.ne_of_gt C.n_pos)
  have hnum0 : C.n ≠ 0 := Nat.ne_of_gt C.n_pos
  have hfirst : (memCacheAlloc C.base (memCacheCreat C.base C.size C.n m)).1 = C.cell 0 := by
    rw [memCacheAlloc, if_neg C.base_ne_null, memCacheCreat, memCacheLocate, if_neg hnum0]
    exact C.cell_zero
  rw [blocks, hn, handOut, ← hn, hfirst]
  exact List.mem_cons_self

/-- A cell is handed out if the cells in front of it end in memory. -/
theorem cell_mod_mem_blocks (hkn : k < C.n) (hpos : 0 < k)
    (hk : ∀ j < k, C.cell j + C.size ≤ 2 ^ 64) (m : Mem) : C.cell k % 2 ^ 64 ∈ C.blocks m := by
  have hs : 16 ≤ C.size := C.sizeof_le_size
  have hend := hk 0 hpos
  obtain ⟨r, hr⟩ := Nat.exists_eq_add_of_le hkn
  have hprefix := handOut_prefix C.base (k + 1) r (memCacheCreat C.base C.size C.n m)
  rw [← hr, handOut_creat hkn hk (by omega) le_rfl] at hprefix
  exact hprefix.subset (List.mem_map.mpr ⟨k, List.mem_range.mpr (Nat.lt_succ_self k), rfl⟩)

/-- Where the addresses go on behind the allocation, the blocks are the cells. -/
theorem blocks_eq (h : C.cell C.n ≤ 2 ^ 64) (m : Mem) :
    C.blocks m = (List.range C.n).map C.cell := by
  have hs : 16 ≤ C.size := C.sizeof_le_size
  have hlt {i : ℕ} (hi : i < C.n) : C.cell i < 2 ^ 64 := by
    have hle := C.cell_add_size_le hi
    omega
  have hlast : C.n - 1 < C.n := Nat.sub_one_lt_of_lt C.n_pos
  have hk (j : ℕ) (hj : j < C.n - 1) : C.cell j + C.size ≤ 2 ^ 64 :=
    (C.cell_add_size_le (hj.trans hlast)).trans h
  rw [blocks, handOut_creat hlast hk (hlt C.n_pos) (by omega)]
  exact List.map_congr_left fun i hi => Nat.mod_eq_of_lt (hlt (List.mem_range.mp hi))

/-- There they do not overlap. -/
theorem pairwise_blocks (h : C.cell C.n ≤ 2 ^ 64) (m : Mem) :
    (C.blocks m).Pairwise fun a b => a + C.size ≤ b := by
  rw [blocks_eq h]
  exact List.pairwise_map.mpr (List.pairwise_lt_range.imp C.cell_add_size_le)

/-- The first cell that does not end in the allocation. -/
theorem exists_first_outside (C : Creat) : ∃ k < C.n,
    C.base + 24 + C.n * C.size < C.cell k + C.size ∧
      ∀ j < k, C.cell j + C.size ≤ C.base + 24 + C.n * C.size := by
  have hlast : C.base + 24 + C.n * C.size < C.cell (C.n - 1) + C.size := by
    rw [← cell_succ, Nat.sub_add_cancel C.n_pos, cell_eq]
    omega
  have hex : ∃ k, C.base + 24 + C.n * C.size < C.cell k + C.size := ⟨C.n - 1, hlast⟩
  refine ⟨Nat.find hex, ?_, Nat.find_spec hex, fun j hj => Nat.le_of_not_lt (Nat.find_min hex hj)⟩
  exact Nat.lt_of_le_of_lt (Nat.find_min' hex hlast) (Nat.sub_one_lt_of_lt C.n_pos)

/-- **No allocation is large enough for its blocks.** -/
theorem not_fitsIn (C : Creat) : ¬C.FitsIn := by
  rintro ⟨-, hblocks⟩
  obtain ⟨hinside, -⟩ := hblocks fun _ => 0
  have hs : 16 ≤ C.size := C.sizeof_le_size
  have hmem : C.base + 24 + C.n * C.size ≤ 2 ^ 64 := C.in_memory
  obtain ⟨k, hkn, hk, hmin⟩ := C.exists_first_outside
  rcases Nat.eq_zero_or_pos k with rfl | hpos
  · obtain ⟨-, hlt⟩ := hinside _ (C.cell_zero_mem_blocks _) (C.size - 1) (by omega)
    have hend : C.cell 0 + (C.size - 1) < C.base + 24 + C.n * C.size := hlt
    omega
  · have hcell := cell_mod_mem_blocks hkn hpos (fun j hj => (hmin j hj).trans hmem) fun _ => 0
    have hprev : C.cell k ≤ C.base + 24 + C.n * C.size := by
      rw [← Nat.sub_add_cancel hpos, cell_succ]
      exact hmin _ (Nat.sub_one_lt_of_lt hpos)
    obtain ⟨hle, hlt⟩ := hinside _ hcell (C.size - 1) (by omega)
    have hstart : C.base + 24 ≤ C.cell k % 2 ^ 64 + (C.size - 1) := hle
    have hend : C.cell k % 2 ^ 64 + (C.size - 1) < C.base + 24 + C.n * C.size := hlt
    rcases (hprev.trans hmem).lt_or_eq with hin | hwrap
    · rw [Nat.mod_eq_of_lt hin] at hend
      omega
    · obtain ⟨hnull, -⟩ := hinside _ hcell 0 (by omega)
      have hfront : C.base + 24 ≤ C.cell k % 2 ^ 64 + 0 := hnull
      rw [hwrap, Nat.mod_self] at hfront
      omega

/-- One block of sixteen bytes is handed out where the allocation has already ended. -/
theorem not_forall_fitsIn : ¬∀ C : Creat, C.FitsIn := by
  intro h
  have hfits := h ⟨4096, 16, 1, by decide, by decide, by decide, by decide⟩
  obtain ⟨-, hlt⟩ := (hfits.2 fun _ => 0).1 _ (cell_zero_mem_blocks _ _) 0 (by decide)
  exact absurd hlt (by decide)

end Creat

end Lidas
