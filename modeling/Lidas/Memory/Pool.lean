import Lidas.Lib.CString

/-!
# The per-connection pool of `memory.c`

A pool is a chain of pages. Each page starts with its `struct mem_pool_head` and is handed
out from the front; larger sizes go to `malloc` and are recorded in a chain of their own,
whose cells come from the pages. Pointers into the pool are a page and an offset.

`mem_pool_alloc` looks for a page with enough space and means to add one when there is none.
By then its pointer has run off the chain, so `p->next = new` uses `NULL`.
-/

namespace Lidas

/-- `PAGE_SIZ`. -/
def pageSiz : ℕ := 4096

/-- `sizeof (struct mem_pool_head)`: five pointers. -/
def sizeofMemPoolHead : ℕ := 40

/-- `sizeof (struct mem_pool_large)`: three pointers. -/
def sizeofMemPoolLarge : ℕ := 24

/-- `POOL_SIZ`. -/
def poolSiz : ℕ := pageSiz - sizeofMemPoolHead

/-- A page of a pool: the offset of its free part and its bytes. -/
structure PoolPage where
  start : ℕ
  mem : Block

/-- The chain of pages and the sizes of the large blocks. -/
structure MemPool where
  pages : List PoolPage
  large : List ℕ

/-- A pointer that `mem_pool_alloc` returned. -/
inductive PoolPtr where
  | page (i off : ℕ)
  | large (i : ℕ)
  deriving DecidableEq

/-- `mem_pool_creat`, with `mem` what `malloc` returned. -/
def memPoolCreat (mem : Block) : MemPool :=
  { pages := [{ start := sizeofMemPoolHead, mem := mem }], large := [] }

/-- The `for` loop of `mem_pool_alloc` and the step after it: the first page with enough
space, its position counted from `i`, and the chain with its free part moved. -/
def browse (size : ℕ) : ℕ → List PoolPage → Except Fault (PoolPtr × List PoolPage)
  | _, [] => .error .nullDeref
  | i, p :: ps =>
    if size ≤ pageSiz - p.start then
      .ok (.page i p.start, { p with start := p.start + size } :: ps)
    else do
      let (ptr, ps') ← browse size (i + 1) ps
      return (ptr, p :: ps')

/-- `mem_pool_alloc` for a size that fits a page. -/
def pageAlloc (size : ℕ) (p : MemPool) : Except Fault (PoolPtr × MemPool) := do
  let (ptr, pages) ← browse size 0 p.pages
  return (ptr, { p with pages := pages })

/-- `mem_pool_alloc`; a large block is entered by `mem_pool_add`. -/
def memPoolAlloc (size : ℕ) (p : MemPool) : Except Fault (PoolPtr × MemPool) :=
  if poolSiz < size then do
    let (_, p) ← pageAlloc sizeofMemPoolLarge p
    return (.large p.large.length, { p with large := p.large ++ [size] })
  else
    pageAlloc size p

/-- Calls of `mem_pool_alloc`, one after the other: the pointers, each with its size. -/
def memPoolAllocs : List ℕ → MemPool → Except Fault (List (PoolPtr × ℕ))
  | [], _ => return []
  | size :: sizes, p => do
    let (ptr, p') ← memPoolAlloc size p
    return (ptr, size) :: (← memPoolAllocs sizes p')

/-- Two regions of a pool have a byte in common. -/
def Overlaps : PoolPtr × ℕ → PoolPtr × ℕ → Prop
  | (.page i off, n), (.page j off', m) => i = j ∧ off < off' + m ∧ off' < off + n
  | (.large i, _), (.large j, _) => i = j
  | _, _ => False

instance decidableOverlaps : (r r' : PoolPtr × ℕ) → Decidable (Overlaps r r')
  | (.page i off, n), (.page j off', m) =>
    inferInstanceAs (Decidable (i = j ∧ off < off' + m ∧ off' < off + n))
  | (.large i, _), (.large j, _) => inferInstanceAs (Decidable (i = j))
  | (.page _ _, _), (.large _, _) => isFalse id
  | (.large _, _), (.page _ _, _) => isFalse id

/-! ### What is served -/

/-- The number of bytes that a request takes from a page: a large block takes a cell. -/
def takenFromPage (size : ℕ) : ℕ := if poolSiz < size then sizeofMemPoolLarge else size

/-- One of the pages has room for a request. -/
def MemPool.Serves (p : MemPool) (size : ℕ) : Prop :=
  ∃ page ∈ p.pages, takenFromPage size ≤ pageSiz - page.start

theorem exists_browse {size : ℕ} {ps : List PoolPage} (h : ∃ page ∈ ps, size ≤ pageSiz - page.start)
    (i : ℕ) : ∃ r, browse size i ps = .ok r := by
  induction ps generalizing i with
  | nil => exact absurd h (by simp)
  | cons p ps ih =>
    rw [browse]
    split_ifs with hfits
    · exact ⟨_, rfl⟩
    · obtain ⟨page, hmem, hroom⟩ := h
      rcases List.mem_cons.mp hmem with rfl | hmem
      · exact absurd hroom hfits
      · obtain ⟨r, hr⟩ := ih ⟨page, hmem, hroom⟩ (i + 1)
        exact ⟨_, by rw [hr, ok_bind]; rfl⟩

theorem browse_eq_error {size : ℕ} {ps : List PoolPage}
    (h : ¬∃ page ∈ ps, size ≤ pageSiz - page.start) (i : ℕ) :
    browse size i ps = .error .nullDeref := by
  induction ps generalizing i with
  | nil => rfl
  | cons p ps ih =>
    have hp : ¬size ≤ pageSiz - p.start := fun hfits => h ⟨p, List.mem_cons_self, hfits⟩
    have hps : ¬∃ page ∈ ps, size ≤ pageSiz - page.start := fun ⟨page, hmem, hfits⟩ =>
      h ⟨page, List.mem_cons_of_mem p hmem, hfits⟩
    rw [browse, if_neg hp, ih hps]
    rfl

/-- A request that a page has room for is served. -/
theorem MemPool.Serves.exists_memPoolAlloc {p : MemPool} {size : ℕ} (h : p.Serves size) :
    ∃ r, memPoolAlloc size p = .ok r := by
  obtain ⟨⟨ptr, pages⟩, hbrowse⟩ := exists_browse h 0
  rw [memPoolAlloc, pageAlloc, pageAlloc]
  rw [takenFromPage] at hbrowse
  split_ifs at hbrowse ⊢
  · rw [hbrowse]
    exact ⟨_, rfl⟩
  · rw [hbrowse]
    exact ⟨_, rfl⟩

/-- Any other request ends at the `NULL` behind the chain. -/
theorem memPoolAlloc_eq_error {p : MemPool} {size : ℕ} (h : ¬p.Serves size) :
    memPoolAlloc size p = .error .nullDeref := by
  have hbrowse := browse_eq_error h 0
  rw [memPoolAlloc, pageAlloc, pageAlloc]
  rw [takenFromPage] at hbrowse
  split_ifs at hbrowse ⊢
  · rw [hbrowse]
    rfl
  · rw [hbrowse]
    rfl

/-! ### A pool of one page -/

section OnePage

variable {p : MemPool} {mem : Block} {used size : ℕ}

/-- What is no large block is taken from the front of the free part of the page. -/
theorem memPoolAlloc_page (size : ℕ) (hp : p.pages = [⟨sizeofMemPoolHead + used, mem⟩])
    (hfits : used + size ≤ poolSiz) :
    memPoolAlloc size p = .ok (.page 0 (sizeofMemPoolHead + used),
      { p with pages := [⟨sizeofMemPoolHead + used + size, mem⟩] }) := by
  have hsizes : pageSiz = 4096 ∧ sizeofMemPoolHead = 40 ∧ poolSiz = 4056 := by decide
  obtain ⟨hpage, hhead, hpool⟩ := hsizes
  rw [memPoolAlloc, if_neg (by omega), pageAlloc, hp, browse, if_pos (by dsimp only; omega),
    ok_bind]
  rfl

/-- What comes from the page comes from the front of its free part. -/
theorem of_memPoolAlloc {start : ℕ} {ret : PoolPtr × MemPool} (hp : p.pages = [⟨start, mem⟩])
    (hsize : size ≤ poolSiz) (h : memPoolAlloc size p = .ok ret) :
    size ≤ pageSiz - start ∧
      ret = (.page 0 start, { p with pages := [⟨start + size, mem⟩] }) := by
  rw [memPoolAlloc, if_neg (not_lt.mpr hsize), pageAlloc, hp, browse] at h
  by_cases hfits : size ≤ pageSiz - start
  · rw [if_pos hfits, ok_bind] at h
    exact ⟨hfits, (Except.ok.inj h).symm⟩
  · rw [if_neg hfits, browse] at h
    cases h

/-- A request of some bytes that is no large block is served if it fits the page. -/
theorem memPoolAlloc_iff {start : ℕ} {ret : PoolPtr × MemPool} (hp : p.pages = [⟨start, mem⟩])
    (hpos : 0 < size) (hsize : size ≤ poolSiz) :
    memPoolAlloc size p = .ok ret ↔ start + size ≤ pageSiz ∧
      ret = (.page 0 start, { p with pages := [⟨start + size, mem⟩] }) := by
  constructor
  · intro h
    obtain ⟨hfits, hret⟩ := of_memPoolAlloc hp hsize h
    exact ⟨by omega, hret⟩
  · rintro ⟨hfits, rfl⟩
    rw [memPoolAlloc, if_neg (not_lt.mpr hsize), pageAlloc, hp, browse,
      if_pos (by dsimp only; omega), ok_bind]
    rfl

/-- A large block is served if the page has room for its cell. -/
theorem memPoolAlloc_large_iff {start : ℕ} {ret : PoolPtr × MemPool}
    (hp : p.pages = [⟨start, mem⟩]) (hsize : poolSiz < size) :
    memPoolAlloc size p = .ok ret ↔ start + sizeofMemPoolLarge ≤ pageSiz ∧
      ret = (.large p.large.length,
        { pages := [⟨start + sizeofMemPoolLarge, mem⟩], large := p.large ++ [size] }) := by
  have hcell (r : PoolPtr × MemPool) : pageAlloc sizeofMemPoolLarge p = .ok r ↔
      start + sizeofMemPoolLarge ≤ pageSiz ∧
        r = (.page 0 start, { p with pages := [⟨start + sizeofMemPoolLarge, mem⟩] }) :=
    @memPoolAlloc_iff p mem sizeofMemPoolLarge start r hp (by decide) (by decide)
  rw [memPoolAlloc, if_pos hsize]
  constructor
  · intro h
    obtain ⟨r, hr, h⟩ := bind_eq_ok.mp h
    obtain ⟨hroom, rfl⟩ := (hcell r).mp hr
    exact ⟨hroom, (Except.ok.inj h).symm⟩
  · rintro ⟨hroom, rfl⟩
    rw [(hcell _).mpr ⟨hroom, rfl⟩]
    rfl

end OnePage

end Lidas
