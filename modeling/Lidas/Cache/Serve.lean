import Lidas.Cache.Chain
import Lidas.Lib.Word
import Lidas.Send.StaticFile

/-!
# Storing a file in a chain, and serving it

`file_cache_to_client` reads a file into the cells of a chain, and `cache_to_client` writes a chain
to a client. The latter starts 576 bytes into a cell, as it adds the size of the header to a pointer
to one, and it writes as many bytes from every cell as fit behind a header, whatever the size of the
file. So there are always fewer bytes than the file has: a chain is 23 cells too short.
-/

namespace Lidas

/-- `memcpy` from a buffer. -/
def Mem.copy (m : Mem) (a : ℕ) (bs : List UInt8) : Mem := fun x =>
  if a ≤ x then bs.getD (x - a) (m x) else m x

namespace Cache

/-- `CACHE_CLIENT_ERR`. -/
def cacheClientErr : ℤ := -11

/-- `NON_CACHE_MEM`. -/
def nonCacheMem : ℤ := -22

/-- The `while (!feof (fp))` loop of `file_cache_to_client`, `file` being what is not yet read. A
call of `fread` returns the number of whole buffers, and `cnt` is 0 in the first round only. -/
def fillLoop (operand : ℕ) (file : List UInt8) (cnt : ℤ) (head : ℕ) (rest : UInt64) (m : Mem) :
    Except Fault Mem := do
  let addr ← if cnt = 0 then .ok operand
    else if head = 0 then .error .nullDeref else .ok (m.load64 (head + 16))
  let m := m.copy addr (file.take cacheBufsiz)
  let curSiz : UInt64 := if cacheBufsiz ≤ file.length then 1 else 0
  let rest := rest - curSiz
  if rest = 0 then return m
  if head = 0 then .error .nullDeref
  if h : cacheBufsiz ≤ file.length then
    fillLoop operand (file.drop cacheBufsiz) (cnt - 1) (nextLink m head) rest m
  else return m
termination_by file.length
decreasing_by simp [cacheBufsiz, sizeofCacheChain] at *; omega

/-- `file_cache_to_client`, `info` being the block for the record and `file` what `fopen` finds:
what it returns, and the cells. The label `POST_STRAT` is read as `POST_START`. -/
def fileCacheToClient (self info : ℕ) (u : Unset) (size : UInt64) (file : Option (List UInt8))
    (s : CacheState) : Except Fault (ℤ × CacheState) := do
  let postStart (head : ℕ) (s : CacheState) : Except Fault (ℤ × CacheState) :=
    match file with
    | none => .ok (cacheClientErr, s)
    | some content => do
      let m ← fillLoop u.operand content 0 head size s.mem
      return (0, { s with mem := m })
  if info = 0 then postStart u.head s
  else
    match ← allocCells self u size s with
    | .none s => postStart u.head s
    | .short s => return (nonCacheMem, s)
    | .chain head s => postStart head s

/-- What a run of `cache_to_client` has sent; `finished` says that it is not inside `write`. -/
structure Drained where
  sent : List UInt8
  finished : Bool

/-- The pointer with which a cell is begun: the sum is one of `struct cache_chain_t`. -/
def cellStart (buf : ℕ) : UInt64 := UInt64.ofNat (buf + sizeofCacheChain * sizeofCacheChain)

/-- The `n` bytes from an address on. -/
def bytesAt (m : Mem) (a n : ℕ) : List UInt8 := (List.range n).map fun i => m (a + i)

/-- The loops of `cache_to_client`, in the cell `buf` at `ptr`. What `write` returns is kept in a
`size_t`, which is never negative. -/
def drain (m : Mem) : List WriteRes → ℕ → UInt64 → UInt64 → Drained
  | [], _, _, _ => ⟨[], false⟩
  | w :: ws, buf, ptr, rest =>
    let size := w.cur rest
    let bytes := bytesAt m ptr.toNat (w.taken rest)
    if rest ≠ 0 then
      let d := drain m ws buf (ptr + size) (rest - size)
      { d with sent := bytes ++ d.sent }
    else
      let next := nextLink m buf
      if next = 0 then ⟨bytes, true⟩
      else
        let d := drain m ws next (cellStart next) (UInt64.ofNat cacheBufsiz)
        { d with sent := bytes ++ d.sent }

/-- `cache_to_client`. -/
def cacheToClient (m : Mem) (ws : List WriteRes) (buf : ℕ) : Drained :=
  drain m ws buf (cellStart buf) (UInt64.ofNat cacheBufsiz)

/-! ### What is served -/

/-- What is served from a cell. -/
def cellBytes (m : Mem) (c : ℕ) : List UInt8 := bytesAt m (cellStart c).toNat cacheBufsiz

section Drain

variable {m : Mem} {buf : ℕ} {ptr rest : UInt64} {cells : List ℕ}

@[simp] theorem length_bytesAt (m : Mem) (a n : ℕ) : (bytesAt m a n).length = n := by
  simp [bytesAt]

theorem bytesAt_add (m : Mem) (a n k : ℕ) :
    bytesAt m a (n + k) = bytesAt m a n ++ bytesAt m (a + n) k := by
  simp [bytesAt, List.range_add, Nat.add_assoc, Function.comp_def]

theorem length_cellBytes (m : Mem) (cells : List ℕ) :
    (cells.flatMap (cellBytes m)).length = cells.length * cacheBufsiz := by
  induction cells with
  | nil => simp
  | cons c cells ih =>
    rw [List.flatMap_cons, List.length_append, ih, cellBytes, length_bytesAt, List.length_cons]
    ring

/-- Short writes, of which there are enough, serve all the bytes of the cells. -/
theorem drain_spec (hlink : Linked m 0 (nextLink m buf) cells)
    (hcells : ∀ c ∈ cells, c ≠ 0 ∧ (cellStart c).toNat + cacheBufsiz < 2 ^ 64)
    (hptr : ptr.toNat + rest.toNat < 2 ^ 64) (ks : List ℕ+) :
    ((drain m (writes ks) buf ptr rest).finished = true →
      (drain m (writes ks) buf ptr rest).sent =
        bytesAt m ptr.toNat rest.toNat ++ cells.flatMap (cellBytes m)) ∧
    (rest.toNat + 1 + cells.length * (cacheBufsiz + 1) ≤ ks.length →
      (drain m (writes ks) buf ptr rest).finished = true) := by
  -- each write takes bytes of the cell or, with none left, goes to the next one
  induction ks generalizing buf ptr rest cells with
  | nil => exact ⟨fun h => (by cases h), fun h => absurd h (by simp)⟩
  | cons k ks ih =>
    have hwrites : writes (k :: ks) = .ok k :: writes ks := rfl
    rw [hwrites, drain]
    dsimp only
    by_cases hrest : rest = 0
    · -- the cell is done
      subst hrest
      have htaken : WriteRes.taken 0 (.ok k) = 0 := Nat.min_eq_right (Nat.zero_le _)
      have hzero : bytesAt m ptr.toNat 0 = [] := rfl
      simp only [if_neg (not_not.mpr rfl), htaken, UInt64.toNat_zero, hzero, List.nil_append]
      cases cells with
      | nil =>
        have hnext : nextLink m buf = 0 := hlink
        rw [if_pos hnext]
        exact ⟨fun _ => rfl, fun _ => rfl⟩
      | cons c cells =>
        obtain ⟨hnext, hlink⟩ := hlink
        obtain ⟨hc, hend⟩ := hcells c List.mem_cons_self
        have hbufsiz : (UInt64.ofNat cacheBufsiz).toNat = cacheBufsiz := rfl
        have hrest : (cellStart c).toNat + (UInt64.ofNat cacheBufsiz).toNat < 2 ^ 64 := by
          rwa [hbufsiz]
        obtain ⟨hsent, hfinished⟩ := ih hlink
          (fun c' hc' => hcells c' (List.mem_cons_of_mem c hc')) hrest
        rw [hbufsiz] at hsent hfinished
        rw [hnext, if_neg hc, List.flatMap_cons]
        refine ⟨hsent, fun hle => hfinished ?_⟩
        rw [List.length_cons, List.length_cons, Nat.add_mul, Nat.one_mul] at hle
        omega
    · -- some more bytes of it
      have hpos : 0 < rest.toNat := Nat.pos_of_ne_zero ((ne_zero_iff_toNat rest).mp hrest)
      set n := min (k : ℕ) rest.toNat with hn
      have hk := k.pos
      have hle : n ≤ rest.toNat := Nat.min_le_right ..
      have hptr' : (ptr + UInt64.ofNat n).toNat = ptr.toNat + n := toNat_add_ofNat (by omega)
      have hrest' : (rest - UInt64.ofNat n).toNat = rest.toNat - n := toNat_sub_ofNat hle
      have hend : (ptr + UInt64.ofNat n).toNat + (rest - UInt64.ofNat n).toNat < 2 ^ 64 := by omega
      obtain ⟨hsent, hfinished⟩ := ih hlink hcells hend
      have hsplit : rest.toNat = n + (rest.toNat - n) := by omega
      have htaken : WriteRes.taken rest (.ok k) = n := rfl
      have hsize : WriteRes.cur rest (.ok k) = UInt64.ofNat n := rfl
      rw [if_pos hrest, htaken, hsize, hsplit, bytesAt_add, List.append_assoc]
      rw [hptr', hrest'] at hsent
      refine ⟨fun hdone => congrArg (bytesAt m ptr.toNat n ++ ·) (hsent hdone), fun hle => ?_⟩
      rw [List.length_cons] at hle
      exact hfinished (by omega)

end Drain

/-! ### The round trip -/

/-- A chain of cells down to `NULL`. -/
def IsChain (m : Mem) (head : ℕ) (cells : List ℕ) : Prop :=
  Linked m 0 head cells ∧ ∀ c ∈ cells, c ≠ 0

/-- The bytes of a file are in the cells of a chain, in order. -/
def Stores (m : Mem) (cells : List ℕ) (file : List UInt8) : Prop :=
  ∀ i (h : i < file.length), ∃ c, cells[i / cacheBufsiz]? = some c ∧
    m (c + sizeofCacheChain + i % cacheBufsiz) = file[i]

/-- What is served from a chain, however short the writes are, is the file. -/
def Serves (m : Mem) (head : ℕ) (file : List UInt8) : Prop :=
  ∀ ks : List ℕ+, (cacheToClient m (writes ks) head).finished = true →
    (cacheToClient m (writes ks) head).sent = file

/-- A file of at least one byte. -/
structure CachedFile where
  content : List UInt8
  ne_nil : content ≠ []
  length_lt : content.length < 2 ^ 64

namespace CachedFile

def size (F : CachedFile) : UInt64 := UInt64.ofNat F.content.length

theorem toNat_size (F : CachedFile) : F.size.toNat = F.content.length :=
  UInt64.toNat_ofNat_of_lt' F.length_lt

end CachedFile

/-- `cache_shm_pool`. -/
structure ShmPool where
  layout : CacheLayout
  size_eq : layout.size = 32768
  clients : CacheClients
  pool : BlockPool layout.blocks
  represents : layout.Represents clients pool

namespace ShmPool

variable (P : ShmPool) (F : CachedFile) (u : Unset) (info : ℕ)

/-- The cells are enough for the file, it is stored in them, and served from them. -/
def RoundTrip : Prop :=
  ∃ head s cells s', allocCells P.layout.self u F.size P.clients.st = .ok (.chain head s) ∧
    IsChain s.mem head cells ∧ F.content.length ≤ cells.length * cacheBufsiz ∧
    fileCacheToClient P.layout.self info u F.size (some F.content) P.clients.st = .ok (0, s') ∧
    Stores s'.mem cells F.content ∧ Serves s'.mem head F.content

variable {P F u} {head : ℕ} {s : CacheState} {cells : List ℕ}

/-- The cells of a file that are taken are not enough for it. -/
theorem length_mul_lt (hrun : allocCells P.layout.self u F.size P.clients.st = .ok (.chain head s))
    (hchain : IsChain s.mem head cells) : cells.length * cacheBufsiz < F.content.length ∧
      cells ≠ [] ∧ ∀ c ∈ cells, c ∈ P.layout.blocks := by
  have hsize : sizeofCacheChain ≤ P.layout.size := by
    rw [P.size_eq, sizeofCacheChain]
    omega
  obtain ⟨cells', hlinked, hblocks, hpos, hlength⟩ :=
    allocCells_chain P.represents hsize hrun
  obtain rfl : cells = cells' := Linked.unique hchain.1 hlinked hchain.2 fun c hc =>
    P.layout.ne_null_of_mem_blocks (hblocks c hc)
  have hlt := cellNum_mul_lt hpos
  rw [F.toNat_size, ← hlength] at hlt
  refine ⟨by exact_mod_cast hlt, fun hnil => ?_, hblocks⟩
  rw [hnil, List.length_nil] at hlength
  omega

/-- Whatever is in the cells, less is served from them than the file has. -/
theorem not_serves (hrun : allocCells P.layout.self u F.size P.clients.st = .ok (.chain head s))
    (hchain : IsChain s.mem head cells) {m : Mem} (hm : IsChain m head cells) :
    ¬Serves m head F.content := by
  obtain ⟨hlt, hne, hblocks⟩ := length_mul_lt hrun hchain
  have hend (c : ℕ) (hc : c ∈ cells) : (cellStart c).toNat + cacheBufsiz < 2 ^ 64 := by
    obtain ⟨i, hi, rfl⟩ := P.layout.mem_blocks.mp (hblocks c hc)
    have hnext := P.layout.cell_add_size_le (Nat.lt_add_one i)
    have hcell := P.layout.cell_add_size_le (Nat.add_lt_add_right hi 1)
    have hlast := P.layout.cell_lt (le_refl (P.layout.n + 1))
    have hstart : (cellStart (P.layout.cell i)).toNat ≤ P.layout.cell i + 576 := Nat.mod_le ..
    have hbufsiz : cacheBufsiz = 32744 := rfl
    rw [P.size_eq] at hnext hcell
    omega
  cases cells with
  | nil => exact absurd rfl hne
  | cons c cells =>
    obtain ⟨⟨rfl, hlinked⟩, hcells⟩ := hm
    have hbufsiz : (UInt64.ofNat cacheBufsiz).toNat = cacheBufsiz := rfl
    have hfirst : (cellStart head).toNat + (UInt64.ofNat cacheBufsiz).toNat < 2 ^ 64 := by
      rw [hbufsiz]
      exact hend head List.mem_cons_self
    intro hserves
    -- one byte a time
    set ks : List ℕ+ := List.replicate (cacheBufsiz + 1 + cells.length * (cacheBufsiz + 1)) 1
    obtain ⟨hsent, hfinished⟩ := drain_spec hlinked
      (fun c hc => ⟨hcells c (List.mem_cons_of_mem head hc), hend c (List.mem_cons_of_mem head hc)⟩)
      hfirst ks
    have hdone := hfinished (by rw [hbufsiz, List.length_replicate])
    have hlength := congrArg List.length ((hsent hdone).symm.trans (hserves ks hdone))
    have hcount := length_cellBytes m (head :: cells)
    rw [List.flatMap_cons, cellBytes] at hcount
    rw [hbufsiz, hcount] at hlength
    omega

/-- No file is stored and served. -/
theorem not_roundTrip (P : ShmPool) (F : CachedFile) (u : Unset) (info : ℕ) :
    ¬P.RoundTrip F u info := by
  rintro ⟨head, s, cells, s', hrun, hchain, hle, -⟩
  exact absurd (length_mul_lt hrun hchain).1 (not_lt.mpr hle)

/-- Forty cells, all of them free. -/
def fortyCells : ShmPool where
  layout := ⟨8, 32768, 32768, 40, by decide, by decide, by decide, by decide⟩
  size_eq := rfl
  clients := CacheLayout.init _ fun _ => 0
  pool := BlockPool.full _ (CacheLayout.cells_nodup _)
  represents := CacheLayout.represents_init _ _

/-- A file of one byte is not stored and served. -/
theorem not_forall_roundTrip :
    ¬∀ (P : ShmPool) (F : CachedFile) (u : Unset) (info : ℕ), P.RoundTrip F u info := by
  intro h
  obtain ⟨head, s, cells, s', hrun, hchain, hle, -⟩ :=
    h fortyCells ⟨[65], by decide, by decide⟩ ⟨0, 0, 0⟩ 1
  exact absurd (length_mul_lt hrun hchain).1 (not_lt.mpr hle)

end ShmPool

end Cache

end Lidas
