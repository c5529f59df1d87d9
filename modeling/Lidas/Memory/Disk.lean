import Lidas.Lib.CString
import Lidas.Memory.Cache

/-!
# The pool of cells on disk

`disk_pool_alloc` takes a cell from the first block of a chain that has a free one. It holds
`thread_lock`, and takes a record lock on the file of the block for each of three stores: that to
the head, that to the link of the next cell, and that to the cell. It has no `pthread_mutex_unlock`:
a return after a record lock that is not granted leaves `thread_lock` held, and if the first two are
granted, `thread_lock` is asked for again. So the call is atomic only where no block has a free
cell, and never returns one.
-/

namespace Lidas

namespace Disk

/-- `struct disk_pool_h`, the pointer to the next block apart. -/
structure DiskPoolH where
  n : ℤ
  size : ℕ
  next : ℕ

/-- `sizeof (struct disk_pool_h)`. -/
def sizeofDiskPoolH : ℕ := 32

/-- `DISK_CELL`. -/
def diskCell : ℕ := 32768

/-- The types of a lock that `lock_reg` is given. -/
inductive LockType where
  | wrlck
  | unlck
  deriving DecidableEq

/-- The locks of this process: whether it holds `thread_lock`, the bytes of each file on which it
has a record lock, and the number of calls of `lock_reg`. -/
structure Locks where
  thread : Bool
  record : ℕ → ℤ → Bool
  calls : ℕ

/-- No locks. -/
def Locks.none : Locks := ⟨false, fun _ _ => false, 0⟩

/-- `lock_reg` with `F_SETLK` and `SEEK_SET`: whether `fcntl` grants the lock, and the locks. -/
def lockReg (outcome : ℕ → Bool) (fd : ℕ) (type : LockType) (offset : ℤ) (len : ℕ) (l : Locks) :
    Bool × Locks :=
  let set := fun f x =>
    if f = fd ∧ offset ≤ x ∧ x < offset + len then decide (type = .wrlck) else l.record f x
  (outcome l.calls,
    { l with record := if outcome l.calls then set else l.record, calls := l.calls + 1 })

/-- Where a call has come to: what it returns, or `Option.none` in a `pthread_mutex_lock` that waits
for this process itself; the blocks, the cells and the locks. -/
structure Reached (β : Type) where
  ret : Option ℕ
  heads : β
  mem : Mem
  locks : Locks

/-- What `disk_pool_alloc` does with a block that has a free cell. -/
def takeCell (outcome : ℕ → Bool) (fd addr : ℕ) (p : DiskPoolH) (m : Mem) (l : Locks) :
    Except Fault (Reached DiskPoolH) := do
  if l.thread then return ⟨none, p, m, l⟩
  let l := { l with thread := true }
  let ret := p.next
  let (granted, l) := lockReg outcome fd .wrlck 0 sizeofDiskPoolH l
  if !granted then return ⟨some 0, p, m, l⟩
  if ret = 0 then .error .nullDeref
  let p := { p with next := nextLink m ret, n := p.n - 1 }
  let (_, l) := lockReg outcome fd .unlck 0 sizeofDiskPoolH l
  let (granted, l) := lockReg outcome fd .wrlck (p.next - addr) diskCell l
  if !granted then return ⟨some 0, p, m, l⟩
  if nextLink m ret = 0 then .error .nullDeref
  let m := m.store64 (nextLink m ret) 0
  let (_, l) := lockReg outcome fd .unlck (p.next - addr) diskCell l
  -- `pthread_mutex_lock`, where the lock should be given back
  if l.thread then return ⟨none, p, m, l⟩
  let l := { l with thread := true }
  let (granted, l) := lockReg outcome fd .wrlck (ret - addr) diskCell l
  if !granted then return ⟨some 0, p, m, l⟩
  let m := m.memset ret 0 p.size
  let (_, l) := lockReg outcome fd .unlck (ret - addr) diskCell l
  return ⟨some ret, p, m, l⟩

/-- `disk_pool_alloc` from the `i`-th block on, the blocks being given in the order of the chain.
The semicolon that one statement lacks is read into it. -/
def diskPoolAlloc (outcome : ℕ → Bool) (ids addrs : ℕ → ℕ) :
    ℕ → List DiskPoolH → Mem → Locks → Except Fault (Reached (List DiskPoolH))
  | _, [], m, l => .ok ⟨some 0, [], m, l⟩
  | i, p :: ps, m, l =>
    if p.n = 0 then do
      let r ← diskPoolAlloc outcome ids addrs (i + 1) ps m l
      return { r with heads := p :: r.heads }
    else do
      let r ← takeCell outcome (ids i) (addrs i) p m l
      return { r with heads := r.heads :: ps }

/-- The free cells of a block. -/
def freeCells (m : Mem) (p : DiskPoolH) : List ℕ := chainFrom m p.n.toNat p.next

/-- A chain of blocks with its cells, in which each block links as many cells as it counts. -/
structure DiskPool where
  ids : ℕ → ℕ
  addrs : ℕ → ℕ
  heads : List DiskPoolH
  mem : Mem
  linked : ∀ p ∈ heads, ∃ cells last, Linked mem last p.next cells ∧ (cells.length : ℤ) = p.n ∧
    (∀ c ∈ cells, c ≠ 0) ∧ last ≠ 0

namespace DiskPool

variable (P : DiskPool) (outcome : ℕ → Bool)

/-- A call of `disk_pool_alloc`. -/
def alloc : Except Fault (Reached (List DiskPoolH)) :=
  diskPoolAlloc outcome P.ids P.addrs 0 P.heads P.mem Locks.none

/-- The cell has left one block, the count of which is one less; all the other blocks are as before.
-/
def Took (ret : ℕ) (heads : List DiskPoolH) (m : Mem) : Prop :=
  ∃ before p p' behind, P.heads = before ++ p :: behind ∧ heads = before ++ p' :: behind ∧
    p'.n = p.n - 1 ∧ freeCells P.mem p = ret :: freeCells m p' ∧
    ∀ q ∈ before ++ behind, freeCells m q = freeCells P.mem q

/-- The call does not wait for itself, and when it returns it has given back its locks, and either
changed no block or taken the cell that it returns. -/
def Atomic : Prop :=
  ∀ r, P.alloc outcome = .ok r → r.ret ≠ none ∧ r.locks.thread = false ∧
    (∀ fd x, r.locks.record fd x = false) ∧ (r.ret = some 0 → r.heads = P.heads) ∧
    ∀ ret, ret ≠ 0 → r.ret = some ret → P.Took ret r.heads r.mem

end DiskPool

/-! ### A block with a free cell -/

@[simp] theorem thread_lockReg (outcome : ℕ → Bool) (fd : ℕ) (type : LockType) (offset : ℤ)
    (len : ℕ) (l : Locks) : (lockReg outcome fd type offset len l).2.thread = l.thread := rfl

section TakeCell

variable {outcome : ℕ → Bool} {ids addrs : ℕ → ℕ} {i : ℕ} {p : DiskPoolH} {m : Mem} {l : Locks}
  {ps : List DiskPoolH}

/-- A block with a free cell is left with `thread_lock` held, and without a cell. -/
theorem takeCell_spec (outcome : ℕ → Bool) (fd addr : ℕ) (hl : l.thread = false)
    (hret : p.next ≠ 0) (hnext : nextLink m p.next ≠ 0) :
    ∃ r, takeCell outcome fd addr p m l = .ok r ∧ r.locks.thread = true ∧
      (r.ret = none ∨ r.ret = some 0) := by
  rw [takeCell]
  simp only [hl, if_neg hret, if_neg hnext, thread_lockReg, Bool.false_eq_true, reduceIte]
  split_ifs
  · exact ⟨_, rfl, rfl, Or.inr rfl⟩
  · exact ⟨_, rfl, rfl, Or.inr rfl⟩
  · exact ⟨_, rfl, rfl, Or.inl rfl⟩

/-- A chain without a free cell is left as it is. -/
theorem diskPoolAlloc_of_empty (h : ∀ q ∈ ps, q.n = 0) :
    diskPoolAlloc outcome ids addrs i ps m l = .ok ⟨some 0, ps, m, l⟩ := by
  induction ps generalizing i with
  | nil => rfl
  | cons p ps ih =>
    rw [diskPoolAlloc, if_pos (h p List.mem_cons_self),
      ih fun q hq => h q (List.mem_cons_of_mem p hq)]
    rfl

/-- In a chain with a free cell, the first block that has one is left with `thread_lock` held. -/
theorem diskPoolAlloc_of_free (hl : l.thread = false)
    (hps : ∀ q ∈ ps, q.n ≠ 0 → q.next ≠ 0 ∧ nextLink m q.next ≠ 0) (h : ¬∀ q ∈ ps, q.n = 0) :
    ∃ r, diskPoolAlloc outcome ids addrs i ps m l = .ok r ∧ r.locks.thread = true ∧
      (r.ret = none ∨ r.ret = some 0) := by
  induction ps generalizing i with
  | nil => exact absurd (fun q hq => absurd hq List.not_mem_nil) h
  | cons p ps ih =>
    rw [diskPoolAlloc]
    by_cases hp : p.n = 0
    · have hrest : ¬∀ q ∈ ps, q.n = 0 := fun hall => h (List.forall_mem_cons.mpr ⟨hp, hall⟩)
      obtain ⟨r, hrun, hthread, hret⟩ := ih (i := i + 1)
        (fun q hq => hps q (List.mem_cons_of_mem p hq)) hrest
      rw [if_pos hp, hrun]
      exact ⟨_, rfl, hthread, hret⟩
    · obtain ⟨hnext, hlink⟩ := hps p List.mem_cons_self hp
      obtain ⟨r, hrun, hthread, hret⟩ := takeCell_spec outcome (ids i) (addrs i) hl hnext hlink
      rw [if_neg hp, hrun]
      exact ⟨_, rfl, hthread, hret⟩

end TakeCell

namespace DiskPool

variable {P : DiskPool} {outcome : ℕ → Bool}

/-- The first cell of a block, and what it is linked to. -/
theorem next_ne_null {p : DiskPoolH} (hp : p ∈ P.heads) (hn : p.n ≠ 0) :
    p.next ≠ 0 ∧ nextLink P.mem p.next ≠ 0 := by
  obtain ⟨cells, last, hlinked, hlength, hcells, hlast⟩ := P.linked p hp
  cases cells with
  | nil => exact absurd hlength.symm hn
  | cons c cells =>
    obtain ⟨rfl, hlinked⟩ := hlinked
    refine ⟨hcells _ List.mem_cons_self, fun hnull => ?_⟩
    rcases hlinked.head_mem with hmem | heq
    · exact hcells _ (List.mem_cons_of_mem _ hmem) hnull
    · exact hlast (heq.symm.trans hnull)

/-- With a free cell in some block, the call leaves `thread_lock` held, or waits for it. -/
theorem alloc_of_free (outcome : ℕ → Bool) (h : ¬∀ p ∈ P.heads, p.n = 0) :
    ∃ r, P.alloc outcome = .ok r ∧ r.locks.thread = true ∧ (r.ret = none ∨ r.ret = some 0) := by
  have hthread : Locks.none.thread = false := rfl
  exact diskPoolAlloc_of_free hthread (fun p hp => next_ne_null hp) h

/-- No call returns a cell. -/
theorem alloc_ret (P : DiskPool) (outcome : ℕ → Bool) :
    ∃ r, P.alloc outcome = .ok r ∧ (r.ret = none ∨ r.ret = some 0) := by
  by_cases h : ∀ p ∈ P.heads, p.n = 0
  · exact ⟨_, diskPoolAlloc_of_empty h, Or.inr rfl⟩
  · obtain ⟨r, hrun, -, hret⟩ := P.alloc_of_free outcome h
    exact ⟨r, hrun, hret⟩

/-- **A call is atomic exactly if no block has a free cell.** -/
theorem atomic_iff (P : DiskPool) (outcome : ℕ → Bool) :
    P.Atomic outcome ↔ ∀ p ∈ P.heads, p.n = 0 := by
  constructor
  · intro hatomic
    by_contra h
    obtain ⟨r, hrun, hthread, -⟩ := P.alloc_of_free outcome h
    obtain ⟨-, hreleased, -⟩ := hatomic r hrun
    exact absurd (hthread.symm.trans hreleased) (by decide)
  · intro h r hrun
    obtain rfl := Except.ok.inj ((diskPoolAlloc_of_empty h).symm.trans hrun)
    exact ⟨Option.some_ne_none 0, rfl, fun _ _ => rfl, fun _ => rfl,
      fun ret hret heq => absurd (Option.some.inj heq).symm hret⟩

/-- One block with one free cell, at 4096. -/
def oneCell : DiskPool where
  ids := fun _ => 3
  addrs := fun _ => 4096
  heads := [⟨1, 32768, 4096⟩]
  mem := writeLinks (fun _ => 0) 4096 0 36864
  linked := by
    intro p hp
    obtain rfl := List.mem_singleton.mp hp
    refine ⟨[4096], 36864, ⟨rfl, nextLink_writeLinks (by decide)⟩, rfl, ?_, by decide⟩
    exact fun c hc => by simp [List.mem_singleton.mp hc]

/-- All record locks are granted, and `thread_lock` is asked for by its holder. -/
theorem not_forall_atomic : ¬∀ (P : DiskPool) (outcome : ℕ → Bool), P.Atomic outcome := by
  intro h
  obtain ⟨r, hrun, hthread, -⟩ := oneCell.alloc_of_free (fun _ => true) (by decide)
  obtain ⟨-, hreleased, -⟩ := h oneCell _ r hrun
  exact absurd (hthread.symm.trans hreleased) (by decide)

end DiskPool

end Disk

end Lidas
