import Mathlib.Data.Finset.Card
import Mathlib.Data.List.Nodup

/-!
# Pools of interchangeable blocks

The abstract view of a fixed-block allocator: a finite set of blocks, each either on the
free list or handed out. `BlockPool blocks` carries the accounting as fields (the free list
has no repetition, the two sides are disjoint and together they are all the blocks), so a
pool that lost or duplicated a block cannot be built. `alloc` takes the head of the free
list, `release` puts a block that is out back on it.
-/

namespace Lidas

/-- A pool of the given blocks: the free ones, in hand-out order, and the ones handed out. -/
structure BlockPool {β : Type*} [DecidableEq β] (blocks : Finset β) where
  /-- The free blocks, the next one to hand out first. -/
  free : List β
  /-- The blocks handed out and not yet given back. -/
  out : Finset β
  free_nodup : free.Nodup
  free_disjoint : ∀ b ∈ free, b ∉ out
  cover : ∀ b, b ∈ blocks ↔ b ∈ free ∨ b ∈ out

namespace BlockPool

variable {β : Type*} [DecidableEq β] {blocks : Finset β} (p : BlockPool blocks)

/-- The pool with every block free, handed out in the order of the list. -/
def full (l : List β) (hl : l.Nodup) : BlockPool l.toFinset where
  free := l
  out := ∅
  free_nodup := hl
  free_disjoint := by simp
  cover := by simp

theorem mem_blocks_of_free {b : β} (h : b ∈ p.free) : b ∈ blocks := (p.cover b).mpr (Or.inl h)

theorem mem_blocks_of_out {b : β} (h : b ∈ p.out) : b ∈ blocks := (p.cover b).mpr (Or.inr h)

section Cons

variable {p} {b c : β} {rest : List β}

theorem head_mem_free (h : p.free = b :: rest) : b ∈ p.free := by
  rw [h]
  exact List.mem_cons_self

theorem tail_mem_free (h : p.free = b :: rest) (hc : c ∈ rest) : c ∈ p.free := by
  rw [h]
  exact List.mem_cons_of_mem b hc

theorem head_mem_blocks (h : p.free = b :: rest) : b ∈ blocks :=
  p.mem_blocks_of_free (head_mem_free h)

/-- The block that is handed out next is not handed out again behind it. -/
theorem tail_ne_head (h : p.free = b :: rest) (hc : c ∈ rest) : c ≠ b :=
  ne_of_mem_of_not_mem hc (List.nodup_cons.mp (h ▸ p.free_nodup)).1

end Cons

/-- Free and handed-out blocks add up to the blocks of the pool. -/
theorem length_free_add_card_out : p.free.length + p.out.card = blocks.card := by
  have hunion : blocks = p.free.toFinset ∪ p.out := by
    ext b
    simp [p.cover b]
  have hdisj : Disjoint p.free.toFinset p.out :=
    Finset.disjoint_left.mpr fun b hb => p.free_disjoint b (by simpa using hb)
  calc p.free.length + p.out.card
      = (p.free.toFinset ∪ p.out).card := by
        rw [Finset.card_union_of_disjoint hdisj, List.toFinset_card_of_nodup p.free_nodup]
    _ = blocks.card := (congrArg Finset.card hunion).symm

/-- Hand out the first free block. -/
def alloc (b : β) (rest : List β) (h : p.free = b :: rest) : BlockPool blocks where
  free := rest
  out := insert b p.out
  free_nodup := (List.nodup_cons.mp (h ▸ p.free_nodup)).2
  free_disjoint := fun c hc => by
    have hne : c ≠ b := fun hcb => (List.nodup_cons.mp (h ▸ p.free_nodup)).1 (hcb ▸ hc)
    have hout : c ∉ p.out := p.free_disjoint c (by rw [h]; exact List.mem_cons_of_mem b hc)
    simp [hne, hout]
  cover := fun c => by
    rw [p.cover c, h, List.mem_cons, Finset.mem_insert]
    tauto

/-- Take a block that is out back onto the free list. -/
def release (b : β) (h : b ∈ p.out) : BlockPool blocks where
  free := b :: p.free
  out := p.out.erase b
  free_nodup := List.nodup_cons.mpr ⟨fun hb => p.free_disjoint b hb h, p.free_nodup⟩
  free_disjoint := fun c hc => by
    rcases List.mem_cons.mp hc with rfl | hc
    · simp
    · simp [p.free_disjoint c hc]
  cover := fun c => by
    rw [p.cover c, List.mem_cons, Finset.mem_erase]
    by_cases hcb : c = b
    · simp [hcb, h]
    · simp [hcb]

end BlockPool

end Lidas
