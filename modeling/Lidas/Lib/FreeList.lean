import Mathlib.Data.Finset.Card
import Mathlib.Data.List.Nodup

/-!
# Free lists without checks

A fixed-block allocator as a program sees it: it hands out the head of its free list, and puts
whatever it is given back on that list, whether or not it handed it out. `out` keeps the blocks
that were handed out and not given back since. While only such blocks are given back, the free
list is `Sound`.
-/

namespace Lidas

/-- A free list, and the blocks handed out from it. -/
structure FreeList (β : Type*) [DecidableEq β] where
  free : List β
  out : Finset β

namespace FreeList

variable {β : Type*} [DecidableEq β] (l : FreeList β) {b c : β}

/-- The first free block. -/
def alloc : Option (β × FreeList β) :=
  match l.free with
  | [] => none
  | b :: rest => some (b, { free := rest, out := insert b l.out })

/-- The block is put back, from wherever it comes. -/
def release (b : β) : FreeList β where
  free := b :: l.free
  out := l.out.erase b

/-- No block is free twice, or free and handed out. -/
structure Sound : Prop where
  nodup : l.free.Nodup
  disjoint : ∀ b ∈ l.free, b ∉ l.out

variable {l} {l' : FreeList β}

theorem alloc_eq_none : l.alloc = none ↔ l.free = [] := by
  rw [alloc]
  split
  · rename_i hfree
    exact iff_of_true rfl hfree
  · rename_i b rest hfree
    exact iff_of_false (by simp) (by simp [hfree])

theorem alloc_eq_some (h : l.alloc = some (b, l')) :
    l.free = b :: l'.free ∧ l'.out = insert b l.out := by
  rw [alloc] at h
  split at h
  · cases h
  · rename_i c rest hfree
    obtain ⟨rfl, rfl⟩ := Prod.mk.inj (Option.some.inj h)
    exact ⟨hfree, rfl⟩

theorem ne_nil_of_alloc (h : l.alloc = some (b, l')) : l.free ≠ [] := by
  rw [(alloc_eq_some h).1]
  exact List.cons_ne_nil b l'.free

/-- A block that is handed out was not out before. -/
theorem Sound.not_mem_of_alloc (hl : l.Sound) (h : l.alloc = some (b, l')) : b ∉ l.out :=
  hl.disjoint b (by rw [(alloc_eq_some h).1]; exact List.mem_cons_self)

theorem Sound.alloc (hl : l.Sound) (h : l.alloc = some (b, l')) : l'.Sound := by
  obtain ⟨hfree, hout⟩ := alloc_eq_some h
  obtain ⟨hb, hnodup⟩ := List.nodup_cons.mp (hfree ▸ hl.nodup)
  refine ⟨hnodup, fun c hc => ?_⟩
  rw [hout, Finset.mem_insert]
  rintro (rfl | hcout)
  · exact hb hc
  · exact hl.disjoint c (by rw [hfree]; exact List.mem_cons_of_mem b hc) hcout

/-- A block that is out can be put back. -/
theorem Sound.release (hl : l.Sound) (hb : b ∈ l.out) : (l.release b).Sound := by
  refine ⟨List.nodup_cons.mpr ⟨fun hfree => hl.disjoint b hfree hb, hl.nodup⟩, fun c hc => ?_⟩
  rcases List.mem_cons.mp hc with rfl | hc
  · simp [FreeList.release]
  · exact fun hout => hl.disjoint c hc (Finset.mem_of_mem_erase hout)

theorem mem_out_release : c ∈ (l.release b).out ↔ c ≠ b ∧ c ∈ l.out := Finset.mem_erase

theorem mem_out_alloc (h : l.alloc = some (b, l')) : c ∈ l'.out ↔ c = b ∨ c ∈ l.out := by
  rw [(alloc_eq_some h).2, Finset.mem_insert]

end FreeList

end Lidas
