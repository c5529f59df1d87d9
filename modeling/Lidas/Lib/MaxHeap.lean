import Mathlib.Data.Finset.Erase
import Mathlib.Logic.Function.Basic
import Mathlib.Order.Interval.Finset.Nat

/-!
# Binary heaps in an array with a hole

The slots `1`, …, `n` of an array are a binary tree with root `1`, in which the parent of slot
`i` is `i / 2`. A routine that inserts or deletes leaves one of the slots, the hole, without an
entry of its own and moves entries of a parent or a child into it, until the hole is where the
last entry can be stored.

`entries` is the multiset stored in the slots, and `others` the multiset without the hole.
Moving an entry into the hole makes its slot the hole and changes nothing else (`others_move`).
`Ordered` is the order of a heap with the largest key at the root, and `Rising` what is left of
it while the hole moves towards the root.
-/

namespace Lidas

namespace MaxHeap

/-! ### The entries of an array -/

section Entries

variable {E : Type*} {p : ℕ → E} {n i j : ℕ}

/-- The entries of the slots `1`, …, `n`. -/
def entries (p : ℕ → E) (n : ℕ) : Multiset E := (Finset.Icc 1 n).val.map p

/-- The entries of these slots except the hole. -/
def others (p : ℕ → E) (n hole : ℕ) : Multiset E := ((Finset.Icc 1 n).erase hole).val.map p


theorem entries_eq_cons (p : ℕ → E) (hi : 1 ≤ i) (hin : i ≤ n) :
    entries p n = p i ::ₘ others p n i := by
  have hmem : i ∈ Finset.Icc 1 n := Finset.mem_Icc.mpr ⟨hi, hin⟩
  rw [entries, ← Finset.insert_erase hmem, Finset.insert_val_of_notMem (Finset.notMem_erase i _),
    Multiset.map_cons, others]

theorem mem_entries (p : ℕ → E) (hi : 1 ≤ i) (hin : i ≤ n) : p i ∈ entries p n := by
  rw [entries_eq_cons p hi hin]
  exact Multiset.mem_cons_self _ _

/-- What is written into the hole is no other entry. -/
theorem others_update (p : ℕ → E) (n i : ℕ) (x : E) :
    others (Function.update p i x) n i = others p n i := by
  refine Multiset.map_congr rfl fun j hj => ?_
  exact Function.update_of_ne (Finset.ne_of_mem_erase (Finset.mem_def.mpr hj)) _ _

/-- The hole is filled. -/
theorem entries_update (x : E) (hi : 1 ≤ i) (hin : i ≤ n) :
    entries (Function.update p i x) n = x ::ₘ others p n i := by
  rw [entries_eq_cons _ hi hin, Function.update_self, others_update]

/-- **The hole moves.** The entry of slot `j` is moved into the hole `i`. -/
theorem others_move (hi : 1 ≤ i) (hin : i ≤ n) (hj : 1 ≤ j) (hjn : j ≤ n) (hij : j ≠ i) :
    others (Function.update p i (p j)) n j = others p n i := by
  have hj_eq : Function.update p i (p j) j = p j := Function.update_of_ne hij _ _
  have hcons : p j ::ₘ others (Function.update p i (p j)) n j = p j ::ₘ others p n i := by
    rw [← entries_update (p j) hi hin, entries_eq_cons _ hj hjn, hj_eq]
  exact (Multiset.cons_inj_right _).mp hcons

/-- With the last slot as the hole, the others are the entries before it. -/
theorem others_last (p : ℕ → E) (n : ℕ) : others p (n + 1) (n + 1) = entries p n := by
  have herase : (Finset.Icc 1 (n + 1)).erase (n + 1) = Finset.Icc 1 n := by
    ext j
    simp only [Finset.mem_erase, Finset.mem_Icc]
    omega
  rw [others, herase, entries]

theorem entries_succ (p : ℕ → E) (n : ℕ) : entries p (n + 1) = p (n + 1) ::ₘ entries p n := by
  rw [entries_eq_cons p (Nat.le_add_left 1 n) (Nat.le_refl _), others_last]

end Entries

/-! ### The order of the keys -/

section Order

variable {K : Type*} [LinearOrder K] {k : ℕ → K} {n hole : ℕ} {x : K}

/-- No key is larger than the key of its parent. -/
def Ordered (k : ℕ → K) (n : ℕ) : Prop := ∀ i, 2 ≤ i → i ≤ n → k i ≤ k (i / 2)

instance (k : ℕ → K) (n : ℕ) : Decidable (Ordered k n) :=
  decidable_of_iff (∀ i ∈ Finset.Icc 2 n, k i ≤ k (i / 2))
    ⟨fun h i hi hin => h i (Finset.mem_Icc.mpr ⟨hi, hin⟩), fun h i hi =>
      h i (Finset.mem_Icc.mp hi).1 (Finset.mem_Icc.mp hi).2⟩

theorem Ordered.mono {m : ℕ} (h : Ordered k n) (hm : m ≤ n) : Ordered k m :=
  fun i hi him => h i hi (Nat.le_trans him hm)

theorem Ordered.congr {k' : ℕ → K} (h : Ordered k n) (hk : ∀ i, 1 ≤ i → i ≤ n → k' i = k i) :
    Ordered k' n := by
  intro i hi hin
  rw [hk i (by omega) hin, hk (i / 2) (by omega) (by omega)]
  exact h i hi hin

/-- The root has the largest key. -/
theorem Ordered.le_root (h : Ordered k n) {i : ℕ} (hi : 1 ≤ i) (hin : i ≤ n) : k i ≤ k 1 := by
  induction i using Nat.strongRecOn with
  | ind i ih =>
    rcases Nat.eq_or_lt_of_le hi with rfl | hi2
    · exact le_rfl
    · exact (h i hi2 hin).trans (ih (i / 2) (by omega) (by omega) (by omega))

/-- Every slot but the root is below slot `2` or below slot `3`. -/
theorem Ordered.le_child (h : Ordered k n) {i : ℕ} (hi : 2 ≤ i) (hin : i ≤ n) :
    k i ≤ k 2 ∨ 3 ≤ i ∧ k i ≤ k 3 := by
  induction i using Nat.strongRecOn with
  | ind i ih =>
    by_cases h4 : 4 ≤ i
    · have hparent := h i hi hin
      rcases ih (i / 2) (by omega) (by omega) (by omega) with hle | ⟨-, hle⟩
      · exact Or.inl (hparent.trans hle)
      · exact Or.inr ⟨by omega, hparent.trans hle⟩
    · rcases (by omega : i = 2 ∨ i = 3) with rfl | rfl
      · exact Or.inl le_rfl
      · exact Or.inr ⟨le_rfl, le_rfl⟩

/-- What `k` still has of the order while the key `x` is to be put into a hole that moves
towards the root: the keys that are not beside the hole are in order, and those below the hole
are no larger than its parent's key, and no larger than `x`. -/
structure Rising (k : ℕ → K) (n hole : ℕ) (x : K) : Prop where
  off : ∀ i, 2 ≤ i → i ≤ n → i ≠ hole → i / 2 ≠ hole → k i ≤ k (i / 2)
  grand : 2 ≤ hole → ∀ i, i ≤ n → i / 2 = hole → k i ≤ k (hole / 2)
  below : ∀ i, i ≤ n → i / 2 = hole → k i ≤ x

/-- The hole begins as a new leaf. -/
theorem Ordered.rising (h : Ordered k n) (x : K) : Rising k (n + 1) (n + 1) x where
  off := fun i hi hin hne _ => h i hi (by omega)
  grand := fun _ i _ hi => by omega
  below := fun i _ hi => by omega

/-- The parent's entry is moved into the hole. -/
theorem Rising.move (h : Rising k n hole x) (hhole : 2 ≤ hole) (hn : hole ≤ n)
    (hx : k (hole / 2) ≤ x) :
    Rising (Function.update k hole (k (hole / 2))) n (hole / 2) x := by
  have hparent : hole / 2 ≠ hole := by omega
  -- the keys below the parent, the hole's own slot among them, are no larger than its key was
  have hbelow : ∀ i, i ≤ n → i / 2 = hole / 2 →
      Function.update k hole (k (hole / 2)) i ≤ k (hole / 2) := by
    intro i hin hi
    by_cases hih : i = hole
    · rw [hih, Function.update_self]
    · rw [Function.update_of_ne hih, ← hi]
      exact h.off i (by omega) hin hih (by omega)
  refine ⟨fun i hi hin hne hne' => ?_, fun hhole' i hin hi => ?_, fun i hin hi => ?_⟩
  · have hih : i ≠ hole := fun hih => hne' (by rw [hih])
    rw [Function.update_of_ne hih]
    by_cases hi2 : i / 2 = hole
    · rw [hi2, Function.update_self]
      exact h.grand hhole i hin hi2
    · rw [Function.update_of_ne hi2]
      exact h.off i hi hin hih hi2
  · rw [Function.update_of_ne (show hole / 2 / 2 ≠ hole by omega)]
    exact (hbelow i hin hi).trans (h.off (hole / 2) hhole' (by omega) hparent (by omega))
  · exact (hbelow i hin hi).trans hx

/-- The key is put into the hole. -/
theorem Rising.finish (h : Rising k n hole x) (hx : 2 ≤ hole → x ≤ k (hole / 2)) :
    Ordered (Function.update k hole x) n := by
  intro i hi hin
  by_cases hih : i = hole
  · rw [hih, Function.update_self, Function.update_of_ne (by omega)]
    exact hx (hih ▸ hi)
  · rw [Function.update_of_ne hih]
    by_cases hi2 : i / 2 = hole
    · rw [hi2, Function.update_self]
      exact h.below i hin hi2
    · rw [Function.update_of_ne hi2]
      exact h.off i hi hin hih hi2

end Order

end MaxHeap

end Lidas
