import Lidas.Lib.CString
import Lidas.Lib.MaxHeap

/-!
# The heaps of `heap.c`

A `heap_h` has an array of `size + 1` slots, of which slot 0 is spare. Counts and indices are
natural numbers, and a pointer into the array is the number of its slot. The indices of
`heap_max_delete` are of type `int`, which makes a difference from slot `2 ^ 30` on
(`Lidas.Memory.HeapInt`). In an ordered heap the hole does not get there.

The loop of `heap_insert` has no bound of its own: it ends at a slot whose parent's key is not
smaller than the new one, and the parent of slot 1 is slot 0, which `heap_init` leaves with the
key 0. So a new largest key is never inserted. The loop of `heap_max_delete` moves a child up
if its key is smaller than that of the last entry.

The loops take a bound on the number of their rounds, and record the indices they use.
-/

namespace Lidas

/-- `struct heap_t`. -/
structure HeapT (D : Type) where
  key : UInt32
  data : D
  deriving DecidableEq

/-- `struct heap_h`. -/
structure HeapH (D : Type) where
  size : ℕ
  cnt : ℕ
  p : ℕ → HeapT D
  cnt_le : cnt ≤ size

namespace HeapH

variable {D : Type}

/-- `heap_init` with an array from `calloc`, whose slots hold the key 0 and the pointer `null`.
Slot 1 is written to even if the array has only slot 0. -/
def heapInit (null : D) (size : ℕ) (data : D) (key : UInt32) : Except Fault (HeapH D) :=
  if h : 1 ≤ size then
    .ok { size := size
          cnt := 1
          p := Function.update (fun _ => { key := 0, data := null }) 1 { key := key, data := data }
          cnt_le := h }
  else .error .outOfBounds

/-- The array, the index and the indices used when a loop has ended. -/
structure Hole (D : Type) where
  p : ℕ → HeapT D
  i : ℕ
  used : List ℕ

/-- The loop of `heap_insert`. -/
def insertLoop (key : UInt32) : ℕ → (ℕ → HeapT D) → ℕ → List ℕ → Except Fault (Hole D)
  | 0, _, _, _ => .error .diverges
  | fuel + 1, p, i, used =>
    if (p (i / 2)).key < key then
      insertLoop key fuel (Function.update p i (p (i / 2))) (i / 2) (used ++ [i / 2, i])
    else .ok { p := p, i := i, used := used ++ [i / 2] }

/-- What `heap_insert` returns, leaves and has used. -/
structure Inserted (D : Type) where
  ret : ℤ
  heap : HeapH D
  used : List ℕ

/-- `heap_insert`. -/
def heapInsert (fuel : ℕ) (data : D) (key : UInt32) (h : HeapH D) : Except Fault (Inserted D) :=
  if hfull : h.size ≤ h.cnt then .ok { ret := 1, heap := h, used := [] }
  else do
    let s ← insertLoop key fuel h.p (h.cnt + 1) []
    return {
      ret := 0
      heap := {
        size := h.size
        cnt := h.cnt + 1
        p := Function.update s.p s.i { key := key, data := data }
        cnt_le := Nat.lt_of_not_le hfull }
      used := s.used ++ [s.i] }

/-- The child of slot `i` that is looked at, with the indices used for the choice: the one with
the larger key, if slot `i` has two. -/
def child (cnt : ℕ) (p : ℕ → HeapT D) (i : ℕ) : ℕ × List ℕ :=
  if i * 2 ≠ cnt then
    (if (p (i * 2 + 1)).key > (p (i * 2)).key then i * 2 + 1 else i * 2, [i * 2 + 1, i * 2])
  else (i * 2, [])

/-- The loop of `heap_max_delete`, with `last` the copy of the last entry. -/
def deleteLoop (last : HeapT D) (cnt : ℕ) :
    ℕ → (ℕ → HeapT D) → ℕ → List ℕ → Except Fault (Hole D)
  | 0, _, _, _ => .error .diverges
  | fuel + 1, p, i, used =>
    if i * 2 ≤ cnt then
      let (c, compared) := child cnt p i
      if last.key > (p c).key then
        deleteLoop last cnt fuel (Function.update p i (p c)) c (used ++ compared ++ [c, i])
      else .ok { p := p, i := i, used := used ++ compared ++ [c] }
    else .ok { p := p, i := i, used := used }

/-- What `heap_max_delete` returns, `none` for `NULL`, leaves and has used. -/
structure Deleted (D : Type) where
  ret : Option ℕ
  heap : HeapH D
  used : List ℕ

/-- The end of `heap_max_delete`: the last entry is put into the hole. -/
def refill (h : HeapH D) (s : Hole D) : Deleted D where
  ret := some 1
  heap := {
    size := h.size
    cnt := h.cnt - 1
    p := Function.update s.p s.i (h.p h.cnt)
    cnt_le := Nat.le_trans (Nat.sub_le _ _) h.cnt_le }
  used := s.used ++ [s.i]

/-- `heap_max_delete`. -/
def heapMaxDelete (fuel : ℕ) (h : HeapH D) : Except Fault (Deleted D) :=
  if h.cnt = 0 then .ok { ret := none, heap := h, used := [] }
  else do
    let s ← deleteLoop (h.p h.cnt) (h.cnt - 1) fuel h.p 1 [h.cnt]
    return h.refill s

/-! ### What a heap holds -/

/-- The keys, by slot. -/
def keys (p : ℕ → HeapT D) (i : ℕ) : ℕ := (p i).key.toNat

/-- The entries in the slots `1`, …, `cnt`. -/
def entries (h : HeapH D) : Multiset (HeapT D) := MaxHeap.entries h.p h.cnt

/-- The entries are in max-heap order. -/
def MaxOrder (h : HeapH D) : Prop := MaxHeap.Ordered (keys h.p) h.cnt

instance (h : HeapH D) : Decidable h.MaxOrder :=
  inferInstanceAs (Decidable (MaxHeap.Ordered _ _))

theorem keys_update (p : ℕ → HeapT D) (i : ℕ) (e : HeapT D) :
    keys (Function.update p i e) = Function.update (keys p) i e.key.toNat := by
  funext j
  rw [keys, Function.update_apply, Function.update_apply]
  split_ifs <;> rfl

theorem keys_lt_iff {p : ℕ → HeapT D} {i : ℕ} {key : UInt32} :
    (p i).key < key ↔ keys p i < key.toNat := UInt32.lt_iff_toNat_lt

/-! ### The loop of `heap_insert` -/

section InsertLoop

variable {p : ℕ → HeapT D} {key : UInt32} {i n fuel : ℕ} {used : List ℕ} {s : Hole D}

/-- The loop does not end when all keys above the hole, that of slot 0 included, are smaller. -/
theorem insertLoop_diverges (h : ∀ j ≤ i / 2, (p j).key < key) (fuel : ℕ) (used : List ℕ) :
    insertLoop key fuel p i used = .error .diverges := by
  induction fuel generalizing p i used with
  | zero => rfl
  | succ fuel ih =>
    rw [insertLoop, if_pos (h (i / 2) (Nat.le_refl _))]
    refine ih (fun j hj => ?_) _
    rw [Function.update_apply]
    split_ifs with hji
    · exact h (i / 2) (Nat.le_refl _)
    · exact h j (by omega)

/-- The loop ends when the root's key is not smaller. -/
theorem exists_insertLoop (hi : 2 ≤ i) (hroot : key.toNat ≤ keys p 1) (hfuel : i ≤ fuel)
    (used : List ℕ) : ∃ s, insertLoop key fuel p i used = .ok s := by
  induction fuel generalizing p i used with
  | zero => omega
  | succ fuel ih =>
    rw [insertLoop]
    split_ifs with hlt
    · rw [keys_lt_iff] at hlt
      have hparent : i / 2 ≠ 1 := fun h1 => by
        rw [h1] at hlt
        omega
      refine ih (by omega) ?_ (by omega) _
      rw [keys_update, Function.update_of_ne (by omega)]
      exact hroot
    · exact ⟨_, rfl⟩

/-- When the loop ends, the hole is one of the slots `1`, …, `n`, the entries beside it are
those there were, the order holds with the key in the hole, and no other indices were used. -/
theorem insertLoop_ok (hi : 1 ≤ i) (hin : i ≤ n) (h : insertLoop key fuel p i used = .ok s) :
    1 ≤ s.i ∧ s.i ≤ n ∧ MaxHeap.others s.p n s.i = MaxHeap.others p n i ∧
      (MaxHeap.Rising (keys p) n i key.toNat →
        MaxHeap.Ordered (Function.update (keys s.p) s.i key.toNat) n) ∧
      ∀ j ∈ s.used, j ∈ used ∨ j ≤ n := by
  induction fuel generalizing p i used with
  | zero => cases h
  | succ fuel ih =>
    rw [insertLoop] at h
    split_ifs at h with hlt
    · -- in slot 1 the loop would go on for ever with slot 0
      have hi2 : 2 ≤ i := by
        by_contra hi1
        obtain rfl : i = 1 := by omega
        rw [insertLoop_diverges] at h
        · -- the father's key is not smaller: the loop stops and slot `i` is the hole
          cases h
        · intro j hj
          obtain rfl : j = 0 := by omega
          rw [Function.update_of_ne (by decide)]
          exact hlt
      obtain ⟨hs1, hsn, hothers, hordered, hused⟩ := ih (by omega) (by omega) h
      refine ⟨hs1, hsn, ?_, fun hrising => hordered ?_, fun j hj => ?_⟩
      · rw [hothers]
        exact MaxHeap.others_move hi hin (by omega) (by omega) (by omega)
      · rw [keys_update]
        exact hrising.move hi2 hin (Nat.le_of_lt (keys_lt_iff.mp hlt))
      · rcases hused j hj with hj | hj
        · simp only [List.mem_append, List.mem_cons, List.not_mem_nil, or_false] at hj
          rcases hj with hj | rfl | rfl
          · exact Or.inl hj
          · exact Or.inr (by omega)
          · exact Or.inr hin
        · exact Or.inr hj
    · cases h
      rw [keys_lt_iff, Nat.not_lt] at hlt
      refine ⟨hi, hin, rfl, fun hrising => hrising.finish fun _ => hlt, fun j hj => ?_⟩
      rcases List.mem_append.mp hj with hj | hj
      · exact Or.inl hj
      · obtain rfl := List.mem_singleton.mp hj
        exact Or.inr (by omega)

end InsertLoop

/-! ### Insertion -/

/-- What a call of `heap_insert` on a heap with room leaves when it returns. -/
theorem heapInsert_ok {h : HeapH D} {fuel : ℕ} {data : D} {key : UInt32} {r : Inserted D}
    (hroom : h.cnt < h.size) (hr : h.heapInsert fuel data key = .ok r) :
    r.ret = 0 ∧ (∀ i ∈ r.used, i ≤ h.cnt + 1) ∧ r.heap.cnt = h.cnt + 1 ∧
      r.heap.size = h.size ∧ r.heap.entries = { key := key, data := data } ::ₘ h.entries ∧
      (h.MaxOrder → r.heap.MaxOrder) := by
  rw [heapInsert, dif_neg (Nat.not_le_of_lt hroom)] at hr
  obtain ⟨s, hs, hr⟩ := bind_eq_ok.mp hr
  obtain rfl := Except.ok.inj hr
  obtain ⟨hs1, hsn, hothers, hordered, hused⟩ :=
    insertLoop_ok (Nat.le_add_left 1 h.cnt) (Nat.le_refl _) hs
  refine ⟨rfl, fun i hi => ?_, rfl, rfl, ?_, fun hord => ?_⟩
  · rcases List.mem_append.mp hi with hi | hi
    · exact (hused i hi).resolve_left List.not_mem_nil
    · obtain rfl := List.mem_singleton.mp hi
      exact hsn
  · rw [entries, MaxHeap.entries_update _ hs1 hsn, hothers, MaxHeap.others_last, entries]
  · rw [MaxOrder, keys_update]
    exact hordered (MaxHeap.Ordered.rising hord _)

/-- The call of `heap_insert` terminates, returns 0, uses no index outside the array, and leaves
a heap in order that has gained the one entry. -/
def InsertsRight (h : HeapH D) (data : D) (key : UInt32) : Prop :=
  ∃ fuel r, h.heapInsert fuel data key = .ok r ∧ r.ret = 0 ∧ (∀ i ∈ r.used, i ≤ h.size) ∧
    r.heap.cnt = h.cnt + 1 ∧ r.heap.MaxOrder ∧
    r.heap.entries = { key := key, data := data } ::ₘ h.entries

/-- **No new maximum.** `heap_insert` is right for the keys that are not larger than the root's,
and in an empty heap for the key 0. For the others it does not terminate. -/
theorem insertsRight_iff (h : HeapH D) (hroom : h.cnt < h.size) (hord : h.MaxOrder)
    (hspare : (h.p 0).key = 0) (data : D) (key : UInt32) :
    h.InsertsRight data key ↔
      (1 ≤ h.cnt → key ≤ (h.p 1).key) ∧ (h.cnt = 0 → key = 0) := by
  have hspare' : keys h.p 0 = 0 := by rw [keys, hspare, UInt32.toNat_zero]
  constructor
  · rintro ⟨fuel, r, hr, -⟩
    rw [heapInsert, dif_neg (Nat.not_le_of_lt hroom)] at hr
    obtain ⟨s, hs, -⟩ := bind_eq_ok.mp hr
    -- if all keys were smaller, the loop would not have ended
    have hstop : ¬∀ j ≤ (h.cnt + 1) / 2, (h.p j).key < key := fun hall => by
      rw [insertLoop_diverges hall] at hs
      cases hs
    refine ⟨fun hcnt => ?_, fun hcnt => ?_⟩
    · rw [UInt32.le_iff_toNat_le]
      by_contra hlt
      refine hstop fun j hj => keys_lt_iff.mpr ?_
      rcases Nat.eq_zero_or_pos j with rfl | hj1
      · omega
      · have hroot : keys h.p j ≤ keys h.p 1 := MaxHeap.Ordered.le_root hord hj1 (by omega)
        exact Nat.lt_of_le_of_lt hroot (Nat.lt_of_not_le hlt)
    · by_contra hkey
      refine hstop fun j hj => keys_lt_iff.mpr ?_
      obtain rfl : j = 0 := by omega
      rw [hspare', Nat.pos_iff_ne_zero]
      exact fun h0 => hkey (UInt32.toNat.inj h0)
  · rintro ⟨hroot, hempty⟩
    obtain ⟨s, hs⟩ : ∃ s, insertLoop key (h.cnt + 1) h.p (h.cnt + 1) [] = .ok s := by
      rcases Nat.eq_zero_or_pos h.cnt with hcnt | hcnt
      · refine ⟨{ p := h.p, i := 1, used := [0] }, ?_⟩
        rw [hcnt, insertLoop, if_neg]
        · rfl
        · rw [hempty hcnt]
          exact UInt32.not_lt_zero
      · exact exists_insertLoop (by omega) (UInt32.le_iff_toNat_le.mp (hroot hcnt))
          (Nat.le_refl _) []
    obtain ⟨r, hr⟩ : ∃ r, h.heapInsert (h.cnt + 1) data key = .ok r := by
      rw [heapInsert, dif_neg (Nat.not_le_of_lt hroom), hs]
      exact ⟨_, rfl⟩
    obtain ⟨hret, hused, hcnt, -, hentries, hmax⟩ := heapInsert_ok hroom hr
    exact ⟨h.cnt + 1, r, hr, hret, fun i hi => Nat.le_trans (hused i hi) hroom, hcnt, hmax hord,
      hentries⟩

/-- A heap of one entry in an array for two. -/
def oneEntry : HeapH ℕ where
  size := 2
  cnt := 1
  p := Function.update (fun _ => { key := 0, data := 0 }) 1 { key := 5, data := 1 }
  cnt_le := by decide

/-- An entry with a smaller key is inserted. -/
theorem insertsRight_oneEntry : oneEntry.InsertsRight 2 3 :=
  (insertsRight_iff oneEntry (by decide) (by decide) (by decide) 2 3).mpr (by decide)

/-- One with a larger key is not. -/
theorem not_insertsRight_oneEntry :
    ¬∀ h : HeapH ℕ, h.cnt < h.size → h.MaxOrder → (h.p 0).key = 0 →
      ∀ data key, h.InsertsRight data key := by
  intro hall
  obtain ⟨fuel, r, hr, -⟩ := hall oneEntry (by decide) (by decide) (by decide) 2 7
  rw [heapInsert, dif_neg (by decide), insertLoop_diverges (by decide)] at hr
  cases hr

/-! ### The loop of `heap_max_delete` -/

section DeleteLoop

variable {p : ℕ → HeapT D} {last : HeapT D} {cnt i fuel : ℕ} {used : List ℕ}

theorem child_spec (p : ℕ → HeapT D) (hi : i * 2 ≤ cnt) :
    i * 2 ≤ (child cnt p i).1 ∧ (child cnt p i).1 ≤ cnt ∧
      ∀ j ∈ (child cnt p i).2, i * 2 ≤ j ∧ j ≤ cnt := by
  rw [child]
  split_ifs with hne hlt
  · refine ⟨by omega, by omega, fun j hj => ?_⟩
    simp only [List.mem_cons, List.not_mem_nil, or_false] at hj
    omega
  · refine ⟨by omega, by omega, fun j hj => ?_⟩
    simp only [List.mem_cons, List.not_mem_nil, or_false] at hj
    omega
  · exact ⟨Nat.le_refl _, hi, fun j hj => absurd hj List.not_mem_nil⟩

/-- The choice of a child depends on the children only. -/
theorem child_congr {p' : ℕ → HeapT D} (hp : ∀ j, i * 2 ≤ j → j ≤ cnt → p' j = p j)
    (hi : i * 2 ≤ cnt) : child cnt p' i = child cnt p i := by
  rw [child, child]
  by_cases hne : i * 2 ≠ cnt
  · rw [hp (i * 2) (Nat.le_refl _) hi, hp (i * 2 + 1) (by omega) (by omega)]
  · rw [if_neg hne, if_neg hne]

/-- The loop ends, whatever the keys. The hole is then one of the slots `1`, …, `cnt`, the
entries beside it are those there were, and no other indices were used. -/
theorem exists_deleteLoop (last : HeapT D) (hi : 1 ≤ i) (hcnt : i ≤ cnt) (hfuel : cnt < fuel + i)
    (used : List ℕ) : ∃ s, deleteLoop last cnt fuel p i used = .ok s ∧ 1 ≤ s.i ∧ s.i ≤ cnt ∧
      MaxHeap.others s.p cnt s.i = MaxHeap.others p cnt i ∧
      ∀ j ∈ s.used, j ∈ used ∨ 1 ≤ j ∧ j ≤ cnt := by
  induction fuel generalizing p i used with
  | zero => omega
  | succ fuel ih =>
    rw [deleteLoop]
    -- the hole goes down while a larger child is there
    split_ifs with hchild
    · obtain ⟨hc, hcn, hcompared⟩ := child_spec p hchild
      dsimp only
      split_ifs with hlt
      · obtain ⟨s, hs, hs1, hsn, hothers, hused⟩ := ih
          (p := Function.update p i (p (child cnt p i).1)) (by omega) hcn (by omega)
          (used ++ (child cnt p i).2 ++ [(child cnt p i).1, i])
        refine ⟨s, hs, hs1, hsn, ?_, fun j hj => ?_⟩
        · rw [hothers]
          exact MaxHeap.others_move hi hcnt (by omega) hcn (by omega)
        · rcases hused j hj with hj | hj
          · simp only [List.mem_append, List.mem_cons, List.not_mem_nil, or_false] at hj
            rcases hj with (hj | hj) | rfl | rfl
            · exact Or.inl hj
            · have := hcompared j hj
              exact Or.inr (by omega)
            · exact Or.inr (by omega)
            · exact Or.inr ⟨hi, hcnt⟩
          · exact Or.inr hj
      · refine ⟨_, rfl, hi, hcnt, rfl, fun j hj => ?_⟩
        simp only [List.mem_append, List.mem_cons, List.not_mem_nil, or_false] at hj
        rcases hj with (hj | hj) | rfl
        · exact Or.inl hj
        · have := hcompared j hj
          exact Or.inr (by omega)
        · exact Or.inr (by omega)
    · exact ⟨_, rfl, hi, hcnt, rfl, fun j hj => Or.inl hj⟩

end DeleteLoop

/-! ### Deletion -/

theorem heapMaxDelete_eq {h : HeapH D} {fuel : ℕ} {s : Hole D} (hcnt : 1 ≤ h.cnt)
    (hs : deleteLoop (h.p h.cnt) (h.cnt - 1) fuel h.p 1 [h.cnt] = .ok s) :
    h.heapMaxDelete fuel = .ok (h.refill s) := by
  rw [heapMaxDelete, if_neg (by omega), hs]
  rfl

/-- A heap of one entry loses it, but it stays in its slot. -/
theorem heapMaxDelete_one {h : HeapH D} (hcnt : h.cnt = 1) (fuel : ℕ) :
    h.heapMaxDelete (fuel + 1) = .ok (h.refill { p := h.p, i := 1, used := [1] }) := by
  refine heapMaxDelete_eq (by omega) ?_
  rw [deleteLoop, if_neg (by omega), hcnt]

theorem entries_refill (h : HeapH D) (s : Hole D) : (h.refill s).heap.entries =
    MaxHeap.entries (Function.update s.p s.i (h.p h.cnt)) (h.cnt - 1) := rfl

theorem entries_eq_last (h : HeapH D) (hcnt : 1 ≤ h.cnt) :
    h.entries = h.p h.cnt ::ₘ MaxHeap.entries h.p (h.cnt - 1) := by
  obtain ⟨n, hn⟩ : ∃ n, h.cnt = n + 1 := ⟨h.cnt - 1, by omega⟩
  rw [entries, hn, MaxHeap.entries_succ, Nat.add_sub_cancel]

/-- **Deletion keeps the other entries.** Whatever the keys, `heap_max_delete` terminates, uses
the slots `1`, …, `cnt` only, and leaves all entries but that of slot 1. -/
theorem heapMaxDelete_entries (h : HeapH D) (hcnt : 1 ≤ h.cnt) :
    ∃ r, h.heapMaxDelete h.cnt = .ok r ∧ (∀ i ∈ r.used, 1 ≤ i ∧ i ≤ h.cnt) ∧
      r.heap.cnt = h.cnt - 1 ∧ h.p 1 ::ₘ r.heap.entries = h.entries := by
  rcases Nat.eq_or_lt_of_le hcnt with hone | hmore
  · obtain ⟨fuel, hfuel⟩ : ∃ fuel, h.cnt = fuel + 1 := ⟨0, hone.symm⟩
    refine ⟨_, by rw [hfuel]; exact heapMaxDelete_one hone.symm fuel, fun i hi => ?_, rfl, ?_⟩
    · simp only [refill, List.mem_append, List.mem_singleton, or_self] at hi
      omega
    · rw [h.entries_eq_last hcnt, entries_refill, ← hone]
      rfl
  · have hfuel : h.cnt - 1 < h.cnt + 1 := by omega
    obtain ⟨s, hs, hs1, hsn, hothers, hused⟩ := exists_deleteLoop (p := h.p) (h.p h.cnt)
      (Nat.le_refl 1) (Nat.le_sub_one_of_lt hmore) hfuel [h.cnt]
    refine ⟨_, heapMaxDelete_eq hcnt hs, fun i hi => ?_, rfl, ?_⟩
    · rcases List.mem_append.mp hi with hi | hi
      · rcases hused i hi with hi | hi
        · obtain rfl := List.mem_singleton.mp hi
          exact ⟨hcnt, Nat.le_refl _⟩
        · omega
      · obtain rfl := List.mem_singleton.mp hi
        omega
    · rw [h.entries_eq_last hcnt, MaxHeap.entries_eq_cons h.p (Nat.le_refl 1)
        (Nat.le_sub_one_of_lt hmore), entries_refill, MaxHeap.entries_update _ hs1 hsn, hothers,
        Multiset.cons_swap]

/-- A heap whose array is full. -/
def full (size : ℕ) (p : ℕ → HeapT D) : HeapH D where
  size := size
  cnt := size
  p := p
  cnt_le := Nat.le_refl size

/-- Two entries with the keys 5 and 3. -/
def twoEntries : HeapH ℕ :=
  full 2 (Function.update (fun _ => { key := 3, data := 2 }) 1 { key := 5, data := 1 })

/-! ### The order after a deletion -/

section Order

variable {h : HeapH D}

/-- The loop ends in its first round, at slot 1, unless slot 3 is the last and has a larger key
than slot 2: the larger child of the root is otherwise above the last entry. -/
theorem deleteLoop_stays (hord : h.MaxOrder) (hcnt : 1 ≤ h.cnt)
    (hthree : h.cnt = 3 → keys h.p 3 ≤ keys h.p 2) (fuel : ℕ) :
    ∃ used, deleteLoop (h.p h.cnt) (h.cnt - 1) (fuel + 1) h.p 1 [h.cnt] =
      .ok { p := h.p, i := 1, used := used } := by
  rw [deleteLoop]
  split_ifs with hchild
  · have hle : keys h.p h.cnt ≤ keys h.p (child (h.cnt - 1) h.p 1).1 := by
      rw [child]
      split_ifs with hne hlt
      · rw [gt_iff_lt, keys_lt_iff] at hlt
        rcases MaxHeap.Ordered.le_child hord (by omega) (Nat.le_refl _) with hle | ⟨-, hle⟩
        · exact hle.trans (Nat.le_of_lt hlt)
        · exact hle
      · rw [gt_iff_lt, keys_lt_iff, Nat.not_lt] at hlt
        rcases MaxHeap.Ordered.le_child hord (by omega) (Nat.le_refl _) with hle | ⟨-, hle⟩
        · exact hle
        · exact hle.trans hlt
      · have hcnt3 : h.cnt = 3 := by omega
        rw [hcnt3]
        exact hthree hcnt3
    dsimp only
    rw [if_neg]
    · exact ⟨_, rfl⟩
    · rw [gt_iff_lt, keys_lt_iff]
      exact Nat.not_lt.mpr hle
  · exact ⟨_, rfl⟩

/-- In a heap of three entries whose last has a larger key than slot 2, slot 2 is moved up. -/
theorem deleteLoop_three {p : ℕ → HeapT D} {last : HeapT D} {fuel : ℕ} {used : List ℕ}
    {s : Hole D} (hlt : (p 2).key < last.key) (hs : deleteLoop last 2 fuel p 1 used = .ok s) :
    s.p = Function.update p 1 (p 2) ∧ s.i = 2 := by
  have hchild : child 2 p 1 = (2, []) := rfl
  rcases fuel with _ | fuel
  · cases hs
  · rw [deleteLoop, if_pos (by decide), hchild] at hs
    dsimp only at hs
    rw [if_pos hlt] at hs
    rcases fuel with _ | fuel
    · cases hs
    · rw [deleteLoop, if_neg (by decide)] at hs
      cases hs
      exact ⟨rfl, rfl⟩

/-- `heap_max_delete` returns, the entries that remain are in order, and the slot it returns
has the entry that was removed. -/
def DeletesRight (h : HeapH D) : Prop :=
  ∃ fuel r, h.heapMaxDelete fuel = .ok r ∧ r.heap.cnt = h.cnt - 1 ∧ r.heap.MaxOrder ∧
    ∃ i, r.ret = some i ∧ r.heap.p i = h.p 1

/-- **The slot that is returned is overwritten.** `heap_max_delete` is right for the heaps whose
last entry is the same as the first, and if they have three entries, the key of the second is
that of the first. -/
theorem deletesRight_iff (h : HeapH D) (hcnt : 1 ≤ h.cnt) (hord : h.MaxOrder) :
    h.DeletesRight ↔ h.p h.cnt = h.p 1 ∧ (h.cnt = 3 → (h.p 2).key = (h.p 1).key) := by
  by_cases hthree : h.cnt = 3 → keys h.p 3 ≤ keys h.p 2
  · -- the last entry goes to slot 1
    have hres : ∀ fuel, ∃ used, h.heapMaxDelete (fuel + 1) =
        .ok (h.refill { p := h.p, i := 1, used := used }) := fun fuel => by
      obtain ⟨used, hused⟩ := deleteLoop_stays hord hcnt hthree fuel
      exact ⟨used, heapMaxDelete_eq hcnt hused⟩
    constructor
    · rintro ⟨_ | fuel, r, hr, -, -, i, hi, hp⟩
      · rw [heapMaxDelete, if_neg (by omega)] at hr
        cases hr
      · obtain ⟨used, hused⟩ := hres fuel
        rw [hused] at hr
        obtain rfl := Except.ok.inj hr
        obtain rfl : 1 = i := Option.some.inj hi
        have hlast : h.p h.cnt = h.p 1 := by
          rw [← hp]
          exact (Function.update_self 1 _ h.p).symm
        refine ⟨hlast, fun hcnt3 => UInt32.toNat.inj (Nat.le_antisymm ?_ ?_)⟩
        · exact MaxHeap.Ordered.le_root hord (by decide) (by omega)
        · rw [hcnt3] at hlast
          rw [← hlast]
          exact hthree hcnt3
    · rintro ⟨hlast, -⟩
      obtain ⟨used, hused⟩ := hres 0
      refine ⟨1, _, hused, rfl, ?_, 1, rfl, ?_⟩
      · refine MaxHeap.Ordered.congr (MaxHeap.Ordered.mono hord (Nat.sub_le h.cnt 1)) ?_
        intro i _ _
        simp only [refill, hlast, Function.update_eq_self]
      · simp only [refill, hlast, Function.update_self]
  · -- slot 2 goes to slot 1, and slot 3 with the larger key to slot 2
    obtain ⟨hcnt3, hlt⟩ := Classical.not_imp.mp hthree
    rw [Nat.not_le] at hlt
    have hnot : ¬(h.p h.cnt = h.p 1 ∧ (h.cnt = 3 → (h.p 2).key = (h.p 1).key)) := by
      rintro ⟨hlast, hkey⟩
      rw [hcnt3] at hlast
      have hkeys : keys h.p 3 = keys h.p 2 := by
        rw [keys, keys, hlast, hkey hcnt3]
      omega
    refine iff_of_false ?_ hnot
    rintro ⟨fuel, r, hr, -, hmax, -⟩
    rw [heapMaxDelete, if_neg (by omega)] at hr
    obtain ⟨s, hs, hr⟩ := bind_eq_ok.mp hr
    obtain rfl := Except.ok.inj hr
    rw [hcnt3] at hs
    obtain ⟨hp, hi⟩ := deleteLoop_three (keys_lt_iff.mpr hlt) hs
    have hle := hmax 2 (Nat.le_refl 2) (by simp only [refill]; omega)
    simp only [refill, hp, hi, hcnt3, keys_update] at hle
    rw [Function.update_self, Function.update_of_ne (by decide), Function.update_self] at hle
    exact absurd hle (Nat.not_le.mpr hlt)

/-- Deleting the only entry is right. -/
theorem deletesRight_oneEntry : oneEntry.DeletesRight :=
  (deletesRight_iff oneEntry (by decide) (by decide)).mpr (by decide)

/-- Of two different entries the wrong one is returned. -/
theorem not_deletesRight_twoEntries :
    ¬∀ h : HeapH ℕ, 1 ≤ h.cnt → h.MaxOrder → h.DeletesRight := by
  intro hall
  obtain ⟨_ | fuel, r, hr, -, -, i, hi, hp⟩ := hall twoEntries (by decide) (by decide)
  · cases hr
  · obtain rfl := Except.ok.inj hr
    obtain rfl : 1 = i := Option.some.inj hi
    exact absurd hp (by decide)

end Order

end HeapH

end Lidas
