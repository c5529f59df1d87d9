import Mathlib.Logic.Relation
import Lidas.Memory.Heap

/-!
# Deletion with indices of type `int`

`heap_insert` has an `unsigned int i`, but `i` and `Child` of `heap_max_delete` are of type `int`,
and so is `cnt`. As long as the hole stays below slot `2 ^ 30`, the products `i*2` are
the numbers they are meant to be, and `heap_max_delete` is that of natural numbers
(`deleteLoopInt_eq`). From a hole behind that, `i*2` wraps around to a negative number, which is
below any `cnt`: the loop goes on, with slots in front of the array.

The hole gets there in a heap of more than `2 ^ 30` entries, if on the way down from the root the
larger child of each slot has a smaller key than the last entry (`keepsEntries_iff`).
-/

namespace Lidas

namespace HeapH

variable {D : Type}

/-- The slot `p[i]` of an array of `size + 1` slots. -/
def slot (size : ℕ) (i : Int32) : Except Fault ℕ :=
  if 0 ≤ i.toInt ∧ i.toInt ≤ size then .ok i.toInt.toNat else .error .outOfBounds

/-- The `Child` that is looked at, with the slots used for the choice. -/
def childInt (size : ℕ) (cnt : Int32) (p : ℕ → HeapT D) (i : Int32) :
    Except Fault (Int32 × List ℕ) :=
  if i * 2 ≠ cnt then do
    let k ← slot size (i * 2 + 1)
    let l ← slot size (i * 2)
    return (if (p k).key > (p l).key then i * 2 + 1 else i * 2, [k, l])
  else .ok (i * 2, [])

/-- The loop of `heap_max_delete`. The slot of the hole is used when it has ended. -/
def deleteLoopInt (size : ℕ) (last : HeapT D) (cnt : Int32) :
    ℕ → (ℕ → HeapT D) → Int32 → List ℕ → Except Fault (Hole D)
  | 0, _, _, _ => .error .diverges
  | fuel + 1, p, i, used =>
    if i * 2 ≤ cnt then do
      let (c, compared) ← childInt size cnt p i
      let k ← slot size c
      let l ← slot size i
      if last.key > (p k).key then
        deleteLoopInt size last cnt fuel (Function.update p l (p k)) c (used ++ compared ++ [k, l])
      else .ok { p := p, i := l, used := used ++ compared ++ [k] }
    else do
      let l ← slot size i
      .ok { p := p, i := l, used := used }

/-- `heap_max_delete`. -/
def heapMaxDeleteInt (fuel : ℕ) (h : HeapH D) : Except Fault (Deleted D) :=
  if h.cnt = 0 then .ok { ret := none, heap := h, used := [] }
  else do
    let s ← deleteLoopInt h.size (h.p h.cnt) (Int32.ofNat (h.cnt - 1)) fuel h.p 1 [h.cnt]
    return h.refill s

/-! ### Rounds of the loop -/

section Round

variable {size cnt n fuel : ℕ} {last : HeapT D} {p : ℕ → HeapT D} {i : Int32}
  {used : List ℕ}

theorem slot_eq (hi : i.toInt = n) (hn : n ≤ size) : slot size i = .ok n := by
  rw [slot, if_pos (by omega), hi, Int.toNat_natCast]

theorem toInt_mul_two (hi : i.toInt = n) (hn : n < 2 ^ 30) : (i * 2).toInt = (n * 2 : ℕ) := by
  have htwo : (2 : Int32).toInt = 2 := by decide
  rw [Int32.toInt_mul, hi, htwo, Int.bmod_eq_of_le (by omega) (by omega)]
  rfl

theorem toInt_succ (hi : i.toInt = n) (hn : n + 1 < 2 ^ 31) : (i + 1).toInt = (n + 1 : ℕ) := by
  have hone : (1 : Int32).toInt = 1 := by decide
  rw [Int32.toInt_add, hi, hone, Int.bmod_eq_of_le (by omega) (by omega)]
  rfl

/-- The product is too large for an `int`. -/
theorem toInt_mul_two_wraps (hi : i.toInt = n) (hn : 2 ^ 30 ≤ n) (hlt : n < 2 ^ 31) :
    (i * 2).toInt = n * 2 - 2 ^ 32 := by
  have htwo : (2 : Int32).toInt = 2 := by decide
  rw [Int32.toInt_mul, hi, htwo, ← Int.sub_bmod_right, Int.bmod_eq_of_le] <;> omega

theorem slot_neg (hi : i.toInt < 0) : slot size i = .error .outOfBounds := by
  rw [slot, if_neg (by omega)]

theorem childInt_eq (hi : i.toInt = n) (hn : n < 2 ^ 30) (hcnt : cnt < 2 ^ 31) (hle : n * 2 ≤ cnt)
    (hsize : cnt ≤ size) (p : ℕ → HeapT D) :
    ∃ c : Int32, childInt size (Int32.ofNat cnt) p i = .ok (c, (child cnt p n).2) ∧
      c.toInt = (child cnt p n).1 := by
  have hmul := toInt_mul_two hi hn
  have heq : i * 2 = Int32.ofNat cnt ↔ n * 2 = cnt := by
    rw [← Int32.toInt_inj, hmul, Int32.toInt_ofNat_of_lt hcnt, Int.natCast_inj]
  rw [childInt, child]
  by_cases hlast : n * 2 = cnt
  · rw [if_neg fun hne => hne (heq.mpr hlast), if_neg fun hne => hne hlast]
    exact ⟨i * 2, rfl, hmul⟩
  · have hnext := toInt_succ hmul (by omega)
    rw [if_pos fun h => hlast (heq.mp h), if_pos hlast, slot_eq hnext (by omega),
      slot_eq hmul (by omega)]
    by_cases hlt : (p (n * 2 + 1)).key > (p (n * 2)).key
    · refine ⟨i * 2 + 1, ?_, by rw [if_pos hlt, hnext]⟩
      simp only [ok_bind, pure_eq_ok, if_pos hlt]
    · refine ⟨i * 2, ?_, by rw [if_neg hlt, hmul]⟩
      simp only [ok_bind, pure_eq_ok, if_neg hlt]

/-- A round that does not wrap around does what one of natural numbers does. -/
theorem deleteLoopInt_succ (last : HeapT D) (fuel : ℕ) (p : ℕ → HeapT D) (used : List ℕ)
    (hi : i.toInt = n) (hn : n < 2 ^ 30) (hcnt : cnt < 2 ^ 31) (hle : cnt ≤ size)
    (hsize : n ≤ size) :
    ∃ c : Int32, (n * 2 ≤ cnt → c.toInt = (child cnt p n).1) ∧
      deleteLoopInt size last (Int32.ofNat cnt) (fuel + 1) p i used =
        if n * 2 ≤ cnt then
          if last.key > (p (child cnt p n).1).key then
            deleteLoopInt size last (Int32.ofNat cnt) fuel
              (Function.update p n (p (child cnt p n).1)) c
              (used ++ (child cnt p n).2 ++ [(child cnt p n).1, n])
          else .ok { p := p, i := n, used := used ++ (child cnt p n).2 ++ [(child cnt p n).1] }
        else .ok { p := p, i := n, used := used } := by
  have hmul : i * 2 ≤ Int32.ofNat cnt ↔ n * 2 ≤ cnt := by
    rw [Int32.le_iff_toInt_le, toInt_mul_two hi hn, Int32.toInt_ofNat_of_lt hcnt, Int.ofNat_le]
  by_cases hchild : n * 2 ≤ cnt
  · obtain ⟨c, hc, hcn⟩ := childInt_eq hi hn hcnt hchild hle p
    have hslot := slot_eq hcn ((child_spec p hchild).2.1.trans hle)
    refine ⟨c, fun _ => hcn, ?_⟩
    rw [deleteLoopInt, if_pos (hmul.mpr hchild), if_pos hchild, hc]
    simp only [ok_bind, hslot, slot_eq hi hsize]
  · refine ⟨0, fun h => absurd h hchild, ?_⟩
    rw [deleteLoopInt, if_neg fun h => hchild (hmul.mp h), if_neg hchild, slot_eq hi hsize]
    rfl

/-- A round that does wrap around uses a slot in front of the array. -/
theorem deleteLoopInt_wraps (hi : i.toInt = n) (hn : 2 ^ 30 ≤ n) (hlt : n < 2 ^ 31)
    (hcnt : cnt < 2 ^ 31) :
    deleteLoopInt size last (Int32.ofNat cnt) (fuel + 1) p i used = .error .outOfBounds := by
  have hmul := toInt_mul_two_wraps hi hn hlt
  have hle : i * 2 ≤ Int32.ofNat cnt := by
    rw [Int32.le_iff_toInt_le, hmul, Int32.toInt_ofNat_of_lt hcnt]
    omega
  have hne : i * 2 ≠ Int32.ofNat cnt := fun heq => by
    rw [← Int32.toInt_inj, hmul, Int32.toInt_ofNat_of_lt hcnt] at heq
    omega
  have hnext : (i * 2 + 1).toInt < 0 := by
    have hone : (1 : Int32).toInt = 1 := by decide
    rw [Int32.toInt_add, hmul, hone, Int.bmod_eq_of_le] <;> omega
  rw [deleteLoopInt, if_pos hle, childInt, if_pos hne, slot_neg hnext]
  rfl

end Round

/-! ### The way down -/

section Way

variable {h : HeapH D}

/-- In the heap as it is before the deletion, slot `j` is the child that is looked at from slot
`i`, and it has a smaller key than the last entry. -/
def Next (h : HeapH D) (i j : ℕ) : Prop :=
  i * 2 ≤ h.cnt - 1 ∧ j = (child (h.cnt - 1) h.p i).1 ∧ (h.p j).key < (h.p h.cnt).key

/-- The slots on the way down from the root. -/
def OnWay (h : HeapH D) : ℕ → Prop := Relation.ReflTransGen h.Next 1

variable {i j n fuel : ℕ} {p : ℕ → HeapT D} {used : List ℕ}

theorem Next.le (hnext : h.Next i j) : i * 2 ≤ j ∧ j ≤ h.cnt - 1 := by
  obtain ⟨hle, rfl, -⟩ := hnext
  exact ⟨(child_spec h.p hle).1, (child_spec h.p hle).2.1⟩

theorem OnWay.le (hcnt : 1 ≤ h.cnt) (hway : h.OnWay i) : 1 ≤ i ∧ i ≤ h.cnt := by
  induction hway with
  | refl => exact ⟨Nat.le_refl 1, hcnt⟩
  | tail _ hnext ih =>
    have := hnext.le
    omega

/-- As long as no slot from `2 ^ 30` on is on the way, the loop is that of natural numbers. -/
theorem deleteLoopInt_eq (hcnt : 1 ≤ h.cnt) (hint : h.cnt < 2 ^ 31)
    (hbelow : ∀ j, h.OnWay j → j < 2 ^ 30) {i : Int32} (hi : i.toInt = n) (hway : h.OnWay n)
    (hp : ∀ k, n ≤ k → p k = h.p k) :
    deleteLoopInt h.size (h.p h.cnt) (Int32.ofNat (h.cnt - 1)) fuel p i used =
      deleteLoop (h.p h.cnt) (h.cnt - 1) fuel p n used := by
  induction fuel generalizing p n i used with
  | zero => rfl
  | succ fuel ih =>
    have hle := h.cnt_le
    obtain ⟨hn1, hncnt⟩ := hway.le hcnt
    obtain ⟨c, hc, hround⟩ := deleteLoopInt_succ (h.p h.cnt) fuel p used hi (hbelow n hway)
      (show h.cnt - 1 < 2 ^ 31 by omega) (show h.cnt - 1 ≤ h.size by omega) (hncnt.trans hle)
    rw [hround, deleteLoop]
    by_cases hchild : n * 2 ≤ h.cnt - 1
    · have hspec := child_spec p hchild
      rw [if_pos hchild, if_pos hchild]
      dsimp only
      by_cases hlt : (h.p h.cnt).key > (p (child (h.cnt - 1) p n).1).key
      · rw [if_pos hlt, if_pos hlt]
        rw [hp _ (by omega)] at hlt
        have hnext : h.Next n (child (h.cnt - 1) p n).1 :=
          ⟨hchild, by rw [child_congr (fun k hk _ => hp k (by omega)) hchild], hlt⟩
        refine ih (hc hchild) (hway.tail hnext) fun k hk => ?_
        rw [Function.update_of_ne (by omega)]
        exact hp k (by omega)
      · rw [if_neg hlt, if_neg hlt]
    · rw [if_neg hchild, if_neg hchild]

/-- The loop ends in a fault if such a slot is still to come. -/
theorem deleteLoopInt_ne_ok (hint : h.cnt < 2 ^ 31) {m : ℕ} (hm : 2 ^ 30 ≤ m)
    (hway : Relation.ReflTransGen h.Next n m) (hn1 : 1 ≤ n) (hncnt : n ≤ h.cnt) {i : Int32}
    (hi : i.toInt = n) (hp : ∀ k, n ≤ k → p k = h.p k) (s : Hole D) :
    deleteLoopInt h.size (h.p h.cnt) (Int32.ofNat (h.cnt - 1)) fuel p i used ≠ .ok s := by
  have hle := h.cnt_le
  have hcnt : h.cnt - 1 < 2 ^ 31 := by omega
  intro hs
  induction hway using Relation.ReflTransGen.head_induction_on generalizing fuel p i used with
  | refl =>
    cases fuel with
    | zero => cases hs
    | succ fuel =>
      rw [deleteLoopInt_wraps hi hm (by omega) hcnt] at hs
      cases hs
  | @head n j hnext _ ih =>
    cases fuel with
    | zero => cases hs
    | succ fuel =>
      have hj := hnext.le
      obtain ⟨hchild, hjchild, hlt⟩ := hnext
      obtain ⟨c, hc, hround⟩ := deleteLoopInt_succ (h.p h.cnt) fuel p used hi (by omega) hcnt
        (by omega) (hncnt.trans hle)
      have hsame : child (h.cnt - 1) p n = child (h.cnt - 1) h.p n :=
        child_congr (fun k hk _ => hp k (by omega)) hchild
      rw [hround, if_pos hchild, hsame, ← hjchild, hp j (by omega), if_pos hlt] at hs
      refine ih (by omega) (by omega) ?_ (fun k hk => ?_) hs
      · rw [hc hchild, hsame, hjchild]
      · rw [Function.update_of_ne (by omega)]
        exact hp k (by omega)

/-- The call of `heap_max_delete` terminates, uses no index outside `1`, …, `cnt`, and leaves all
entries but that of slot 1. -/
def KeepsEntries (h : HeapH D) : Prop :=
  ∃ fuel r, h.heapMaxDeleteInt fuel = .ok r ∧ (∀ i ∈ r.used, 1 ≤ i ∧ i ≤ h.cnt) ∧
    r.heap.cnt = h.cnt - 1 ∧ h.p 1 ::ₘ r.heap.entries = h.entries

/-- **The hole must stay where `i*2` is an `int`.** `heap_max_delete` loses and duplicates nothing
if the way down from the root ends before slot `2 ^ 30`. Otherwise it leaves the array. -/
theorem keepsEntries_iff (h : HeapH D) (hcnt : 1 ≤ h.cnt) (hint : h.cnt < 2 ^ 31) :
    h.KeepsEntries ↔ ∀ i, h.OnWay i → i < 2 ^ 30 := by
  have hne : h.cnt ≠ 0 := by omega
  have hroot : (1 : Int32).toInt = (1 : ℕ) := by decide
  constructor
  · rintro ⟨fuel, r, hr, -⟩ i hway
    by_contra hi
    rw [heapMaxDeleteInt, if_neg hne] at hr
    obtain ⟨s, hs, -⟩ := bind_eq_ok.mp hr
    exact deleteLoopInt_ne_ok hint (Nat.le_of_not_lt hi) hway (Nat.le_refl 1) hcnt hroot
      (fun _ _ => rfl) s hs
  · intro hbelow
    obtain ⟨r, hr, hused, hrcnt, hentries⟩ := heapMaxDelete_entries h hcnt
    refine ⟨h.cnt, r, ?_, hused, hrcnt, hentries⟩
    rw [heapMaxDeleteInt, if_neg hne,
      deleteLoopInt_eq hcnt hint hbelow hroot Relation.ReflTransGen.refl fun _ _ => rfl, ← hr,
      heapMaxDelete, if_neg hne]

/-- The last of four entries is moved to slot 2. -/
def fourEntries : HeapH ℕ :=
  full 4 fun i => { key := if i = 1 then 5 else if i = 4 then 4 else 3, data := i }

/-- Its way down is far from slot `2 ^ 30`. -/
theorem keepsEntries_fourEntries : fourEntries.KeepsEntries :=
  (keepsEntries_iff fourEntries (by decide) (by decide)).mpr fun _ hway =>
    Nat.lt_of_le_of_lt (hway.le (by decide)).2 (by decide)

/-- An array of `2 ^ 30 + 1` entries that has the key 0 in all slots but the last. -/
def manyEntries : HeapH ℕ :=
  full (2 ^ 30 + 1) fun i => { key := if i = 2 ^ 30 + 1 then 2 else 0, data := 0 }

theorem key_manyEntries {i : ℕ} (hi : i ≤ 2 ^ 30) : (manyEntries.p i).key = 0 :=
  if_neg (by omega)

/-- The way down goes by the slots `1`, `2`, `4`, and so on. -/
theorem onWay_manyEntries {k : ℕ} (hk : k ≤ 30) : manyEntries.OnWay (2 ^ k) := by
  induction k with
  | zero => exact Relation.ReflTransGen.refl
  | succ k ih =>
    have hpow : 2 ^ k * 2 ≤ 2 ^ 30 := by
      rw [← pow_succ]
      exact Nat.pow_le_pow_right Nat.two_pos hk
    refine (ih (Nat.le_of_succ_le hk)).tail ⟨hpow, ?_, ?_⟩
    · have hcnt : manyEntries.cnt - 1 = 2 ^ 30 := rfl
      rw [hcnt, child, pow_succ]
      by_cases hlast : 2 ^ k * 2 = 2 ^ 30
      · rw [if_neg fun hne => hne hlast]
      · have hnext : 2 ^ k * 2 + 1 ≤ 2 ^ 30 := Nat.lt_of_le_of_ne hpow hlast
        rw [if_pos hlast, key_manyEntries hpow, key_manyEntries hnext]
        rfl
    · rw [pow_succ, key_manyEntries hpow]
      decide

/-- Nothing keeps the hole from slot `2 ^ 30`. -/
theorem not_keepsEntries_manyEntries :
    ¬∀ h : HeapH ℕ, 1 ≤ h.cnt → h.cnt < 2 ^ 31 → h.KeepsEntries := by
  intro hall
  obtain ⟨fuel, r, hr, -⟩ := hall manyEntries (by decide) (by decide)
  rw [heapMaxDeleteInt, if_neg (by decide)] at hr
  obtain ⟨s, hs, -⟩ := bind_eq_ok.mp hr
  exact deleteLoopInt_ne_ok (by decide) (Nat.le_refl _) (onWay_manyEntries (Nat.le_refl 30))
    (Nat.le_refl 1) (by decide) (by decide) (fun _ _ => rfl) s hs

end Way

end HeapH

end Lidas
