import Mathlib.Data.UInt

/-!
# Counting in words

A `size_t` that holds `-1` steps a counter by one in the direction opposite to the one the
code means: adding it steps back, subtracting it steps forward. A counter that is an `int` steps
like an integer as long as it stays in its range.
-/

namespace Lidas

theorem sub_neg_one (r : UInt64) : r - (-1) = r + 1 := by
  rw [UInt64.sub_eq_add_neg, UInt64.neg_neg]

theorem toNat_add_one {r : UInt64} (h : r.toNat + 1 < 2 ^ 64) : (r + 1).toNat = r.toNat + 1 := by
  rw [UInt64.toNat_add, UInt64.toNat_one]
  omega

theorem toNat_neg_one : (-1 : UInt64).toNat = 2 ^ 64 - 1 := by decide

/-- One step back, or around to the largest word. -/
theorem toNat_add_neg_one (p : UInt64) :
    (p + -1).toNat = if p.toNat = 0 then 2 ^ 64 - 1 else p.toNat - 1 := by
  have hp := p.toNat_lt
  rw [UInt64.toNat_add, toNat_neg_one]
  split_ifs <;> omega

theorem toNat_ofNat_of_le {t : ℕ} {r : UInt64} (h : t ≤ r.toNat) : (UInt64.ofNat t).toNat = t :=
  UInt64.toNat_ofNat_of_lt' (lt_of_le_of_lt h r.toNat_lt)

theorem toNat_sub_ofNat {t : ℕ} {r : UInt64} (h : t ≤ r.toNat) :
    (r - UInt64.ofNat t).toNat = r.toNat - t := by
  have hle : UInt64.ofNat t ≤ r := UInt64.le_iff_toNat_le.mpr (by rw [toNat_ofNat_of_le h]; exact h)
  rw [UInt64.toNat_sub_of_le _ _ hle, toNat_ofNat_of_le h]

theorem toNat_add_ofNat {t : ℕ} {p : UInt64} (h : p.toNat + t < 2 ^ 64) :
    (p + UInt64.ofNat t).toNat = p.toNat + t := by
  have ht : (UInt64.ofNat t).toNat = t := UInt64.toNat_ofNat_of_lt' (show t < 2 ^ 64 by omega)
  rw [UInt64.toNat_add, ht]
  omega

theorem ne_zero_iff_toNat (r : UInt64) : r ≠ 0 ↔ r.toNat ≠ 0 := by
  rw [ne_eq, ne_eq, ← UInt64.toNat_inj, UInt64.toNat_zero]

/-! ### Signed words of 32 bits -/

section Signed

variable {x : BitVec 32} {k : ℕ}

theorem toInt_add_one (hx : x.toInt = k) (hk : k + 1 < 2 ^ 31) :
    (x + 1).toInt = (k + 1 : ℕ) := by
  have hone : (1 : BitVec 32).toInt = 1 := rfl
  rw [BitVec.toInt_add, hx, hone]
  exact Int.bmod_eq_of_le (by omega) (by omega)

theorem toInt_sub_one (hx : x.toInt = (k + 1 : ℕ)) : (x - 1).toInt = k := by
  have hone : (1 : BitVec 32).toInt = 1 := rfl
  have hlt := BitVec.toInt_lt (x := x)
  rw [BitVec.toInt_sub, hx, hone, Nat.cast_add_one, add_sub_cancel_right]
  exact Int.bmod_eq_of_le (by omega) (by omega)

theorem toInt_eq_zero : x.toInt = 0 ↔ x = 0 := BitVec.toInt_inj (y := 0)

end Signed

end Lidas
