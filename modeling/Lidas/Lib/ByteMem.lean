import Mathlib.Tactic.Common
import Mathlib.Tactic.Ring

/-!
# Byte-addressed memory

A memory assigns a byte to every address. Multi-byte values are stored little endian, so a
pointer occupies the eight cells from its address on. `load64`/`store64` are the typed
accesses, `memset` the block fill. The lemmas say when a read sees a write: a load returns
what the store at the same address wrote (`load64_store64`), and every access outside the
written interval is unchanged (`store64_of_outside`, `memset_of_outside`,
`load64_congr`, `load64_store64_of_disjoint`).
-/

namespace Lidas

/-- A memory: one byte at every address. -/
abbrev Mem := ℕ → UInt8

namespace Mem

/-- The `n`-byte little-endian value stored from address `a` on. -/
def loadLE (m : Mem) : ℕ → ℕ → ℕ
  | 0, _ => 0
  | n + 1, a => (m a).toNat + 256 * loadLE m n (a + 1)

/-- Write the low `n` bytes of `v`, little endian, from address `a` on. -/
def storeLE (m : Mem) (n a v : ℕ) : Mem := fun x =>
  if a ≤ x ∧ x < a + n then UInt8.ofNat (v / 256 ^ (x - a)) else m x

/-- The pointer-sized value at address `a`. -/
def load64 (m : Mem) (a : ℕ) : ℕ := loadLE m 8 a

/-- Store a pointer-sized value at address `a`. -/
def store64 (m : Mem) (a v : ℕ) : Mem := storeLE m 8 a v

/-- Set the `n` bytes from address `a` on to `b`. -/
def memset (m : Mem) (a : ℕ) (b : UInt8) (n : ℕ) : Mem := fun x =>
  if a ≤ x ∧ x < a + n then b else m x

/-- Two memories agree on the `n` bytes from address `a` on. -/
def AgreeOn (m m' : Mem) (a n : ℕ) : Prop := ∀ i < n, m (a + i) = m' (a + i)

theorem loadLE_congr {m m' : Mem} {n a : ℕ} (h : AgreeOn m m' a n) :
    loadLE m n a = loadLE m' n a := by
  induction n generalizing a with
  | zero => rfl
  | succ n ih =>
    have htail : AgreeOn m m' (a + 1) n := fun i hi => by
      have := h (i + 1) (by omega)
      rwa [show a + (i + 1) = a + 1 + i by omega] at this
    have hhead : m a = m' a := by simpa using h 0 (by omega)
    rw [loadLE, loadLE, hhead, ih htail]

/-- A load sees only the eight bytes it reads. -/
theorem load64_congr {m m' : Mem} {a : ℕ} (h : AgreeOn m m' a 8) : load64 m a = load64 m' a :=
  loadLE_congr h

/-- Cleared bytes are the number zero. -/
theorem load64_eq_zero {m : Mem} {a : ℕ} (h : ∀ i < 8, m (a + i) = 0) : load64 m a = 0 := by
  have hzero (n : ℕ) : ∀ {a : ℕ}, (∀ i < n, m (a + i) = 0) → loadLE m n a = 0 := by
    induction n with
    | zero => exact fun _ => rfl
    | succ n ih =>
      intro a h
      have hhead : m a = 0 := h 0 (Nat.succ_pos n)
      have htail (i : ℕ) (hi : i < n) : m (a + 1 + i) = 0 := by
        rw [Nat.add_assoc, Nat.add_comm 1 i]
        exact h (i + 1) (by omega)
      rw [loadLE, hhead, ih htail]
      rfl
  exact hzero 8 h

/-- Bytes outside the written interval are unchanged. -/
theorem store64_of_outside {m : Mem} {a v x : ℕ} (h : x < a ∨ a + 8 ≤ x) :
    store64 m a v x = m x := by
  rw [store64, storeLE, if_neg (by omega)]

/-- A load does not see a store to other bytes. -/
theorem load64_store64_of_disjoint {m : Mem} {a b v : ℕ} (h : b + 8 ≤ a ∨ a + 8 ≤ b) :
    load64 (store64 m a v) b = load64 m b :=
  load64_congr fun i hi => store64_of_outside (by omega)

theorem memset_of_outside {m : Mem} {a n x : ℕ} {b : UInt8} (h : x < a ∨ a + n ≤ x) :
    memset m a b n x = m x := by
  rw [memset, if_neg (by omega)]

theorem memset_of_inside {m : Mem} {a n x : ℕ} {b : UInt8} (h : a ≤ x ∧ x < a + n) :
    memset m a b n x = b := by
  rw [memset, if_pos h]

/-- Loading back the low `k` bytes out of a longer store, one byte at a time. -/
private theorem loadLE_storeLE_aux (m : Mem) (n a v : ℕ) :
    ∀ k j, j + k = n → loadLE (storeLE m n a v) k (a + j) = v / 256 ^ j % 256 ^ k := by
  intro k
  induction k with
  | zero =>
    intro j _
    simp [loadLE, Nat.mod_one]
  | succ k ih =>
    intro j hj
    have hbyte : (storeLE m n a v (a + j)).toNat = v / 256 ^ j % 256 := by
      rw [storeLE, if_pos (by omega), Nat.add_sub_cancel_left]
      simp
    have hrest := ih (j + 1) (by omega)
    rw [show a + (j + 1) = a + j + 1 by omega] at hrest
    rw [loadLE, hbyte, hrest, pow_succ 256 j, ← Nat.div_div_eq_div_mul, pow_succ' 256 k,
      Nat.mod_mul]

/-- What is read back of a value are its low eight bytes. -/
theorem load64_store64_mod (m : Mem) (a v : ℕ) : load64 (store64 m a v) a = v % 2 ^ 64 := by
  have h := loadLE_storeLE_aux m 8 a v 8 0 rfl
  have h256 : (256 : ℕ) ^ 8 = 2 ^ 64 := by norm_num
  rw [Nat.add_zero, pow_zero, Nat.div_one, h256] at h
  exact h

/-- **Load after store.** A value that fits in eight bytes is read back as it was written. -/
theorem load64_store64 {m : Mem} {a v : ℕ} (hv : v < 2 ^ 64) :
    load64 (store64 m a v) a = v := by
  rw [load64_store64_mod, Nat.mod_eq_of_lt hv]

end Mem

end Lidas
