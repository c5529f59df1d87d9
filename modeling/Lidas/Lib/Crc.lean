import Mathlib.Data.BitVec
import Mathlib.Data.Fintype.Card
import Mathlib.Data.List.OfFn
import Mathlib.Logic.Function.Iterate
import Mathlib.Tactic.Common

/-!
# Cyclic redundancy checks

A register of `w` bits takes in a message bit by bit, the lowest bit of every byte first: the bit is
added to the lowest bit of the register, which moves down by one place, and the polynomial `p` is
added if a one fell out. The step is linear, and it loses nothing if the polynomial has its highest
bit (`shift_injective`). Hence up to `w` bits of a message are taken in as one word
(`feed_eq_iterate`), no two messages that differ in a window of `w` bits leave the same register
(`feed_window_ne`), and any register is left by exactly one choice of such a window
(`existsUnique_window`).

A byte of `k` bits can be taken in by a table with an entry for each byte (`iterate_shift_table`).
-/

namespace Lidas

namespace Crc

variable {w : ℕ} (p : BitVec w)

/-- The register moves down by one place. -/
def shift (c : BitVec w) : BitVec w := if c.getLsbD 0 then (c >>> 1) ^^^ p else c >>> 1

/-- A bit of the message, added at the low end of the register. -/
def feedBit (c : BitVec w) (b : Bool) : BitVec w := shift p (c ^^^ (BitVec.ofBool b).setWidth w)

/-- The register after a message. -/
def feed (c : BitVec w) (m : List Bool) : BitVec w := m.foldl (feedBit p) c

/-- Bits as a word, the first one lowest. -/
def pack (w : ℕ) (m : List Bool) : BitVec w := (BitVec.ofBoolListLE m).setWidth w

/-- The bits of a word, the lowest one first. -/
def bits {k : ℕ} (b : BitVec k) : List Bool := List.ofFn fun i : Fin k => b.getLsbD i

/-- The bits of two messages are fed one after the other. -/
theorem feed_append (c : BitVec w) (m m' : List Bool) :
    feed p c (m ++ m') = feed p (feed p c m) m' :=
  List.foldl_append

/-! ### The step is linear -/

/-- The register is linear. -/
theorem shift_xor (c d : BitVec w) : shift p (c ^^^ d) = shift p c ^^^ shift p d := by
  have hcancel : ∀ a b : BitVec w, a ^^^ b = a ^^^ p ^^^ (b ^^^ p) := fun a b => by
    rw [BitVec.xor_assoc, BitVec.xor_comm b p, ← BitVec.xor_assoc p p b, BitVec.xor_self,
      BitVec.zero_xor]
  simp only [shift, BitVec.getLsbD_xor, BitVec.ushiftRight_xor_distrib]
  cases c.getLsbD 0 <;> cases d.getLsbD 0
  · rfl
  · exact BitVec.xor_assoc _ _ _
  · show (c >>> 1) ^^^ (d >>> 1) ^^^ p = (c >>> 1) ^^^ p ^^^ (d >>> 1)
    rw [BitVec.xor_assoc, BitVec.xor_comm (d >>> 1), ← BitVec.xor_assoc]
  · exact hcancel _ _


/-- So it is over several shifts. -/
theorem iterate_shift_xor (n : ℕ) (c d : BitVec w) :
    (shift p)^[n] (c ^^^ d) = (shift p)^[n] c ^^^ (shift p)^[n] d := by
  induction n generalizing c d with
  | zero => rfl
  | succ n ih => simp only [Function.iterate_succ_apply, shift_xor, ih]

theorem xor_xor_cancel (c d : BitVec w) : c ^^^ (c ^^^ d) = d := by
  rw [← BitVec.xor_assoc, BitVec.xor_self, BitVec.zero_xor]

instance finite_bitVec : Finite (BitVec w) := Finite.of_equiv _ BitVec.equivFin.toEquiv.symm

/-- The highest bit of the polynomial shows whether a one fell out. -/
theorem shift_injective {p : BitVec w} (hp : p.getLsbD (w - 1) = true) :
    Function.Injective (shift p) := by
  have hw : 0 < w := by
    rcases Nat.eq_zero_or_pos w with rfl | h
    · simp at hp
    · exact h
  have hker : ∀ c : BitVec w, shift p c = 0#w → c = 0#w := by
    intro c hc
    have htop : (shift p c).getLsbD (w - 1) = c.getLsbD 0 := by
      have hout : (c >>> 1).getLsbD (w - 1) = false := by
        rw [BitVec.getLsbD_ushiftRight, Nat.add_sub_cancel' hw]
        exact BitVec.getLsbD_of_ge c w le_rfl
      unfold shift
      split_ifs with h
      · rw [BitVec.getLsbD_xor, hout, hp, h]
        rfl
      · rw [hout, Bool.eq_false_iff.mpr h]
    have hlow : c.getLsbD 0 = false := by rw [← htop, hc, BitVec.getLsbD_zero]
    apply BitVec.eq_of_getLsbD_eq
    intro i hi
    rw [BitVec.getLsbD_zero]
    cases i with
    | zero => exact hlow
    | succ i =>
      have hdown : shift p c = c >>> 1 := by simp [shift, hlow]
      have hbit : (shift p c).getLsbD i = c.getLsbD (i + 1) := by
        rw [hdown, BitVec.getLsbD_ushiftRight, Nat.add_comm]
      rw [← hbit, hc, BitVec.getLsbD_zero]
  intro c d h
  rw [← BitVec.xor_eq_zero_iff]
  exact hker _ (by rw [shift_xor, h, BitVec.xor_self])

/-! ### Bits taken in together -/

/-- The bits that are still to fall out do not meet the polynomial. -/
theorem iterate_shift_of_low {n : ℕ} {c : BitVec w} (h : ∀ i < n, c.getLsbD i = false) :
    (shift p)^[n] c = c >>> n := by
  induction n generalizing c with
  | zero => simp
  | succ n ih =>
    have hdown : shift p c = c >>> 1 := by simp [shift, h 0 (Nat.succ_pos n)]
    rw [Function.iterate_succ_apply, hdown, ih, ← BitVec.shiftRight_add, Nat.add_comm]
    intro i hi
    rw [BitVec.getLsbD_ushiftRight]
    exact h _ (by omega)

@[simp] theorem getLsbD_pack (m : List Bool) (i : ℕ) :
    (pack w m).getLsbD i = (decide (i < w) && m.getD i false) := by
  rw [pack, BitVec.getLsbD_setWidth, BitVec.getLsbD_ofBoolListLE]

theorem pack_cons {b : Bool} {m : List Bool} :
    pack w (b :: m) = (BitVec.ofBool b).setWidth w ^^^ (pack w m <<< 1) := by
  apply BitVec.eq_of_getLsbD_eq
  intro i hi
  rw [getLsbD_pack, BitVec.getLsbD_xor, BitVec.getLsbD_setWidth, BitVec.getLsbD_ofBool,
    BitVec.getLsbD_shiftLeft, getLsbD_pack]
  cases i with
  | zero => simp [hi]
  | succ i => simp [hi, show i < w by omega]

/-- **At most `w` bits are taken in as one word.** -/
theorem feed_eq_iterate {m : List Bool} (hm : m.length ≤ w) (c : BitVec w) :
    feed p c m = (shift p)^[m.length] (c ^^^ pack w m) := by
  induction m generalizing c with
  | nil =>
    have hnil : pack w [] = 0#w := BitVec.eq_of_getLsbD_eq fun i _ => by simp
    rw [hnil, BitVec.xor_zero]
    rfl
  | cons b m ih =>
    have hlen : m.length + 1 ≤ w := hm
    have hback : shift p (pack w m <<< 1) = pack w m := by
      have hone := iterate_shift_of_low p (n := 1) (c := pack w m <<< 1) fun i hi => by
        simp [show i = 0 by omega]
      rw [Function.iterate_one] at hone
      rw [hone]
      apply BitVec.eq_of_getLsbD_eq
      intro i hi
      rw [BitVec.getLsbD_ushiftRight, BitVec.getLsbD_shiftLeft, Nat.add_sub_cancel_left]
      by_cases hin : 1 + i < w
      · simp [hin]
      · simp [hin, List.getElem?_eq_none (show m.length ≤ i by omega)]
    calc feed p c (b :: m)
        = feed p (shift p (c ^^^ (BitVec.ofBool b).setWidth w)) m := rfl
      _ = (shift p)^[m.length]
            (shift p (c ^^^ (BitVec.ofBool b).setWidth w) ^^^ shift p (pack w m <<< 1)) := by
          rw [ih (by omega), hback]
      _ = (shift p)^[m.length] (shift p (c ^^^ pack w (b :: m))) := by
          rw [← shift_xor, pack_cons, BitVec.xor_assoc]
      _ = (shift p)^[(b :: m).length] (c ^^^ pack w (b :: m)) := by
          rw [List.length_cons, Function.iterate_succ_apply]

theorem length_bits {k : ℕ} (b : BitVec k) : (bits b).length = k := List.length_ofFn

theorem getD_bits {k : ℕ} (b : BitVec k) (i : ℕ) : (bits b).getD i false = b.getLsbD i := by
  by_cases h : i < k
  · simp [bits, h]
  · simp [bits, h, BitVec.getLsbD_of_ge b i (by omega)]

/-- Packing undoes the reading of bits. -/
theorem pack_bits {k : ℕ} (b : BitVec k) : pack w (bits b) = b.setWidth w := by
  apply BitVec.eq_of_getLsbD_eq
  intro i hi
  rw [getLsbD_pack, getD_bits, BitVec.getLsbD_setWidth]

/-- A message that fits into the register is determined by its word. -/
theorem pack_injective {m m' : List Bool} (hm : m.length ≤ w) (hlen : m.length = m'.length)
    (h : pack w m = pack w m') : m = m' := by
  refine List.ext_getElem hlen fun i hi hi' => ?_
  have hbit := congrArg (fun c : BitVec w => c.getLsbD i) h
  have hw : i < w := by omega
  simpa only [getLsbD_pack, hw, decide_true, Bool.true_and, List.getD_eq_getElem?_getD,
    List.getElem?_eq_getElem hi, List.getElem?_eq_getElem hi', Option.getD_some] using hbit

/-- A byte of `k` bits. -/
theorem feed_bits {k : ℕ} (hk : k ≤ w) (c : BitVec w) (b : BitVec k) :
    feed p c (bits b) = (shift p)^[k] (c ^^^ b.setWidth w) := by
  rw [feed_eq_iterate p (by rw [length_bits]; exact hk), length_bits, pack_bits]

/-- **A table for `k` bits.** The low bits of the register select an entry, and the others move
down. -/
theorem iterate_shift_table (k : ℕ) (c : BitVec w) :
    (shift p)^[k] c = (shift p)^[k] ((c.setWidth k).setWidth w) ^^^ (c >>> k) := by
  have hsplit : c = (c.setWidth k).setWidth w ^^^ (c ^^^ (c.setWidth k).setWidth w) := by
    rw [BitVec.xor_comm c, xor_xor_cancel]
  have hlow : ∀ i < k, (c ^^^ (c.setWidth k).setWidth w).getLsbD i = false := by
    intro i hi
    rw [BitVec.getLsbD_xor, BitVec.getLsbD_setWidth, BitVec.getLsbD_setWidth]
    by_cases hw : i < w
    · simp [hi, hw]
    · simp [hw, BitVec.getLsbD_of_ge c i (by omega)]
  have hrest : (c ^^^ (c.setWidth k).setWidth w) >>> k = c >>> k := by
    apply BitVec.eq_of_getLsbD_eq
    intro i hi
    have hout : ¬ k + i < k := by omega
    simp only [BitVec.getLsbD_ushiftRight, BitVec.getLsbD_xor, BitVec.getLsbD_setWidth, hout,
      decide_false, Bool.false_and, Bool.and_false, Bool.xor_false]
  conv_lhs => rw [hsplit]
  rw [iterate_shift_xor, iterate_shift_of_low p hlow, hrest]

/-! ### Windows of a message -/

section Windows

variable {p} (hp : p.getLsbD (w - 1) = true)
include hp

/-- What is fed does not lose the state before it. -/
theorem feed_injective (m : List Bool) : Function.Injective fun c => feed p c m := by
  induction m with
  | nil => exact fun _ _ h => h
  | cons b m ih =>
    intro c d h
    have hstep : feedBit p c b = feedBit p d b := ih h
    exact (BitVec.xor_left_inj _).mp (shift_injective hp hstep)

/-- So each state after a message comes from exactly one before. -/
theorem feed_bijective (m : List Bool) : Function.Bijective fun c => feed p c m :=
  Finite.injective_iff_bijective.mp (feed_injective hp m)

/-- **A burst is seen.** Messages that differ in a window of at most `w` bits, and nowhere else,
leave different registers. -/
theorem feed_window_ne (c : BitVec w) (u v : List Bool) {x y : List Bool} (hx : x.length ≤ w)
    (hlen : x.length = y.length) (hne : x ≠ y) :
    feed p c (u ++ x ++ v) ≠ feed p c (u ++ y ++ v) := by
  intro h
  rw [feed_append, feed_append, feed_append, feed_append] at h
  have hwin : feed p (feed p c u) x = feed p (feed p c u) y := feed_injective hp v h
  generalize feed p c u = d at hwin
  rw [feed_eq_iterate p hx, feed_eq_iterate p (hlen.symm.trans_le hx), hlen] at hwin
  have hxor := (shift_injective hp).iterate _ hwin
  exact hne (pack_injective hx hlen ((BitVec.xor_right_inj d).mp hxor))

/-- **Every register can be reached.** Exactly one choice of a window of `w` bits leaves a given
register, whatever stands before and behind the window. -/
theorem existsUnique_window (c d : BitVec w) (u v : List Bool) :
    ∃! x : BitVec w, feed p c (u ++ bits x ++ v) = d := by
  have hiter : Function.Bijective (shift p)^[w] :=
    (Finite.injective_iff_bijective.mp (shift_injective hp)).iterate w
  obtain ⟨e, he, -⟩ := (feed_bijective hp v).existsUnique d
  obtain ⟨f, hf, -⟩ := hiter.existsUnique e
  have hval : ∀ x : BitVec w, feed p c (u ++ bits x ++ v)
      = feed p ((shift p)^[w] (feed p c u ^^^ x)) v := fun x => by
    rw [feed_append, feed_append, feed_bits p le_rfl, BitVec.setWidth_eq]
  refine ⟨feed p c u ^^^ f, ?_, ?_⟩
  · show feed p c (u ++ bits (feed p c u ^^^ f) ++ v) = d
    rw [hval, xor_xor_cancel, hf]
    exact he
  · intro x hx
    have hx' : feed p c (u ++ bits x ++ v) = d := hx
    rw [hval, ← he] at hx'
    have hxe : (shift p)^[w] (feed p c u ^^^ x) = (shift p)^[w] f := by
      rw [feed_injective hp v hx', hf]
    rw [← hiter.injective hxe, xor_xor_cancel]

end Windows

end Crc

end Lidas
