import Lidas.Lib.CString
import Mathlib.Algebra.Group.Nat.Defs
import Mathlib.Algebra.Ring.Int.Defs
import Mathlib.Data.List.TakeWhile

/-!
# Decimal numbers in strings

`atoi` on the bytes of a string without its terminator, with the `strtol` that it calls. Both
take any string; `Numeral s n` says that `s` is nothing but the digits of `n`, and then `atoi`
is `n` as long as an `int` can hold it. `decimal n` is such a string.
-/

namespace Lidas

namespace CString

/-- `isspace`. -/
def isSpace (c : UInt8) : Bool := c == 32 || (9 ≤ c && c ≤ 13)

/-- `isdigit`. -/
def isDigit (c : UInt8) : Bool := 48 ≤ c && c ≤ 57

/-- The value of a string of digits. -/
def digitsValue (s : List UInt8) : ℕ := s.foldl (fun v c => 10 * v + (c.toNat - 48)) 0

/-- `strtol (s, NULL, 10)`, which stops at the limits of a `long`. -/
def strtol (s : List UInt8) : ℤ :=
  match s.dropWhile isSpace with
  | [] => 0
  | c :: cs =>
    if c = 45 then max (-2 ^ 63) (-(digitsValue (cs.takeWhile isDigit) : ℤ))
    else min (2 ^ 63 - 1) (digitsValue ((if c = 43 then cs else c :: cs).takeWhile isDigit))

/-- `atoi`: the low half of the `long`. -/
def atoi (s : List UInt8) : ℤ := (strtol s).bmod (2 ^ 32)

/-- The string consists of digits, with the value `n`. -/
structure Numeral (s : List UInt8) (n : ℕ) : Prop where
  ne_nil : s ≠ []
  digits : ∀ c ∈ s, isDigit c = true
  value : digitsValue s = n

theorem not_isSpace_of_isDigit {c : UInt8} (h : isDigit c = true) : isSpace c = false := by
  simp only [isDigit, isSpace, Bool.and_eq_true, Bool.or_eq_false_iff, Bool.and_eq_false_iff,
    decide_eq_true_eq, decide_eq_false_iff_not, UInt8.le_iff_toNat_le, beq_eq_false_iff_ne,
    ne_eq, ← UInt8.toNat_inj] at h ⊢
  simp only [UInt8.reduceToNat] at h ⊢
  omega

theorem Numeral.strtol {s : List UInt8} {n : ℕ} (h : Numeral s n) (hn : n < 2 ^ 63) :
    strtol s = n := by
  obtain ⟨c, cs, rfl⟩ := List.exists_cons_of_ne_nil h.ne_nil
  have hc : isDigit c = true := h.digits c List.mem_cons_self
  have hdrop : (c :: cs).dropWhile isSpace = c :: cs := by
    rw [List.dropWhile_cons_of_neg (by rw [not_isSpace_of_isDigit hc]; decide)]
  have htake : (c :: cs).takeWhile isDigit = c :: cs := List.takeWhile_eq_self_iff.mpr h.digits
  have hminus : c ≠ 45 := fun h0 => by
    rw [h0] at hc
    exact absurd hc (by decide)
  have hplus : c ≠ 43 := fun h0 => by
    rw [h0] at hc
    exact absurd hc (by decide)
  rw [CString.strtol, hdrop]
  dsimp only
  rw [if_neg hminus, if_neg hplus, htake, h.value]
  omega

theorem Numeral.atoi {s : List UInt8} {n : ℕ} (h : Numeral s n) (hn : n < 2 ^ 31) :
    atoi s = n := by
  rw [CString.atoi, h.strtol (by omega), Int.bmod_eq_of_le (by omega) (by omega)]

/-! ### Numbers as strings -/

/-- The character of a digit. -/
def digit (d : ℕ) : UInt8 := UInt8.ofNat (48 + d)

/-- `%d` of a number that is not negative. -/
def decimal (n : ℕ) : List UInt8 :=
  if n < 10 then [digit n] else decimal (n / 10) ++ [digit (n % 10)]

theorem toNat_digit {d : ℕ} (hd : d < 10) : (digit d).toNat = 48 + d := by
  rw [digit, UInt8.toNat_ofNat', Nat.mod_eq_of_lt (by omega)]

theorem isDigit_digit {d : ℕ} (hd : d < 10) : isDigit (digit d) = true := by
  simp only [isDigit, Bool.and_eq_true, decide_eq_true_eq, UInt8.le_iff_toNat_le, toNat_digit hd,
    UInt8.reduceToNat]
  omega

theorem digitsValue_concat (s : List UInt8) (c : UInt8) :
    digitsValue (s ++ [c]) = 10 * digitsValue s + (c.toNat - 48) := by
  rw [digitsValue, List.foldl_append]
  rfl

/-- The number is read back. -/
theorem numeral_decimal (n : ℕ) : Numeral (decimal n) n := by
  induction n using Nat.strong_induction_on with
  | _ n ih =>
    rw [decimal]
    split_ifs with hn
    · refine ⟨List.cons_ne_nil _ _, fun c hc => ?_, ?_⟩
      · rw [List.mem_singleton.mp hc]
        exact isDigit_digit hn
      · have hvalue := digitsValue_concat [] (digit n)
        rw [toNat_digit hn, List.nil_append] at hvalue
        rw [hvalue]
        have hnil : digitsValue [] = 0 := rfl
        omega
    · have hmod : n % 10 < 10 := Nat.mod_lt n (by decide)
      obtain ⟨-, hdigits, hvalue⟩ := ih (n / 10) (by omega)
      refine ⟨by simp, fun c hc => ?_, ?_⟩
      · rcases List.mem_append.mp hc with hc | hc
        · exact hdigits c hc
        · rw [List.mem_singleton.mp hc]
          exact isDigit_digit hmod
      · rw [digitsValue_concat, hvalue, toNat_digit hmod]
        omega

/-- The number of its digits. -/
theorem length_decimal_le_iff {k : ℕ} (n : ℕ) : (decimal n).length ≤ k + 1 ↔ n < 10 ^ (k + 1) := by
  induction k generalizing n with
  | zero =>
    rw [decimal]
    split_ifs with hn
    · simpa using hn
    · have hpos : 0 < (decimal (n / 10)).length :=
        List.length_pos_iff.mpr (numeral_decimal _).ne_nil
      rw [List.length_append, List.length_singleton]
      omega
  | succ k ih =>
    rw [decimal, pow_succ]
    have hpos : 10 ≤ 10 ^ (k + 1) := Nat.le_self_pow (Nat.succ_ne_zero k) 10
    split_ifs with hn
    · simp only [List.length_singleton]
      omega
    · rw [List.length_append, List.length_singleton, Nat.add_le_add_iff_right, ih]
      omega

end CString

end Lidas
