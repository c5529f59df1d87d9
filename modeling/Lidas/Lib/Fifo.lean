import Mathlib.Data.Nat.ModEq
import Mathlib.Logic.Function.Basic

/-!
# Bounded queues in a ring of slots

`Fifo.push` is the bounded queue itself: a list that takes elements at its end until it has
reached its capacity. A queue may also lose what it has: `Fifo.Dropped` says that this happens to
blocks of one length only, with the rest in its order.

A ring stores such a list in an array of `n` slots, from the slot `tail` on and around the end
of the array: `Ring.window` is the list of the `c` elements stored there. Taking the first
element moves the window by one slot (`window_succ`), and an element written to the slot behind
the window is appended to it (`window_update`). One slot has to stay free: with `n` elements
the slot behind the window is its first one.
-/

namespace Lidas

namespace Fifo

variable {β : Type*}

/-- Append an element, unless `cap` elements are stored. -/
def push (cap : ℕ) (xs : List β) (a : β) : Option (List β) :=
  if xs.length < cap then some (xs ++ [a]) else none

/-- The second list is the first one without some blocks of `n` consecutive elements. -/
inductive Dropped (n : ℕ) : List β → List β → Prop where
  | nil : Dropped n [] []
  | keep {xs ys : List β} (a : β) : Dropped n xs ys → Dropped n (xs ++ [a]) (ys ++ [a])
  | drop {xs ys block : List β} : block.length = n → Dropped n xs ys → Dropped n (xs ++ block) ys

namespace Dropped

variable {n : ℕ} {xs ys : List β}

theorem append (h : Dropped n xs ys) (zs : List β) : Dropped n (xs ++ zs) (ys ++ zs) := by
  induction zs generalizing xs ys with
  | nil => rwa [List.append_nil, List.append_nil]
  | cons a zs ih =>
    rw [List.append_cons xs, List.append_cons ys]
    exact ih (h.keep a)

/-- What is left is in its order. -/
theorem sublist (h : Dropped n xs ys) : ys.Sublist xs := by
  induction h with
  | nil => exact List.Sublist.slnil
  | keep a _ ih => exact ih.append (List.Sublist.refl _)
  | drop _ _ ih => exact ih.trans (List.sublist_append_left _ _)

/-- The number of elements that are missing is a multiple of `n`. -/
theorem length_eq (h : Dropped n xs ys) : ∃ k, xs.length = ys.length + k * n := by
  induction h with
  | nil => exact ⟨0, by simp⟩
  | keep a _ ih =>
    obtain ⟨k, hk⟩ := ih
    refine ⟨k, ?_⟩
    rw [List.length_append, List.length_append, hk]
    omega
  | drop hblock _ ih =>
    obtain ⟨k, hk⟩ := ih
    refine ⟨k + 1, ?_⟩
    rw [List.length_append, hk, hblock, Nat.succ_mul, Nat.add_assoc]

end Dropped

end Fifo

namespace Ring

variable {β : Type*} {n tail c : ℕ}

/-- The slot behind `i`. -/
def next (n i : ℕ) : ℕ := if i = n - 1 then 0 else i + 1

theorem next_lt {i : ℕ} (h : i < n) : next n i < n := by
  rw [next]
  split_ifs <;> omega

theorem next_eq_mod {i : ℕ} (h : i < n) : next n i = (i + 1) % n := by
  rw [next]
  split_ifs with hlast
  · have hn : i + 1 = n := by omega
    rw [hn, Nat.mod_self]
  · rw [Nat.mod_eq_of_lt (by omega)]

/-- The `c` elements stored from the slot `tail` on. -/
def window (data : ℕ → β) (n tail c : ℕ) : List β :=
  (List.range c).map fun i => data ((tail + i) % n)

@[simp] theorem window_zero (data : ℕ → β) : window data n tail 0 = [] := rfl

@[simp] theorem length_window (data : ℕ → β) : (window data n tail c).length = c := by
  simp [window]

/-- The first element, and the window behind it. -/
theorem window_succ (data : ℕ → β) (h : tail < n) :
    window data n tail (c + 1) = data tail :: window data n (next n tail) c := by
  have hshift : ∀ i, (tail + (i + 1)) % n = (next n tail + i) % n := fun i => by
    rw [next_eq_mod h, Nat.mod_add_mod]
    congr 1
    omega
  rw [window, List.range_succ_eq_map, List.map_cons, List.map_map]
  simp [window, Function.comp_def, hshift, Nat.mod_eq_of_lt h]

/-- Different positions of a window are different slots. -/
theorem slot_ne {i : ℕ} (hi : i < c) (hc : c < n) : (tail + i) % n ≠ (tail + c) % n := by
  intro h
  have hmod : i % n = c % n := Nat.ModEq.add_left_cancel' tail h
  rw [Nat.mod_eq_of_lt (by omega), Nat.mod_eq_of_lt hc] at hmod
  omega

/-- An element written behind the window is appended to it. -/
theorem window_update (data : ℕ → β) (a : β) (hc : c < n) :
    window (Function.update data ((tail + c) % n) a) n tail (c + 1) =
      window data n tail c ++ [a] := by
  rw [window, List.range_succ, List.map_append]
  congr 1
  · refine List.map_congr_left fun i hi => ?_
    rw [Function.update_of_ne (slot_ne (List.mem_range.mp hi) hc)]
  · simp

end Ring

end Lidas
