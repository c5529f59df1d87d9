import Mathlib.Tactic.Common

/-!
# Things held in at most one place

`R k p` says that the place `p` holds the thing `k`. The relation is *exclusive* when no thing
is in two places. A step of a system that only moves things keeps it so: every place that
holds a thing afterwards can be traced back, injectively, to a place that held it before.
-/

namespace Lidas

/-- No thing is held in two places. -/
def Exclusive {κ π : Type*} (R : κ → π → Prop) : Prop :=
  ∀ k p q, R k p → R k q → p = q

namespace Exclusive

variable {κ π π' : Type*} {R : κ → π → Prop} {R' : κ → π' → Prop}

/-- **Moving things.** If every holder after the step is traced back by `f` to a holder before
it, and no two of them to the same one, exclusiveness is kept. -/
theorem of_trace (h : Exclusive R) (f : κ → π' → π) (hf : ∀ k p, R' k p → R k (f k p))
    (hinj : ∀ k p q, R' k p → R' k q → f k p = f k q → p = q) : Exclusive R' := by
  intro k p q hp hq
  exact hinj k p q hp hq (h k _ _ (hf k p hp) (hf k q hq))

/-- Letting things go keeps exclusiveness. -/
theorem mono {S : κ → π → Prop} (h : Exclusive R) (hS : ∀ k p, S k p → R k p) :
    Exclusive S := by
  intro k p q hp hq
  exact h k p q (hS k p hp) (hS k q hq)

/-- A thing that nobody holds can be put in a place. -/
theorem add {S : κ → π → Prop} {k₀ : κ} {p₀ : π} (h : Exclusive R) (hnone : ∀ p, ¬ R k₀ p)
    (hS : ∀ k p, S k p → (k = k₀ ∧ p = p₀) ∨ R k p) : Exclusive S := by
  intro k p q hp hq
  rcases hS k p hp with ⟨rfl, rfl⟩ | hp
  · rcases hS k q hq with ⟨-, rfl⟩ | hq
    · rfl
    · exact absurd hq (hnone q)
  · rcases hS k q hq with ⟨rfl, rfl⟩ | hq
    · exact absurd hp (hnone p)
    · exact h k p q hp hq

end Exclusive

end Lidas
