import Mathlib.Data.Option.Basic
import Mathlib.Tactic.Common

/-!
# Runs of a labelled partial transition function

A system is a partial step function `step : σ → α → Option σ`: a state takes a label to
its successor, or refuses it (`none`). Every source of nondeterminism (the interleaving,
the answers of the environment) sits in the labels, so a *run* is a list of labels and the
state it leads to is computed (`exec`).

Two predicates speak about all the states, respectively all the steps, of a run:
`Holds step P s as` (every visited state satisfies `P`) and `Meets step C s as` (every step
taken satisfies `C` at the state it leaves). Five rules connect them:

* `holds_of_meets`: an invariant that every step meeting `C` preserves holds along every
  run whose steps meet `C`;
* `holds_iff_meets`: when `C` moreover says *exactly* which steps preserve `P`, the runs
  that stay in `P` are the runs whose steps meet `C`;
* `meets_of_inv`: a property of steps that an invariant forces holds of every step;
* `meets_iff_meets`: when `C` says *exactly* which steps taken from an invariant have a
  property, the runs whose steps all have it are the runs whose steps meet `C`;
* `holds_and_meets_iff_meets`: the same for a property of states and one of steps together.

What happened earlier in a run is kept in a *history variable* (`recorded`), which does not
restrict the runs. Both predicates can be decided for a given run.
-/

namespace Lidas

namespace Runs

variable {σ : Type*} {α : Type*} (step : σ → α → Option σ)

/-- The state a list of labels leads to, `none` when a label is refused on the way. -/
def exec : σ → List α → Option σ
  | s, [] => some s
  | s, a :: as => (step s a).bind fun s' => exec s' as

/-- Every state visited along the run, the first one included, satisfies `P`. -/
def Holds (P : σ → Prop) : σ → List α → Prop
  | s, [] => P s
  | s, a :: as => P s ∧ ∀ s', step s a = some s' → Holds P s' as

/-- Every step taken along the run satisfies `C` at the state it leaves. -/
def Meets (C : σ → α → Prop) : σ → List α → Prop
  | _, [] => True
  | s, a :: as => ∀ s', step s a = some s' → C s a ∧ Meets C s' as

variable {step}

@[simp] theorem exec_nil (s : σ) : exec step s [] = some s := rfl

@[simp] theorem exec_cons (s : σ) (a : α) (as : List α) :
    exec step s (a :: as) = (step s a).bind fun s' => exec step s' as := rfl

/-- A successful run splits at its first step. -/
theorem exec_cons_eq_some {s t : σ} {a : α} {as : List α} :
    exec step s (a :: as) = some t ↔
      ∃ s', step s a = some s' ∧ exec step s' as = some t := by
  simp [Option.bind_eq_some_iff]

theorem exec_append (s : σ) (as bs : List α) :
    exec step s (as ++ bs) = (exec step s as).bind fun s' => exec step s' bs := by
  induction as generalizing s with
  | nil => rfl
  | cons a as ih => simp only [List.cons_append, exec_cons, Option.bind_assoc, ih]

theorem Holds.head {P : σ → Prop} {s : σ} {as : List α} (h : Holds step P s as) : P s := by
  cases as with
  | nil => exact h
  | cons a as => exact h.1

/-- The state a run ends in is one of the states it visits. -/
theorem Holds.last {P : σ → Prop} {s t : σ} {as : List α} (h : Holds step P s as)
    (hrun : exec step s as = some t) : P t := by
  induction as generalizing s with
  | nil =>
    obtain rfl : s = t := by simpa using hrun
    exact h
  | cons a as ih =>
    obtain ⟨s', hs', hrun'⟩ := exec_cons_eq_some.mp hrun
    exact ih (h.2 s' hs') hrun'

theorem Holds.mono {P Q : σ → Prop} (hPQ : ∀ s, P s → Q s) {s : σ} {as : List α}
    (h : Holds step P s as) : Holds step Q s as := by
  induction as generalizing s with
  | nil => exact hPQ s h
  | cons a as ih => exact ⟨hPQ s h.1, fun s' hs' => ih (h.2 s' hs')⟩

theorem meets_true (s : σ) (as : List α) : Meets step (fun _ _ => True) s as := by
  induction as generalizing s with
  | nil => trivial
  | cons a as ih => exact fun s' _ => ⟨trivial, ih s'⟩

/-- **Guarded invariants.** An invariant preserved by every step that meets `C` holds in
every state of every run whose steps meet `C`. -/
theorem holds_of_meets {I : σ → Prop} {C : σ → α → Prop}
    (hstep : ∀ s a s', I s → C s a → step s a = some s' → I s')
    {s : σ} (hs : I s) {as : List α} (hmeets : Meets step C s as) : Holds step I s as := by
  induction as generalizing s with
  | nil => exact hs
  | cons a as ih =>
    refine ⟨hs, fun s' hs' => ?_⟩
    obtain ⟨hC, hrest⟩ := hmeets s' hs'
    exact ih (hstep s a s' hs hC hs') hrest

/-- **Exact guards.** Let `A` be preserved by every step taken from `P`, and let `C` say
exactly which of these steps lead to `P` again. Then the runs that stay in `P` are the runs
whose steps meet `C`. -/
theorem holds_iff_meets {P A : σ → Prop} {C : σ → α → Prop}
    (haux : ∀ s a s', P s → A s → step s a = some s' → A s')
    (hexact : ∀ s a s', P s → A s → step s a = some s' → (P s' ↔ C s a))
    {s : σ} (hP : P s) (hA : A s) (as : List α) :
    Holds step P s as ↔ Meets step C s as := by
  induction as generalizing s with
  | nil => exact iff_of_true hP trivial
  | cons a as ih =>
    constructor
    · intro h s' hs'
      have hP' : P s' := (h.2 s' hs').head
      exact ⟨(hexact s a s' hP hA hs').mp hP',
        (ih hP' (haux s a s' hP hA hs')).mp (h.2 s' hs')⟩
    · intro h
      refine ⟨hP, fun s' hs' => ?_⟩
      obtain ⟨hC, hrest⟩ := h s' hs'
      have hP' : P s' := (hexact s a s' hP hA hs').mpr hC
      exact (ih hP' (haux s a s' hP hA hs')).mpr hrest

/-- **Guarded step properties.** If the steps that meet `C` preserve `I`, and `I` together
with `C` forces `Q` of the step, then every step of a run that meets `C` satisfies `Q`. -/
theorem meets_of_inv {I : σ → Prop} {C Q : σ → α → Prop}
    (hstep : ∀ s a s', I s → C s a → step s a = some s' → I s')
    (hQ : ∀ s a s', I s → C s a → step s a = some s' → Q s a)
    {s : σ} (hs : I s) {as : List α} (hmeets : Meets step C s as) : Meets step Q s as := by
  induction as generalizing s with
  | nil => trivial
  | cons a as ih =>
    intro s' hs'
    obtain ⟨hC, hrest⟩ := hmeets s' hs'
    exact ⟨hQ s a s' hs hC hs', ih (hstep s a s' hs hC hs') hrest⟩

/-- **Exact step properties.** Let the steps that meet `C` preserve `I`, and let `C` say
exactly which steps taken from `I` satisfy `Q`. Then the runs whose steps all satisfy `Q`
are the runs whose steps meet `C`. -/
theorem meets_iff_meets {I : σ → Prop} {C Q : σ → α → Prop}
    (hstep : ∀ s a s', I s → C s a → step s a = some s' → I s')
    (hexact : ∀ s a s', I s → step s a = some s' → (Q s a ↔ C s a))
    {s : σ} (hs : I s) (as : List α) : Meets step Q s as ↔ Meets step C s as := by
  constructor
  · intro h
    induction as generalizing s with
    | nil => trivial
    | cons a as ih =>
      intro s' hs'
      obtain ⟨hQ, hrest⟩ := h s' hs'
      have hC : C s a := (hexact s a s' hs hs').mp hQ
      exact ⟨hC, ih (hstep s a s' hs hC hs') hrest⟩
  · exact meets_of_inv hstep (fun s a s' hI hC hs' => (hexact s a s' hI hs').mpr hC) hs

/-- **Exact guards for states and steps.** Let the steps that meet `C` preserve `I`, and let `C` say
exactly which steps taken from `I` satisfy `Q` and lead to `P`. Then the runs that stay in `P` and
whose steps all satisfy `Q` are the runs whose steps meet `C`. -/
theorem holds_and_meets_iff_meets {I P : σ → Prop} {C Q : σ → α → Prop} (hP : ∀ s, I s → P s)
    (hstep : ∀ s a s', I s → C s a → step s a = some s' → I s')
    (hexact : ∀ s a s', I s → step s a = some s' → (P s' ∧ Q s a ↔ C s a))
    {s : σ} (hs : I s) (as : List α) :
    Holds step P s as ∧ Meets step Q s as ↔ Meets step C s as := by
  induction as generalizing s with
  | nil => exact iff_of_true ⟨hP s hs, trivial⟩ trivial
  | cons a as ih =>
    constructor
    · rintro ⟨hholds, hmeets⟩ s' hs'
      obtain ⟨hQ, hrest⟩ := hmeets s' hs'
      have hC : C s a := (hexact s a s' hs hs').mp ⟨(hholds.2 s' hs').head, hQ⟩
      exact ⟨hC, (ih (hstep s a s' hs hC hs')).mp ⟨hholds.2 s' hs', hrest⟩⟩
    · intro h
      have hboth : ∀ s', step s a = some s' →
          Q s a ∧ Holds step P s' as ∧ Meets step Q s' as := fun s' hs' => by
        obtain ⟨hC, hrest⟩ := h s' hs'
        exact ⟨((hexact s a s' hs hs').mpr hC).2, (ih (hstep s a s' hs hC hs')).mpr hrest⟩
      exact ⟨⟨hP s hs, fun s' hs' => (hboth s' hs').2.1⟩,
        fun s' hs' => ⟨(hboth s' hs').1, (hboth s' hs').2.2⟩⟩

/-! ### Deciding about runs -/

instance decidableHolds (P : σ → Prop) [DecidablePred P] (s : σ) (as : List α) :
    Decidable (Holds step P s as) :=
  match as with
  | [] => inferInstanceAs (Decidable (P s))
  | a :: as =>
    match h : step s a with
    | none => decidable_of_iff (P s) (by simp [Holds, h])
    | some s' =>
      have := decidableHolds P s' as
      decidable_of_iff (P s ∧ Holds step P s' as) (by simp [Holds, h])

instance decidableMeets (C : σ → α → Prop) [∀ s a, Decidable (C s a)] (s : σ) (as : List α) :
    Decidable (Meets step C s as) :=
  match as with
  | [] => isTrue trivial
  | a :: as =>
    match h : step s a with
    | none => isTrue (by simp [Meets, h])
    | some s' =>
      have := decidableMeets C s' as
      decidable_of_iff (C s a ∧ Meets step C s' as) (by simp [Meets, h])

/-! ### History variables -/

section Recorded

variable {η : Type*} (record : σ → α → η → η)

/-- The step together with a history variable: `record` says how a step taken changes it. -/
def recorded (step : σ → α → Option σ) (p : σ × η) (a : α) : Option (σ × η) :=
  (step p.1 a).map fun s' => (s', record p.1 a p.2)

/-- The history variable does not restrict the runs. -/
theorem Meets.of_recorded {Q : σ → α → Prop} {s : σ} {e : η} {as : List α}
    (h : Meets (recorded record step) (fun p a => Q p.1 a) (s, e) as) : Meets step Q s as := by
  induction as generalizing s e with
  | nil => trivial
  | cons a as ih =>
    intro s' hs'
    obtain ⟨hQ, hrest⟩ := h (s', record s a e) (by simp [recorded, hs'])
    exact ⟨hQ, ih hrest⟩

theorem Meets.recorded {Q : σ → α → Prop} {s : σ} {e : η} {as : List α} (h : Meets step Q s as) :
    Meets (recorded record step) (fun p a => Q p.1 a) (s, e) as := by
  induction as generalizing s e with
  | nil => trivial
  | cons a as ih =>
    intro p hp
    obtain ⟨s', hs', rfl⟩ := Option.map_eq_some_iff.mp hp
    obtain ⟨hQ, hrest⟩ := h s' hs'
    exact ⟨hQ, ih hrest⟩

end Recorded

end Runs

end Lidas
