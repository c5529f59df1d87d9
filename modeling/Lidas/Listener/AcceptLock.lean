import Lidas.Lib.Ownership
import Lidas.Listener.Loop
import Mathlib.Logic.Function.Basic

/-!
# The accept lock

Any number of listener processes run the loop of `Listener.Loop` on one master socket. Their
locks are record locks on it: `F_SETLK` grants a lock that the locks of the other processes
allow, and answers at once that it is busy otherwise. Read locks allow each other, and nothing
else is allowed.

The loop asks for a read lock, which every process gets: all of them can be at the master socket
(`exists_all_holders`), and a process that has the lock is alone only if the others do not ask
meanwhile. With a write lock it would be in every run.
-/

namespace Lidas

namespace Listener

/-- The types of a lock that `lida_lock_init` is given. -/
inductive LockType where
  | rdlck
  | wrlck
  deriving DecidableEq

/-- The processes, the first one with the number 0. -/
abbrev System (n : ℕ) : Type := Fin n → Proc

variable {n : ℕ}

/-- The locks of the other processes, which are all of type `l`, allow one of that type. -/
def Grants (l : LockType) (s : System n) (i : Fin n) : Prop :=
  ∀ j, j ≠ i → (s j).locked = true → l = .rdlck

instance (l : LockType) (s : System n) (i : Fin n) : Decidable (Grants l s i) :=
  inferInstanceAs (Decidable (∀ _, _ → _ → _))

/-- The result of `fcntl` is what the locks allow. -/
def Allowed (l : LockType) (s : System n) (i : Fin n) : Label → Prop
  | .begin .granted => Grants l s i
  | .begin .busy => ¬Grants l s i
  | _ => True

instance (l : LockType) (s : System n) (i : Fin n) (a : Label) : Decidable (Allowed l s i a) :=
  match a with
  | .begin .granted => inferInstanceAs (Decidable (Grants l s i))
  | .begin .busy => inferInstanceAs (Decidable (¬_))
  | .begin .error | .skip | .register _ | .epollWait _ | .epollErr | .other | .masterErr
  | .acceptFails | .accept _ | .unlock _ | .unregister | .kill | .expire | .requeue =>
    isTrue trivial

/-- A step of the process `i`, if the loop asks for locks of type `l`. -/
def systemStep (l : LockType) (s : System n) (a : Fin n × Label) : Option (System n) :=
  if Allowed l s a.1 a.2 then (step (s a.1) a.2).map (Function.update s a.1) else none

/-- `lida_lock_init (F_RDLCK, &l)`. -/
def acceptLockType : LockType := .rdlck

/-- Each process before its first round. -/
def systemStart (n : ℕ) (keepAlive : ℕ+) : System n := fun _ => start keepAlive

/-- The process has the master socket in its epoll set and holds the accept lock. -/
def Proc.Holder (s : Proc) : Prop := s.registered = true ∧ s.locked = true

/-- No two processes do. -/
def AtMostOne (s : System n) : Prop := Exclusive fun (_ : Unit) i => (s i).Holder

/-- No two processes hold the lock. -/
def OneLocked (s : System n) : Prop := Exclusive fun (_ : Unit) i => (s i).locked = true

theorem OneLocked.atMostOne {s : System n} (h : OneLocked s) : AtMostOne s :=
  Exclusive.mono h fun _ _ hi => hi.2

/-- A process is granted the lock only while no other process holds it. -/
def Alone (s : System n) (a : Fin n × Label) : Prop :=
  a.2 = .begin .granted → ∀ j, j ≠ a.1 → (s j).locked = false

instance (s : System n) (a : Fin n × Label) : Decidable (Alone s a) :=
  inferInstanceAs (Decidable (_ → ∀ _, _ → _))

/-- A lock is taken only by asking for it. -/
theorem locked_of_step {s s' : Proc} {a : Label} (hstep : step s a = some s')
    (hlocked : s'.locked = true) : a = .begin .granted ∨ s.locked = true := by
  cases a with
  | begin r =>
    cases r with
    | granted => exact Or.inl rfl
    | busy => grind [step]
    | error => grind [step, Proc.exit]
  | register ok => cases ok <;> grind [step, Proc.exit]
  | accept p => cases p <;> grind [step]
  | _ => grind [step, Proc.exit]

section Run

variable {l : LockType} {s s' : System n} {a : Fin n × Label}

theorem systemStep_eq_some (hstep : systemStep l s a = some s') :
    Allowed l s a.1 a.2 ∧ ∃ p, step (s a.1) a.2 = some p ∧ s' = Function.update s a.1 p := by
  rw [systemStep] at hstep
  split_ifs at hstep with hallowed
  obtain ⟨p, hp, rfl⟩ := Option.map_eq_some_iff.mp hstep
  exact ⟨hallowed, p, hp, rfl⟩

theorem systemStep_of_allowed {i : Fin n} {b : Label} {p : Proc} (hallowed : Allowed l s i b)
    (hp : step (s i) b = some p) : systemStep l s (i, b) = some (Function.update s i p) := by
  rw [systemStep, if_pos hallowed]
  dsimp only
  rw [hp, Option.map_some]

/-- **One step.** If the lock is granted only to a process that is alone, no two hold it. -/
theorem OneLocked.step (h : OneLocked s) (halone : Alone s a) (hstep : systemStep l s a = some s') :
    OneLocked s' := by
  obtain ⟨-, p, hp, rfl⟩ := systemStep_eq_some hstep
  by_cases hbegin : a.2 = .begin .granted
  · -- the process that is granted the lock is the only one that has it
    have honly : ∀ i, (Function.update s a.1 p i).locked = true → i = a.1 := fun i hi => by
      by_contra hia
      rw [Function.update_of_ne hia, halone hbegin i hia] at hi
      cases hi
    exact fun _ i j hi hj => (honly i hi).trans (honly j hj).symm
  · refine Exclusive.mono h fun _ i hi => ?_
    by_cases hia : i = a.1
    · subst hia
      rw [Function.update_self] at hi
      exact (locked_of_step hp hi).resolve_left hbegin
    · rwa [Function.update_of_ne hia] at hi

theorem oneLocked_start (n : ℕ) (keepAlive : ℕ+) : OneLocked (systemStart n keepAlive) :=
  fun _ _ _ hi => by cases hi

/-- **The accept lock.** As long as the lock is granted only to a process that is alone, at most
one process has the master socket in its epoll set and holds the lock. -/
theorem atMostOne_of_alone (n : ℕ) (keepAlive : ℕ+) {as : List (Fin n × Label)}
    (h : Runs.Meets (systemStep acceptLockType) Alone (systemStart n keepAlive) as) :
    Runs.Holds (systemStep acceptLockType) AtMostOne (systemStart n keepAlive) as :=
  (Runs.holds_of_meets (fun _ _ _ (hs : OneLocked _) halone hstep => hs.step halone hstep)
    (oneLocked_start n keepAlive) h).mono fun _ hs => hs.atMostOne

/-- Two processes take turns. -/
theorem atMostOne_twoTurns :
    Runs.Holds (systemStep acceptLockType) AtMostOne (systemStart 2 2)
      [(0, .begin .granted), (0, .register true), (0, .epollWait [.masterIn]), (0, .accept none),
        (0, .unlock true), (1, .begin .granted), (0, .unregister), (1, .register true)] :=
  atMostOne_of_alone 2 2 (by decide)

/-- Two processes that ask for the lock get it, and both add the master socket. -/
theorem not_atMostOne_twoGranted :
    ¬∀ (n : ℕ) (keepAlive : ℕ+) (as : List (Fin n × Label)),
      Runs.Holds (systemStep acceptLockType) AtMostOne (systemStart n keepAlive) as := by
  intro h
  have hrun := (h 2 2 [(0, .begin .granted), (1, .begin .granted), (0, .register true),
    (1, .register true)]).last rfl
  exact absurd (hrun () 0 1 ⟨rfl, rfl⟩ ⟨rfl, rfl⟩) (by decide)

/-! ### The type of the lock -/

/-- A write lock is granted only to a process that is alone. -/
theorem alone_of_wrlck (hstep : systemStep .wrlck s a = some s') : Alone s a := by
  intro hbegin j hj
  obtain ⟨hallowed, -⟩ := systemStep_eq_some hstep
  rw [hbegin] at hallowed
  by_contra hlocked
  exact absurd (hallowed j hj (Bool.not_eq_false _ ▸ hlocked)) (by decide)

/-- With a write lock, no run would have two processes at the master socket. -/
theorem atMostOne_wrlck (n : ℕ) (keepAlive : ℕ+) (as : List (Fin n × Label)) :
    Runs.Holds (systemStep .wrlck) AtMostOne (systemStart n keepAlive) as := by
  have hstep : ∀ (s : System n) a s', OneLocked s → True → systemStep .wrlck s a = some s' →
      OneLocked s' := fun _ _ _ hs _ hs' => hs.step (alone_of_wrlck hs') hs'
  exact (Runs.holds_of_meets hstep (oneLocked_start n keepAlive) (Runs.meets_true _ as)).mono
    fun _ hs => hs.atMostOne

end Run

/-- The first two steps of a process. -/
def takeLock (i : Fin n) : List (Fin n × Label) := [(i, .begin .granted), (i, .register true)]

theorem exec_takeLock {s : System n} {i : Fin n} {keepAlive : ℕ+} (hi : s i = start keepAlive) :
    ∃ p : Proc, p.Holder ∧
      Runs.exec (systemStep acceptLockType) s (takeLock i) = some (Function.update s i p) := by
  have hwants : (start keepAlive).pc = .top ∧ (start keepAlive).WantsLock := ⟨rfl, Or.inr rfl⟩
  obtain ⟨p, hp⟩ : ∃ p, p = { start keepAlive with pc := .register, locked := true } := ⟨_, rfl⟩
  obtain ⟨q, hq⟩ : ∃ q, q = { p with pc := .wait, registered := true, eventFlag := true } :=
    ⟨_, rfl⟩
  have hbegin : step (s i) (.begin .granted) = some p := by
    rw [hi, step, if_pos hwants, hp]
  have hregister : step (Function.update s i p i) (.register true) = some q := by
    rw [Function.update_self, hq, hp]
    rfl
  have hallowed : Allowed acceptLockType s i (.begin .granted) := fun _ _ _ => rfl
  have hfree : Allowed acceptLockType (Function.update s i p) i (.register true) := trivial
  refine ⟨q, ⟨by rw [hq], by rw [hq, hp]⟩, ?_⟩
  rw [takeLock, Runs.exec_cons, systemStep_of_allowed hallowed hbegin, Option.bind_some,
    Runs.exec_cons, systemStep_of_allowed hfree hregister, Option.bind_some, Runs.exec_nil,
    Function.update_idem]

/-- With a read lock, all processes can be at the master socket. -/
theorem exists_all_holders (n : ℕ) (keepAlive : ℕ+) :
    ∃ as s, Runs.exec (systemStep acceptLockType) (systemStart n keepAlive) as = some s ∧
      ∀ i, (s i).Holder := by
  -- one process after the other takes the lock; `is` are those that have not
  suffices h : ∀ (is : List (Fin n)) (s : System n), is.Nodup → (∀ i ∈ is, s i = start keepAlive) →
      (∀ i ∉ is, (s i).Holder) → ∃ as s', Runs.exec (systemStep acceptLockType) s as = some s' ∧
        ∀ i, (s' i).Holder from
    h (List.finRange n) _ (List.nodup_finRange n) (fun _ _ => rfl)
      fun i hi => absurd (List.mem_finRange i) hi
  intro is
  induction is with
  | nil => exact fun s _ _ hall => ⟨[], s, rfl, fun i => hall i List.not_mem_nil⟩
  | cons i is ih =>
    intro s hnodup hstart hall
    obtain ⟨hi, hnodup⟩ := List.nodup_cons.mp hnodup
    obtain ⟨p, hp, hexec⟩ := exec_takeLock (hstart i List.mem_cons_self)
    obtain ⟨as, s', has, hs'⟩ := ih (Function.update s i p) hnodup
      (fun j hj => by
        rw [Function.update_of_ne (ne_of_mem_of_not_mem hj hi)]
        exact hstart j (List.mem_cons_of_mem i hj))
      (fun j hj => by
        by_cases hji : j = i
        · subst hji
          rwa [Function.update_self]
        · rw [Function.update_of_ne hji]
          exact hall j (List.not_mem_cons_of_ne_of_not_mem hji hj))
    refine ⟨takeLock i ++ as, s', ?_, hs'⟩
    rw [Runs.exec_append, hexec, Option.bind_some, has]

end Listener

end Lidas
