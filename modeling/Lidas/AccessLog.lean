import Lidas.Lib.Ownership
import Lidas.Lib.Runs
import Lidas.Log
import Mathlib.Data.Fintype.Basic

/-!
# The log file of all processes

The listeners write the logs of their connections to one file, `log_fd`, which they have from the
main process. `buf_log_destroy` asks for a record lock on the whole file first, writes the texts one
by one, and gives the lock back behind the trailer. `F_SETLKW` waits for the locks of other
processes, and never for one of its own process: it is granted to every thread of it. The file is
empty to begin with, and a call of `write` writes the whole of its text or fails.

While no two threads of one process are in `buf_log_destroy`, the file consists of the blocks of the
calls in the order in which the lock was granted, each of them whole or cut short
(`intact_of_alone`). A call whose write fails returns with the lock, and until its process comes
back to it, no other process writes (`stuck_of_failed`).
-/

namespace Lidas

namespace AccessLog

/-- A text that one `write` is called with. -/
abbrev Text : Type := List UInt8

/-- Where a thread is in `buf_log_destroy`, with what it still has to write. -/
inductive Phase where
  | outside
  | waiting (texts : List Text) (trailer : Text)
  | writing (texts : List Text) (trailer : Text)
  | unlocking
  deriving DecidableEq

/-- The thread has been granted the lock, and has not returned yet. -/
def Phase.Inside : Phase → Prop
  | .outside | .waiting _ _ => False
  | .writing _ _ | .unlocking => True

instance : DecidablePred Phase.Inside := fun p =>
  match p with
  | .outside | .waiting _ _ => isFalse id
  | .writing _ _ | .unlocking => isTrue trivial

variable {P T : Type}

/-- The process that has the record lock, the texts in the file, and the threads of the processes.
`blocks` records what the calls that were granted the lock had to write. -/
structure Sys (P T : Type) where
  lock : Option P
  file : List Text
  phase : P × T → Phase
  blocks : List (List Text)

/-- What a thread does next, with the result of `lock_reg` or `write`, or the end of a process. -/
inductive Label (P T : Type) where
  | call (i : P × T) (texts : List Text) (trailer : Text)
  | lockFails (i : P × T)
  | granted (i : P × T)
  | write (i : P × T) (ok : Bool)
  | unlock (i : P × T)
  | exit (p : P)
  deriving DecidableEq

/-- Before the first call. -/
def start : Sys P T := ⟨none, [], fun _ => .outside, []⟩

/-- The file consists of the blocks in their order, each whole or cut short. -/
def Sys.Intact (s : Sys P T) : Prop :=
  ∃ parts, List.Forall₂ (· <+: ·) parts s.blocks ∧ s.file = parts.flatten

section Step

variable [DecidableEq P] [DecidableEq T]

/-- The thread goes to another phase. -/
def Sys.move (s : Sys P T) (i : P × T) (ph : Phase) : Sys P T :=
  { s with phase := Function.update s.phase i ph }

/-- `F_UNLCK` of a process, or its end. -/
def Sys.release (s : Sys P T) (p : P) : Sys P T :=
  { s with lock := if s.lock = some p then none else s.lock }

/-- A step of a thread in `buf_log_destroy`. -/
def step (s : Sys P T) : Label P T → Option (Sys P T)
  | .call i texts trailer =>
    match s.phase i with
    | .outside => some (s.move i (.waiting texts trailer))
    | _ => none
  | .lockFails i =>
    match s.phase i with
    | .waiting _ _ => some (s.move i .outside)
    | _ => none
  | .granted i =>
    match s.phase i with
    | .waiting texts trailer =>
      if s.lock = none ∨ s.lock = some i.1 then
        some { s.move i (.writing texts trailer) with
               lock := some i.1, blocks := s.blocks ++ [texts ++ [trailer]] }
      else none
    | _ => none
  | .write i ok =>
    match s.phase i with
    | .writing (x :: xs) trailer =>
      -- a write that fails returns without `F_UNLCK`
      if ok then some { s.move i (.writing xs trailer) with file := s.file ++ [x] }
      else some (s.move i .outside)
    | .writing [] trailer =>
      some { s.move i .unlocking with file := if ok then s.file ++ [trailer] else s.file }
    | _ => none
  | .unlock i =>
    match s.phase i with
    | .unlocking => some ((s.move i .outside).release i.1)
    | _ => none
  | .exit p =>
    some { s.release p with phase := fun i => if i.1 = p then .outside else s.phase i }

/-- A thread is granted the lock only while no other thread of its process is inside. -/
def Alone (s : Sys P T) : Label P T → Prop
  | .granted i => ∀ t, t ≠ i.2 → ¬(s.phase (i.1, t)).Inside
  | _ => True

instance [Fintype T] (s : Sys P T) (a : Label P T) : Decidable (Alone s a) :=
  match a with
  | .granted _ => inferInstanceAs (Decidable (∀ _, _ → _))
  | .call _ _ _ | .lockFails _ | .write _ _ | .unlock _ | .exit _ => isTrue trivial

/-! ### What a step does -/

variable {s s' : Sys P T} {i : P × T} {ok : Bool}

/-- A thread is granted the lock if no other process has it. -/
theorem granted_cases (h : step s (.granted i) = some s') : ∃ texts trailer,
    s.phase i = .waiting texts trailer ∧ (s.lock = none ∨ s.lock = some i.1) ∧
      s' = { s.move i (.writing texts trailer) with
             lock := some i.1, blocks := s.blocks ++ [texts ++ [trailer]] } := by
  cases hp : s.phase i with
  | waiting texts trailer =>
    rw [step, hp] at h
    dsimp only at h
    split_ifs at h with hlock
    exact ⟨texts, trailer, rfl, hlock, (Option.some.inj h).symm⟩
  | _ =>
    rw [step, hp] at h
    cases h

/-- A write appends a text, or is the last step of its call, or its last but one. -/
theorem write_cases (h : step s (.write i ok) = some s') :
    (∃ x xs trailer, s.phase i = .writing (x :: xs) trailer ∧ ok = true ∧
      s' = { s.move i (.writing xs trailer) with file := s.file ++ [x] }) ∨
    (∃ x xs trailer, s.phase i = .writing (x :: xs) trailer ∧ ok = false ∧
      s' = s.move i .outside) ∨
    ∃ trailer, s.phase i = .writing [] trailer ∧
      s' = { s.move i .unlocking with file := if ok then s.file ++ [trailer] else s.file } := by
  cases hp : s.phase i with
  | writing texts trailer =>
    rw [step, hp] at h
    cases texts with
    | nil => exact .inr (.inr ⟨trailer, rfl, (Option.some.inj h).symm⟩)
    | cons x xs =>
      cases ok with
      | true => exact .inl ⟨x, xs, trailer, rfl, rfl, (Option.some.inj h).symm⟩
      | false => exact .inr (.inl ⟨x, xs, trailer, rfl, rfl, (Option.some.inj h).symm⟩)
  | _ =>
    rw [step, hp] at h
    cases h

/-- What `unlock` does. -/
theorem unlock_cases (h : step s (.unlock i) = some s') :
    s.phase i = .unlocking ∧ s' = (s.move i .outside).release i.1 := by
  cases hp : s.phase i with
  | unlocking =>
    rw [step, hp] at h
    exact ⟨rfl, (Option.some.inj h).symm⟩
  | _ =>
    rw [step, hp] at h
    cases h

/-- What a call does. -/
theorem call_cases {texts : List Text} {trailer : Text}
    (h : step s (.call i texts trailer) = some s') :
    s.phase i = .outside ∧ s' = s.move i (.waiting texts trailer) := by
  cases hp : s.phase i with
  | outside =>
    rw [step, hp] at h
    exact ⟨rfl, (Option.some.inj h).symm⟩
  | _ =>
    rw [step, hp] at h
    cases h

/-- What a lock that is not granted does. -/
theorem lockFails_cases (h : step s (.lockFails i) = some s') :
    s' = s.move i .outside ∧ ¬(s.phase i).Inside := by
  cases hp : s.phase i with
  | waiting texts trailer =>
    rw [step, hp] at h
    exact ⟨(Option.some.inj h).symm, id⟩
  | _ =>
    rw [step, hp] at h
    cases h

@[simp] theorem move_self (ph : Phase) : (s.move i ph).phase i = ph := Function.update_self ..

theorem move_of_ne {j : P × T} (h : j ≠ i) (ph : Phase) : (s.move i ph).phase j = s.phase j :=
  Function.update_of_ne h _ _

end Step

/-! ### The blocks stay apart -/

/-- **The invariant.** At most one thread is inside, its process has the lock, and what it has
written is the end of the file. -/
structure Sound (s : Sys P T) : Prop where
  lock : ∀ i, (s.phase i).Inside → s.lock = some i.1
  one : Exclusive fun (_ : Unit) i => (s.phase i).Inside
  writer : ∀ i texts trailer, s.phase i = .writing texts trailer →
    ∃ bs parts written, s.blocks = bs ++ [written ++ (texts ++ [trailer])] ∧
      List.Forall₂ (· <+: ·) parts bs ∧ s.file = parts.flatten ++ written
  intact : s.Intact

section Sound

variable {s s' : Sys P T} {i : P × T}

/-- At the start nobody has written. -/
theorem sound_start : Sound (start : Sys P T) where
  lock := fun _ h => h.elim
  one := fun _ _ _ h => h.elim
  writer := fun _ _ _ h => by cases h
  intact := ⟨[], .nil, rfl⟩

/-- A thread that leaves, or does not enter, changes neither the file nor the blocks. -/
theorem Sound.of_outside (h : Sound s) (hfile : s'.file = s.file) (hblocks : s'.blocks = s.blocks)
    (hphase : ∀ j, (s'.phase j).Inside → s'.phase j = s.phase j ∧ s'.lock = s.lock) :
    Sound s' where
  lock := fun j hj => by
    obtain ⟨hsame, hlock⟩ := hphase j hj
    rw [hlock]
    exact h.lock j (hsame ▸ hj)
  one := Exclusive.mono h.one fun _ j hj => (hphase j hj).1 ▸ hj
  writer := fun j texts trailer hj => by
    have hinside : (s'.phase j).Inside := by rw [hj]; trivial
    rw [hfile, hblocks]
    exact h.writer j texts trailer ((hphase j hinside).1 ▸ hj)
  intact := by
    rw [Sys.Intact, hfile, hblocks]
    exact h.intact

/-- Nobody is inside when a thread that is alone is granted the lock. -/
theorem Sound.not_inside (h : Sound s) (halone : ∀ t, t ≠ i.2 → ¬(s.phase (i.1, t)).Inside)
    (hlock : s.lock = none ∨ s.lock = some i.1) {j : P × T} (hj : j ≠ i) :
    ¬(s.phase j).Inside := by
  intro hinside
  have hown := h.lock j hinside
  rcases hlock with hnone | hsome
  · rw [hnone] at hown
    cases hown
  · rw [hsome] at hown
    have hp : i.1 = j.1 := Option.some.inj hown
    refine halone j.2 (fun ht => hj (Prod.ext hp.symm ht)) ?_
    rwa [hp]

/-- Only one thread is inside afterwards, and it has the lock. -/
theorem Sound.of_only (hone : ∀ j, (s'.phase j).Inside → j = i) (hlock : s'.lock = some i.1)
    (hwriter : ∀ texts trailer, s'.phase i = .writing texts trailer →
      ∃ bs parts written, s'.blocks = bs ++ [written ++ (texts ++ [trailer])] ∧
        List.Forall₂ (· <+: ·) parts bs ∧ s'.file = parts.flatten ++ written)
    (hintact : s'.Intact) : Sound s' where
  lock := fun j hj => by rw [hone j hj, hlock]
  one := fun _ j k hj hk => (hone j hj).trans (hone k hk).symm
  writer := fun j texts trailer hj => by
    obtain rfl := hone j (by rw [hj]; trivial)
    exact hwriter texts trailer hj
  intact := hintact

/-- Blocks that are whole or cut short, and one that is being written, make up the file. -/
theorem intact_of_split {bs parts : List (List Text)} {written b : List Text}
    (hblocks : s'.blocks = bs ++ [b]) (hparts : List.Forall₂ (· <+: ·) parts bs)
    (hb : written <+: b) (hfile : s'.file = parts.flatten ++ written) : s'.Intact := by
  refine ⟨parts ++ [written], ?_, ?_⟩
  · rw [hblocks]
    exact List.rel_append hparts (.cons hb .nil)
  · rw [hfile, List.flatten_append, List.flatten_singleton]

variable [DecidableEq P] [DecidableEq T]

/-- A thread that is not inside may go anywhere but inside. -/
theorem Sound.move_outside (h : Sound s) {ph : Phase} (hph : ¬ph.Inside) : Sound (s.move i ph) := by
  refine h.of_outside rfl rfl fun j hj => ?_
  by_cases hji : j = i
  · subst hji
    rw [move_self] at hj
    exact absurd hj hph
  · exact ⟨move_of_ne hji ph, rfl⟩

/-- **One step.** -/
theorem Sound.step {a : Label P T} (h : Sound s) (halone : Alone s a)
    (hstep : AccessLog.step s a = some s') : Sound s' := by
  cases a with
  | call i texts trailer =>
    obtain ⟨-, rfl⟩ := call_cases hstep
    exact h.move_outside id
  | lockFails i =>
    obtain ⟨rfl, -⟩ := lockFails_cases hstep
    exact h.move_outside id
  | granted i =>
    obtain ⟨texts, trailer, hp, hlock, rfl⟩ := granted_cases hstep
    obtain ⟨parts, hparts, hfile⟩ := h.intact
    -- whoever is granted the lock is the only one inside, and starts a block of its own
    refine Sound.of_only (i := i) (fun j hj => ?_) rfl (fun texts' trailer' hw => ?_) ?_
    · by_contra hji
      have hold : (s.phase j).Inside := by
        rw [← move_of_ne (s := s) hji (.writing texts trailer)]
        exact hj
      exact h.not_inside halone hlock hji hold
    · have hmoved : Phase.writing texts trailer = .writing texts' trailer' := by
        rw [← hw]
        exact (move_self _).symm
      obtain ⟨rfl, rfl⟩ := Phase.writing.inj hmoved
      exact ⟨s.blocks, parts, [], rfl, hparts, by rw [List.append_nil]; exact hfile⟩
    · exact intact_of_split rfl hparts (List.nil_prefix) (by rw [List.append_nil]; exact hfile)
  | write i ok =>
    have honly : ∀ {ph : Phase}, (s.phase i).Inside → ∀ j, ((s.move i ph).phase j).Inside → j = i :=
      fun hi j hj => by
        by_contra hji
        rw [move_of_ne hji] at hj
        exact hji (h.one () j i hj hi)
    rcases write_cases hstep with ⟨x, xs, trailer, hp, -, rfl⟩ | ⟨x, xs, trailer, hp, -, rfl⟩ |
      ⟨trailer, hp, rfl⟩
    · have hinside : (s.phase i).Inside := by rw [hp]; trivial
      obtain ⟨bs, parts, written, hblocks, hparts, hfile⟩ := h.writer i _ _ hp
      -- the text goes from what is to be written to what is written
      have hblocks' : s.blocks = bs ++ [(written ++ [x]) ++ (xs ++ [trailer])] := by
        simpa using hblocks
      have hfile' : s.file ++ [x] = parts.flatten ++ (written ++ [x]) := by
        rw [hfile, List.append_assoc]
      refine Sound.of_only (honly hinside) (h.lock i hinside) (fun texts' trailer' hw => ?_) ?_
      · have hmoved : Phase.writing xs trailer = .writing texts' trailer' := by
          rw [← hw]
          exact (move_self _).symm
        obtain ⟨rfl, rfl⟩ := Phase.writing.inj hmoved
        exact ⟨bs, parts, written ++ [x], hblocks', hparts, hfile'⟩
      · exact intact_of_split hblocks' hparts (List.prefix_append _ _) hfile'
    · exact h.move_outside id
    · have hinside : (s.phase i).Inside := by rw [hp]; trivial
      obtain ⟨bs, parts, written, hblocks, hparts, hfile⟩ := h.writer i _ _ hp
      refine Sound.of_only (honly hinside) (h.lock i hinside) (fun texts' trailer' hw => ?_) ?_
      · have hmoved : Phase.unlocking = .writing texts' trailer' := by
          rw [← hw]
          exact (move_self _).symm
        cases hmoved
      · -- the block is whole with the trailer, and cut short without
        cases ok with
        | true =>
          have hfile' : s.file ++ [trailer] = parts.flatten ++ (written ++ [trailer]) := by
            rw [hfile, List.append_assoc]
          exact intact_of_split hblocks hparts (List.prefix_refl _) hfile'
        | false => exact intact_of_split hblocks hparts (List.prefix_append _ _) hfile
  | unlock i =>
    obtain ⟨hp, rfl⟩ := unlock_cases hstep
    have hinside : (s.phase i).Inside := by rw [hp]; trivial
    refine h.of_outside rfl rfl fun j hj => ?_
    have hji : j ≠ i := by
      rintro rfl
      have hself : ((s.move j .outside).phase j).Inside := hj
      rw [move_self] at hself
      exact hself
    have hold : (s.phase j).Inside := by
      rw [← move_of_ne (s := s) hji .outside]
      exact hj
    exact absurd (h.one () j i hold hinside) hji
  | exit p =>
    obtain rfl := Option.some.inj hstep
    refine h.of_outside rfl rfl fun j hj => ?_
    have hjp : j.1 ≠ p := by
      intro hjp
      have hout : (if j.1 = p then Phase.outside else s.phase j).Inside := hj
      rw [if_pos hjp] at hout
      exact hout
    have hsame : (if j.1 = p then Phase.outside else s.phase j) = s.phase j := if_neg hjp
    have hold : (s.phase j).Inside := by
      rw [← hsame]
      exact hj
    refine ⟨hsame, if_neg fun heq => hjp ?_⟩
    rw [h.lock j hold] at heq
    exact Option.some.inj heq

/-- **The blocks are not mixed.** While no two threads of a process are in `buf_log_destroy`, the
file consists of the blocks in the order in which the lock was granted, each whole or cut short. -/
theorem intact_of_alone {as : List (Label P T)} (h : Runs.Meets step Alone (start : Sys P T) as) :
    Runs.Holds step Sys.Intact (start : Sys P T) as :=
  (Runs.holds_of_meets (fun _ _ _ hs halone hstep => Sound.step hs halone hstep) sound_start
    h).mono fun _ hs => hs.intact

theorem intact_of_alone_two :
    Runs.Holds step Sys.Intact (start : Sys (Fin 2) (Fin 1))
      [.call (0, 0) [[1]] [9], .call (1, 0) [[2]] [9], .granted (1, 0), .write (1, 0) true,
        .write (1, 0) true, .unlock (1, 0), .granted (0, 0), .write (0, 0) false] :=
  intact_of_alone (by decide)

/-- Two threads of one process are both granted the lock, and mix their blocks. -/
theorem exists_mixed : ∃ (as : List (Label Unit Bool)) (s : Sys Unit Bool),
    Runs.exec step start as = some s ∧ ¬s.Intact := by
  refine ⟨[.call ((), false) [[1]] [9], .granted ((), false), .call ((), true) [[2]] [9],
    .granted ((), true), .write ((), true) true, .write ((), false) true], _, rfl, ?_⟩
  rintro ⟨parts, hparts, hfile⟩
  have hfile' : [[2], [1]] = parts.flatten := hfile
  cases hparts with
  | cons hfirst hrest =>
    cases hrest with
    | cons hsecond hnil =>
      cases hnil
      rename_i first second
      cases first with
      | nil =>
        simp only [List.flatten_cons, List.nil_append, List.flatten_nil, List.append_nil] at hfile'
        rw [← hfile'] at hsecond
        exact absurd hsecond (by decide)
      | cons x first =>
        simp only [List.flatten_cons, List.cons_append, List.cons.injEq] at hfile'
        rw [← hfile'.1] at hfirst
        exact absurd (List.cons_prefix_cons.mp hfirst).1 (by decide)

/-! ### A write that fails -/

/-- The process that a step is one of. -/
def Label.proc : Label P T → P
  | .call i _ _ | .lockFails i | .granted i | .write i _ | .unlock i => i.1
  | .exit p => p

/-- The process has the lock, and nobody is inside. -/
structure Stale (p : P) (s : Sys P T) : Prop where
  lock : s.lock = some p
  none_inside : ∀ i, ¬(s.phase i).Inside

/-- A step of another process does not get inside, and so writes nothing. -/
theorem Stale.step {p : P} {a : Label P T} (h : Stale p s) (ha : a.proc ≠ p)
    (hstep : AccessLog.step s a = some s') : Stale p s' ∧ s'.file = s.file := by
  have hmove : ∀ {j : P × T} {ph : Phase}, ¬ph.Inside → Stale p (s.move j ph) := by
    intro j ph hph
    refine ⟨h.lock, fun k => ?_⟩
    by_cases hkj : k = j
    · subst hkj
      rwa [move_self]
    · rw [move_of_ne hkj]
      exact h.none_inside k
  cases a with
  | call j texts trailer =>
    obtain ⟨-, rfl⟩ := call_cases hstep
    exact ⟨hmove id, rfl⟩
  | lockFails j =>
    obtain ⟨rfl, -⟩ := lockFails_cases hstep
    exact ⟨hmove id, rfl⟩
  | granted j =>
    obtain ⟨texts, trailer, -, hlock, -⟩ := granted_cases hstep
    rw [h.lock] at hlock
    -- the lock is held by `p`, and only `p` itself would get it again
    rcases hlock with hlock | hlock
    · cases hlock
    · exact absurd (Option.some.inj hlock).symm ha
  | write j ok =>
    -- nobody is inside to write or to unlock
    refine absurd ?_ (h.none_inside j)
    rcases write_cases hstep with ⟨x, xs, trailer, hp, -⟩ | ⟨x, xs, trailer, hp, -⟩ |
      ⟨trailer, hp, -⟩ <;> rw [hp] <;> trivial
  | unlock j =>
    refine absurd ?_ (h.none_inside j)
    rw [(unlock_cases hstep).1]
    trivial
  | exit q =>
    obtain rfl := Option.some.inj hstep
    have hlock : s.lock ≠ some q := fun heq => ha (Option.some.inj (heq.symm.trans h.lock))
    refine ⟨⟨(if_neg hlock).trans h.lock, fun k hk => ?_⟩, rfl⟩
    have hk' : (if k.1 = q then Phase.outside else s.phase k).Inside := hk
    split_ifs at hk'
    · exact hk'
    · exact h.none_inside k hk'

/-- Nor does a run of other processes. -/
theorem Stale.run {p : P} {as : List (Label P T)} (h : Stale p s) (has : ∀ a ∈ as, a.proc ≠ p)
    (hrun : Runs.exec AccessLog.step s as = some s') : Stale p s' ∧ s'.file = s.file := by
  induction as generalizing s with
  | nil =>
    obtain rfl := Option.some.inj hrun
    exact ⟨h, rfl⟩
  | cons a as ih =>
    obtain ⟨s₁, hstep, hrest⟩ := Runs.exec_cons_eq_some.mp hrun
    obtain ⟨h₁, hfile₁⟩ := h.step (has a List.mem_cons_self) hstep
    obtain ⟨h', hfile'⟩ := ih h₁ (fun b hb => has b (List.mem_cons_of_mem _ hb)) hrest
    exact ⟨h', hfile'.trans hfile₁⟩

/-- **Nobody writes any more.** After a write that failed before the trailer, and until the process
takes another step, no other process writes to the file, and the lock is not given back. -/
theorem stuck_of_failed {as bs : List (Label P T)} {t : Sys P T} {x : Text} {xs : List Text}
    {trailer : Text} (has : Runs.Meets AccessLog.step Alone (start : Sys P T) as)
    (hrun : Runs.exec AccessLog.step start as = some s)
    (hp : s.phase i = .writing (x :: xs) trailer)
    (hfail : AccessLog.step s (.write i false) = some s') (hbs : ∀ b ∈ bs, b.proc ≠ i.1)
    (hrest : Runs.exec AccessLog.step s' bs = some t) : t.file = s.file ∧ t.lock = some i.1 := by
  have hsound : Sound s := (Runs.holds_of_meets (fun _ _ _ hs halone hstep =>
    Sound.step hs halone hstep) sound_start has).last hrun
  have hinside : (s.phase i).Inside := by rw [hp]; trivial
  rcases write_cases hfail with ⟨y, ys, tr, -, hok, -⟩ | ⟨y, ys, tr, -, -, rfl⟩ | ⟨tr, hp', -⟩
  · cases hok
  · have hstale : Stale i.1 (s.move i .outside) := by
      refine ⟨hsound.lock i hinside, fun j hj => ?_⟩
      by_cases hji : j = i
      · subst hji
        rw [move_self] at hj
        exact hj
      · rw [move_of_ne hji] at hj
        exact hji (hsound.one () j i hj hinside)
    obtain ⟨hstale', hfile⟩ := hstale.run hbs hrest
    exact ⟨hfile, hstale'.lock⟩
  · rw [hp] at hp'
    cases hp'

/-- A call that has written its first text of two. -/
def halfWritten : List (Label Bool Unit) :=
  [.call (false, ()) [[1], [2]] [9], .granted (false, ()), .write (false, ()) true]

/-- A thread of the other process calls. -/
def otherWaiting : List (Label Bool Unit) := [.call (true, ()) [[3]] [9]]

/-- Its second write fails, and the other thread waits. -/
theorem stuck_of_failed_two : ∃ s s' t, Runs.exec step start halfWritten = some s ∧
    step s (.write (false, ()) false) = some s' ∧ Runs.exec step s' otherWaiting = some t ∧
      s.file = [[1]] ∧ t.file = s.file ∧ t.lock = some false := by
  have has : Runs.Meets step Alone start halfWritten := by decide
  have hbs : ∀ b ∈ otherWaiting, b.proc ≠ false := by decide
  exact ⟨_, _, _, rfl, rfl, rfl, rfl, stuck_of_failed (i := (false, ())) has rfl rfl rfl hbs rfl⟩

end Sound

/-! ### A call as it was modelled for one connection -/

/-- What a call writes once the lock is granted, from its `n`-th write on. -/
def written (io : LogIo) : ℕ → List Text → Text → List Text
  | n, [], trailer => if io.written n then [trailer] else []
  | n, x :: xs, trailer => if io.written n then x :: written io (n + 1) xs trailer else []

section Connection

variable {io : LogIo} {after : UInt8} {n : ℕ} {texts : List Text} {trailer : Text}

/-- What `buf_log_destroy` writes of a filled chain, as the writes come through. -/
theorem exists_drain_eq {c : ConnLog} {qs : List PoolPtr} {p : PoolPtr}
    (h : FilledFrom c.cells c.log.tail qs texts p) (htail : c.log.tail ∉ qs) (io : LogIo) (n : ℕ)
    (trailer : Text) : ∃ ys done, c.drain io (qs.length + 1) n p = .ok (ys, done) ∧
      (ys ++ if done && io.written (n + ys.length) then [trailer] else []) =
        written io n texts trailer := by
  induction qs generalizing texts p n with
  | nil =>
    cases texts with
    | nil =>
      obtain rfl : p = c.log.tail := h
      exact ⟨[], true, by rw [List.length_nil, ConnLog.drain, if_pos rfl], by simp [written]⟩
    | cons x xs => exact h.elim
  | cons q qs ih =>
    cases texts with
    | nil => exact h.elim
    | cons x xs =>
      obtain ⟨rfl, r, hcell, hrest⟩ := h
      have hne : p ≠ c.log.tail := fun heq => htail (heq ▸ List.mem_cons_self)
      obtain ⟨ys, done, hdrain, heq⟩ :=
        ih hrest (fun hmem => htail (List.mem_cons_of_mem _ hmem)) (n + 1)
      rw [List.length_cons, ConnLog.drain, if_neg hne, hcell]
      simp only [BufLogT.field, ok_bind]
      by_cases hw : io.written n = true
      · refine ⟨x :: ys, done, ?_, ?_⟩
        · rw [hw, hdrain]
          rfl
        · rw [written, if_pos hw, ← heq, List.length_cons, List.cons_append,
            Nat.add_right_comm n 1, Nat.add_assoc n]
      · rw [Bool.not_eq_true] at hw
        refine ⟨[], false, ?_, ?_⟩
        · rw [hw]
          rfl
        · rw [written, hw]
          rfl

/-- `buf_log_destroy` with any results of `lock_reg` and `write`. -/
theorem bufLogDestroy_eq {c : ConnLog} {off used : ℕ} {text content : Text} {qs : List PoolPtr}
    {address : PoolPtr → ℕ} (h : c.Has off used text qs texts)
    (hcontent : CString.cstr (c.header address) 0 = .ok content) (io : LogIo) (after : UInt8) :
    c.bufLogDestroy address io after (qs.length + 1) =
      .ok (if io.granted then written io 0 (content :: texts) (lastWrite after) else []) := by
  rw [ConnLog.bufLogDestroy]
  by_cases hg : io.granted = true
  · rw [if_neg (by simp [hg]), hcontent, ok_bind, if_pos hg, written]
    by_cases hw : io.written 0 = true
    · obtain ⟨ys, done, hdrain, heq⟩ := exists_drain_eq h.filled (List.nodup_cons.mp h.nodup).1 io
        1 (lastWrite after)
      rw [if_neg (by simp [hw]), hdrain, ok_bind, if_pos hw, ← heq, Nat.add_comm 1]
      dsimp only
      split_ifs with hlast
      · rfl
      · rw [List.append_nil]
        rfl
    · rw [if_pos (by simp [hw]), if_neg hw]
      rfl
  · rw [if_pos (by simp [hg]), if_neg hg]

variable [DecidableEq P] [DecidableEq T]

/-- The steps of a call from its `n`-th write on. -/
def script (i : P × T) (io : LogIo) : ℕ → List Text → List (Label P T)
  | n, [] => [.write i (io.written n), .unlock i]
  | n, _ :: xs =>
    if io.written n then .write i true :: script i io (n + 1) xs else [.write i false]

/-- The last write is that of the trailer. -/
theorem step_write_nil {s : Sys P T} {i : P × T} (hp : s.phase i = .writing [] trailer)
    (ok : Bool) : step s (.write i ok) =
      some { s.move i .unlocking with file := if ok then s.file ++ [trailer] else s.file } := by
  rw [step, hp]

/-- Before it, each text is one write; one that fails ends the call with the lock kept. -/
theorem step_write_cons {s : Sys P T} {i : P × T} {x : Text} {xs : List Text}
    (hp : s.phase i = .writing (x :: xs) trailer) (ok : Bool) : step s (.write i ok) =
      if ok then some { s.move i (.writing xs trailer) with file := s.file ++ [x] }
      else some (s.move i .outside) := by
  rw [step, hp]

/-- The lock is given up after the last write. -/
theorem step_unlock {s : Sys P T} {i : P × T} (hp : s.phase i = .unlocking) :
    step s (.unlock i) = some ((s.move i .outside).release i.1) := by
  rw [step, hp]

/-- The steps of a thread that has been granted the lock. -/
theorem exec_script {s : Sys P T} {i : P × T} (hp : s.phase i = .writing texts trailer) :
    ∃ s', Runs.exec step s (script i io n texts) = some s' ∧ s'.phase i = .outside ∧
      s'.file = s.file ++ written io n texts trailer := by
  induction texts generalizing s n with
  | nil =>
    obtain ⟨s₁, hs₁⟩ : ∃ s₁ : Sys P T, s₁ = { s.move i .unlocking with
        file := if io.written n then s.file ++ [trailer] else s.file } := ⟨_, rfl⟩
    have hp₁ : s₁.phase i = .unlocking := by rw [hs₁]; exact move_self _
    refine ⟨(s₁.move i .outside).release i.1, ?_, move_self _, ?_⟩
    · rw [script, Runs.exec_cons, step_write_nil hp, ← hs₁, Option.bind_some, Runs.exec_cons,
        step_unlock hp₁]
      rfl
    · show s₁.file = _
      rw [hs₁, written]
      dsimp only
      split_ifs
      · rfl
      · rw [List.append_nil]
  | cons x xs ih =>
    rw [script, written]
    by_cases hw : io.written n = true
    · obtain ⟨s₁, hs₁⟩ : ∃ s₁ : Sys P T, s₁ = { s.move i (.writing xs trailer) with
          file := s.file ++ [x] } := ⟨_, rfl⟩
      have hp₁ : s₁.phase i = .writing xs trailer := by rw [hs₁]; exact move_self _
      obtain ⟨s', hrun, hout, hfile⟩ := ih (n := n + 1) hp₁
      refine ⟨s', ?_, hout, ?_⟩
      · rw [if_pos hw, Runs.exec_cons, step_write_cons hp, if_pos rfl, ← hs₁, Option.bind_some]
        exact hrun
      · rw [hfile, if_pos hw, hs₁, List.append_assoc, List.singleton_append]
    · refine ⟨s.move i .outside, ?_, move_self _, ?_⟩
      · rw [if_neg hw, Runs.exec_cons, step_write_cons hp, if_neg Bool.false_ne_true]
        rfl
      · rw [if_neg hw, List.append_nil]
        rfl

/-- **A call on its own** appends to the file what `buf_log_destroy` writes for its connection. -/
theorem exec_bufLogDestroy {c : ConnLog} {off used : ℕ} {text content : Text} {qs : List PoolPtr}
    {address : PoolPtr → ℕ} (h : c.Has off used text qs texts)
    (hcontent : CString.cstr (c.header address) 0 = .ok content) (io : LogIo) (after : UInt8)
    {s : Sys P T} {i : P × T} (hp : s.phase i = .outside) (hlock : s.lock = none) :
    ∃ s' ws, c.bufLogDestroy address io after (qs.length + 1) = .ok ws ∧
      Runs.exec step s (.call i (content :: texts) (lastWrite after) ::
        if io.granted then .granted i :: script i io 0 (content :: texts) else [.lockFails i]) =
          some s' ∧ s'.phase i = .outside ∧ s'.file = s.file ++ ws := by
  have hcall : step s (.call i (content :: texts) (lastWrite after)) =
      some (s.move i (.waiting (content :: texts) (lastWrite after))) := by rw [step, hp]
  rw [bufLogDestroy_eq h hcontent]
  by_cases hg : io.granted = true
  · obtain ⟨s₁, hs₁⟩ : ∃ s₁ : Sys P T, s₁ =
        { s.move i (.writing (content :: texts) (lastWrite after)) with
          lock := some i.1, blocks := s.blocks ++ [content :: texts ++ [lastWrite after]] } :=
      ⟨_, rfl⟩
    have hgranted : step (s.move i (.waiting (content :: texts) (lastWrite after))) (.granted i) =
        some s₁ := by
      -- waiting for the lock does not touch it
      have hfree : (s.move i (.waiting (content :: texts) (lastWrite after))).lock = none := hlock
      rw [step, move_self]
      dsimp only
      rw [if_pos (Or.inl hfree), hs₁, Sys.move, Sys.move, Function.update_idem]
      rfl
    have hp₁ : s₁.phase i = .writing (content :: texts) (lastWrite after) := by
      rw [hs₁]
      exact move_self _
    obtain ⟨s', hrun, hout, hfile⟩ : ∃ s', Runs.exec step s₁ (script i io 0 (content :: texts)) =
        some s' ∧ s'.phase i = .outside ∧
        s'.file = s₁.file ++ written io 0 (content :: texts) (lastWrite after) := exec_script hp₁
    refine ⟨s', _, rfl, ?_, hout, ?_⟩
    · rw [if_pos hg, Runs.exec_cons, hcall, Option.bind_some, Runs.exec_cons, hgranted]
      exact hrun
    · rw [hfile, if_pos hg, hs₁]
      rfl
  · refine ⟨(s.move i (.waiting (content :: texts) (lastWrite after))).move i .outside, _, rfl, ?_,
      move_self _, ?_⟩
    · rw [if_neg hg, Runs.exec_cons, hcall, Option.bind_some, Runs.exec_cons, step, move_self]
      rfl
    · rw [if_neg hg, List.append_nil]
      rfl

end Connection

end AccessLog

end Lidas
