import Lidas.Worker.Pool
import Mathlib.Data.List.Nodup

/-!
# The pool is not always divided into queued and busy workers

A worker of the pool should be queued once and have no event, or not be queued and have one.
Popping the queue keeps this, and so does the way from `SIGCONT` to `THREAD_RET`. The steps that
break it are exactly these: a `SIGCONT` that `rd_event_redirect` sends to the worker remembered
for the connection when that worker is queued, a `THREAD_RET` while a `SIGCONT` is pending, and
a `SIGHUP` to a worker in the middle of an event.
-/

namespace Lidas

namespace Worker

/-- Each worker of the pool is once in the queue and has no event, or is not in the queue and
has one. -/
def Partition (cnt : ℕ) (s : State) : Prop :=
  ∀ w < cnt, (s.idle.count w = 1 ∧ (s.workers w).event = none) ∨
    (s.idle.count w = 0 ∧ (s.workers w).event ≠ none)

instance (cnt : ℕ) (s : State) : Decidable (Partition cnt s) :=
  inferInstanceAs (Decidable (∀ w < cnt, _))

/-- A `SIGHUP` that `timer_cleaner` sends for `fd` finds the worker at `RESTART`, or with a
`SIGCONT` pending. -/
def ResetOrderly (cnt : ℕ) (s : State) (fd : ℕ) : Prop :=
  ∀ w ∈ s.target fd, w < cnt → (s.workers w).status ≠ .waiting → (s.workers w).cont = true

instance (cnt : ℕ) (s : State) (fd : ℕ) : Decidable (ResetOrderly cnt s fd) :=
  inferInstanceAs (Decidable (∀ w ∈ s.target fd, _))

/-- The signals of the step are in order. -/
def Orderly (cnt : ℕ) (s : State) : Label → Prop
  -- the worker remembered for the connection is not waiting without a signal
  | .rdEvent e _ => ∀ fd ∈ rdFd e, ∀ w ∈ s.target fd, w < cnt →
      (s.workers w).status = .waiting → (s.workers w).cont = true
  | .outEvent e => ∀ fd ∈ outFd e, ResetOrderly cnt s fd
  | .timerCleaner fd => ResetOrderly cnt s fd
  -- no signal is left over
  | .finish w => w < cnt → (s.workers w).cont = false
  | _ => True

section Exact

variable {cnt w : ℕ} {s s' : State}

/-- When one record is written, the division is kept if the worker had an event and has one, or
had none and has none. -/
theorem partition_setWorker {d : ThreadData} (h : Partition cnt s) :
    Partition cnt (s.setWorker w d) ↔
      (w < cnt → (d.event = none ↔ (s.workers w).event = none)) := by
  constructor
  · intro h' hw
    have hnew := h' w hw
    rw [State.setWorker_workers, Function.update_self] at hnew
    rcases h w hw with ⟨hcount, hevent⟩ | ⟨hcount, hevent⟩
    · rcases hnew with ⟨-, hnew⟩ | ⟨hcount', -⟩
      · exact iff_of_true hnew hevent
      · rw [State.setWorker_idle, hcount] at hcount'
        simp at hcount'
    · rcases hnew with ⟨hcount', -⟩ | ⟨-, hnew⟩
      · rw [State.setWorker_idle, hcount] at hcount'
        simp at hcount'
      · exact iff_of_false hnew hevent
  · intro hd v hv
    rw [State.setWorker_workers, Function.update_apply]
    split_ifs with hvw
    · subst hvw
      rw [State.setWorker_idle, Ne, hd hv]
      exact h v hv
    · exact h v hv

/-- A worker that had an event goes on with one. -/
theorem partition_goesOn {d : ThreadData} (h : Partition cnt s) (hnew : d.event ≠ none)
    (hold : w < cnt → (s.workers w).event ≠ none) : Partition cnt (s.setWorker w d) :=
  (partition_setWorker h).mpr fun hw => iff_of_false hnew (hold hw)

/-- `thread_pool_alloc` keeps the division. -/
theorem partition_threadPoolAlloc (hvalid : Valid cnt s) (h : Partition cnt s) (e : EventData)
    (created : Bool) : Partition cnt (s.threadPoolAlloc e created).2 := by
  rcases hvalid.threadPoolAlloc_cases e created with ⟨w, rest, hidle, halloc⟩ | halloc | halloc
  · rw [halloc]
    intro v hv
    have hold := h v hv
    rw [hidle, List.count_cons] at hold
    dsimp only
    rw [State.setWorker_workers, Function.update_apply]
    by_cases hvw : v = w
    · subst hvw
      rw [if_pos rfl]
      -- it was in the queue once, so it had no event
      have hcount : rest.count v = 0 := by
        rw [if_pos (by simp)] at hold
        omega
      have hnone : (s.workers v).event = none := by
        rcases hold with ⟨-, hnone⟩ | ⟨hcount', -⟩
        · exact hnone
        · rw [hcount, if_pos (by simp)] at hcount'
          omega
      rw [hvalid.event_eq_none hv] at hnone
      rw [ThreadData.event_call hnone.1]
      exact Or.inr ⟨hcount, by rintro ⟨⟩⟩
    · rw [if_neg hvw]
      rwa [if_neg (by simpa using Ne.symm hvw), Nat.add_zero] at hold
  · rw [halloc]
    exact (partition_setWorker h).mpr fun hw => absurd hw (Nat.not_lt.mpr hvalid.threads)
  · rw [halloc]
    exact h

/-- `SIGHUP` keeps the division exactly when it does not cut an event off. -/
theorem partition_timerCleaner {fd : ℕ} (hvalid : Valid cnt s) (h : Partition cnt s)
    (hstep : s.timerCleaner fd = some s') : Partition cnt s' ↔ ResetOrderly cnt s fd := by
  rcases timerCleaner_cases hstep with ⟨w, htarget, rfl⟩ | ⟨htarget, rfl⟩
  · refine (partition_setWorker h).trans ?_
    constructor
    · intro hkeep v hv hvlt hstatus
      obtain rfl : w = v := Option.some.inj (htarget.symm.trans hv)
      by_contra hcont
      have hnone := (ThreadData.event_restart (hvalid.pool w hvlt).2 (hvalid.called w)).mpr
        (Bool.eq_false_iff.mpr hcont)
      exact hstatus ((hvalid.event_eq_none hvlt).mp ((hkeep hvlt).mp hnone)).1
    · intro horderly hw
      rw [ThreadData.event_restart (hvalid.pool w hw).2 (hvalid.called w), hvalid.event_eq_none hw]
      constructor
      · intro hcont
        refine ⟨?_, hcont⟩
        by_contra hstatus
        rw [horderly w htarget hw hstatus] at hcont
        simp at hcont
      · rintro ⟨-, hcont⟩
        exact hcont
  · refine iff_of_true h ?_
    intro w hw
    rw [htarget] at hw
    simp at hw

/-- A worker of the pool that queues itself is divided off exactly when no signal is pending. -/
theorem partition_requeue {e : EventData} (hvalid : Valid cnt s) (h : Partition cnt s)
    (hw : w < cnt) (hstatus : (s.workers w).status = .running e) :
    Partition cnt { s.setWorker w (s.workers w).restart with idle := s.idle ++ [w] } ↔
      (s.workers w).cont = false := by
  have hcount : s.idle.count w = 0 := by
    rcases h w hw with ⟨-, hnone⟩ | ⟨hcount, -⟩
    · rw [hvalid.event_eq_none hw, hstatus] at hnone
      cases hnone.1
    · exact hcount
  rw [← ThreadData.event_restart (hvalid.pool w hw).2 (hvalid.called w)]
  constructor
  · intro h'
    have hnew := h' w hw
    rw [State.setWorker_workers, Function.update_self, List.count_append, hcount] at hnew
    rcases hnew with ⟨-, hnone⟩ | ⟨hcount', -⟩
    · exact hnone
    · simp at hcount'
  · intro hnone v hv
    have hold := h v hv
    dsimp only
    rw [State.setWorker_workers, Function.update_apply, List.count_append]
    by_cases hvw : v = w
    · subst hvw
      rw [if_pos rfl, hcount]
      exact Or.inl ⟨by simp, hnone⟩
    · rw [if_neg hvw]
      rwa [List.count_singleton, if_neg (by simpa using Ne.symm hvw), Nat.add_zero]

/-- A read event wakes the worker of its descriptor, or is handed to one of the pool. -/
theorem partition_rdEvent {e : EventData} {created : Bool} (hvalid : Valid cnt s)
    (h : Partition cnt s) (hstep : step s (.rdEvent e created) = some s') :
    Partition cnt s' ↔ Orderly cnt s (.rdEvent e created) := by
  rcases rdEvent_cases hstep with ⟨hfd, rfl⟩ | ⟨fd, hfd, ⟨w, htarget, rfl⟩ | ⟨htarget, rfl⟩⟩
  · refine iff_of_true h ?_
    intro fd hfd'
    rw [hfd] at hfd'
    simp at hfd'
  · obtain ⟨hthid, hlive⟩ := target_eq_some.mp htarget
    have hdata := (hvalid.remembered fd w hthid).2
    refine (partition_setWorker h).trans ?_
    constructor
    · rintro hkeep _ hfd' v hv hvlt hstatus
      obtain rfl := Option.some.inj (hfd.symm.trans hfd')
      obtain rfl : w = v := Option.some.inj (htarget.symm.trans hv)
      by_contra hcont
      have hnone := (hvalid.event_eq_none hvlt).mpr ⟨hstatus, Bool.eq_false_iff.mpr hcont⟩
      exact ThreadData.event_sigcont hlive hdata ((hkeep hvlt).mpr hnone)
    · intro horderly hw
      refine iff_of_false (ThreadData.event_sigcont hlive hdata) ?_
      rw [hvalid.event_eq_none hw]
      rintro ⟨hstatus, hcont⟩
      rw [horderly fd hfd w htarget hw hstatus] at hcont
      simp at hcont
  · refine iff_of_true (partition_threadPoolAlloc hvalid h e created) ?_
    intro _ hfd' v hv
    obtain rfl := Option.some.inj (hfd.symm.trans hfd')
    rw [htarget] at hv
    simp at hv

/-- A write event resets the worker of its descriptor. -/
theorem partition_outEvent {e : EventData} (hvalid : Valid cnt s) (h : Partition cnt s)
    (hstep : step s (.outEvent e) = some s') : Partition cnt s' ↔ Orderly cnt s (.outEvent e) := by
  rcases outEvent_cases hstep with ⟨hfd, rfl⟩ | ⟨fd, hfd, hclean⟩
  · refine iff_of_true h ?_
    intro fd hfd'
    rw [hfd] at hfd'
    simp at hfd'
  · refine (partition_timerCleaner hvalid h hclean).trans ?_
    constructor
    · intro hreset _ hfd'
      obtain rfl := Option.some.inj (hfd.symm.trans hfd')
      exact hreset
    · intro horderly
      exact horderly fd hfd

/-- A worker that is done exits if it is a temporary one, and queues itself otherwise. -/
theorem partition_finish (hvalid : Valid cnt s) (h : Partition cnt s)
    (hstep : step s (.finish w) = some s') : Partition cnt s' ↔ Orderly cnt s (.finish w) := by
  obtain ⟨e, hstatus, ⟨htmp, rfl⟩ | ⟨htmp, rfl⟩⟩ := finish_cases hstep
  · have hw : ¬ w < cnt := by
      intro hw
      rw [(hvalid.pool w hw).2] at htmp
      simp at htmp
    exact iff_of_true ((partition_setWorker h).mpr fun hw' => absurd hw' hw)
      fun hw' => absurd hw' hw
  · have hw : w < cnt := by
      by_contra hw
      rw [hvalid.temp w (Nat.not_lt.mp hw)] at htmp
      simp at htmp
    refine (partition_requeue hvalid h hw hstatus).trans ?_
    constructor
    · intro hcont _
      exact hcont
    · intro horderly
      exact horderly hw

/-- **One step.** From a divided pool, a step leads to a divided pool exactly when its signals
are in order. -/
theorem partition_step {a : Label} (hvalid : Valid cnt s) (h : Partition cnt s)
    (hstep : step s a = some s') : Partition cnt s' ↔ Orderly cnt s a := by
  cases a with
  | accept fd =>
    simp only [step] at hstep
    split_ifs at hstep
    obtain rfl := Option.some.inj hstep
    exact iff_of_true h trivial
  | rdEvent e created => exact partition_rdEvent hvalid h hstep
  | outEvent e => exact partition_outEvent hvalid h hstep
  | timerCleaner fd => exact partition_timerCleaner hvalid h hstep
  | reconnect e created =>
    obtain rfl := Option.some.inj hstep
    exact iff_of_true (partition_threadPoolAlloc hvalid h e created) trivial
  | wake w =>
    obtain ⟨e, hstatus, hcont, hdata, rfl⟩ := wake_cases hstep
    refine iff_of_true (partition_goesOn h (by rintro ⟨⟩) fun hw => ?_) trivial
    rw [Ne, hvalid.event_eq_none hw, hcont]
    rintro ⟨-, ⟨⟩⟩
  | block w =>
    obtain ⟨e, hstatus, rfl⟩ := block_cases hstep
    refine iff_of_true (partition_goesOn h (by rintro ⟨⟩) fun hw => ?_) trivial
    rw [Ne, hvalid.event_eq_none hw, hstatus]
    rintro ⟨⟨⟩, -⟩
  | resume w =>
    obtain ⟨e, hstatus, hcont, rfl⟩ := resume_cases hstep
    refine iff_of_true (partition_goesOn h (by rintro ⟨⟩) fun hw => ?_) trivial
    rw [Ne, hvalid.event_eq_none hw, hstatus]
    rintro ⟨⟨⟩, -⟩
  | finish w => exact partition_finish hvalid h hstep

end Exact

/-- All workers wait, and each is queued once. -/
theorem partition_start (cnt : ℕ) : Partition cnt (start cnt) := by
  intro w hw
  refine Or.inl ⟨List.count_eq_one_of_mem List.nodup_range (List.mem_range.mpr hw), ?_⟩
  simp [start, hw, ThreadData.event]

/-- **Worker partition.** The runs along which every worker of the pool is always queued once
without an event, or not queued and with one event, are those whose signals are all in order. -/
theorem partition_iff_orderly (cnt : ℕ) (as : List Label) :
    Runs.Holds step (Partition cnt) (start cnt) as ↔
      Runs.Meets step (Orderly cnt) (start cnt) as :=
  Runs.holds_iff_meets (fun _ _ _ _ (hvalid : Valid cnt _) hstep => hvalid.step hstep)
    (fun _ _ _ h hvalid hstep => partition_step hvalid h hstep) (partition_start cnt) Valid.start as

/-- The second request on a connection calls the worker that is queued. -/
theorem not_partition_keepAlive :
    ¬ ∀ (cnt : ℕ) (as : List Label), Runs.Holds step (Partition cnt) (start cnt) as := by
  intro h
  have hrun := h 1 [.accept 7, .rdEvent ⟨7, 0, .commonRdEvent, none⟩ true, .wake 0, .finish 0,
    .rdEvent ⟨7, 0, .commonRdEvent, none⟩ true]
  revert hrun
  decide

end Worker

end Lidas
