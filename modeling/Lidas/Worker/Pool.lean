import Lidas.Event
import Lidas.Lib.Runs
import Mathlib.Logic.Function.Basic
import Mathlib.Tactic.Simps.Basic

/-!
# The worker pool and its signals

`thread_pool_init` starts `cnt` workers and queues them. `thread_pool_alloc` takes one from the
queue, writes the event to its `data` and sends it `SIGCONT`; when the queue is empty,
`tmp_thread_port` starts a temporary worker, which gets no signal. A worker waits for `SIGCONT`
at `RESTART`, runs `func_redirect` on its `data`, may be blocked in `thread_event_wait`
meanwhile, and queues itself again afterwards. `SIGHUP` sends it back to `RESTART` from
anywhere, past the call that would queue it.

The listener remembers in `timer_data_lst[fd]->thread_id` which thread it gave a connection to.
`rd_event_redirect` sends `SIGCONT` there first, and `timer_cleaner` sends `SIGHUP`.
`out_event_redirect` calls `pthread_kill` with its arguments exchanged, which is an error, so it
always destructs the request.

The threads share one `jmp_buf`; the model gives each its own. `epoll` is left out: an event may
come at any time.
-/

namespace Lidas

namespace Worker

/-- Where a worker is. An `exited` one is no thread any more, or not yet one. -/
inductive Status where
  | waiting
  | running (e : EventData)
  | blocked (e : EventData)
  | exited
  deriving DecidableEq

/-- `thread_data_t`, with the state of its thread. `cont` says that `SIGCONT` is pending. -/
structure ThreadData where
  status : Status
  cont : Bool
  data : Option EventData
  tmpFlag : Bool
  deriving DecidableEq

/-- The event a worker has: the one it handles, or the one in `data` when it has been called and
has not begun. A temporary worker is called when it is created. -/
def ThreadData.event (d : ThreadData) : Option EventData :=
  match d.status with
  | .running e => some e
  | .blocked e => some e
  | .waiting => if d.cont = true ∨ d.tmpFlag = true then d.data else none
  | .exited => none

/-- `SIGCONT` arrives. -/
def ThreadData.sigcont (d : ThreadData) : ThreadData :=
  { d with cont := true }

/-- `d->data = q`, and then `SIGCONT` arrives. -/
def ThreadData.call (d : ThreadData) (e : EventData) : ThreadData :=
  { d with data := some e, cont := true }

/-- Back at `RESTART`. -/
def ThreadData.restart (d : ThreadData) : ThreadData :=
  { d with status := .waiting }

/-- `sigwait` returns `SIGCONT`, and the event `e` is handled from there. -/
def ThreadData.run (d : ThreadData) (e : EventData) : ThreadData :=
  { d with status := .running e, cont := false }

/-- A `pthread_t`: `0`, a thread that was created, or `-1`. -/
inductive ThreadId where
  | zero
  | worker (w : ℕ)
  | failed
  deriving DecidableEq

structure State where
  /-- the queue of the pool -/
  idle : List ℕ
  workers : ℕ → ThreadData
  /-- the number of threads created -/
  threads : ℕ
  /-- the `thread_id` of each entry of `timer_data_lst`, `none` for `NULL` -/
  timer : ℕ → Option ThreadId

namespace State

variable (s : State)

@[simps]
def setWorker (w : ℕ) (d : ThreadData) : State :=
  { s with workers := Function.update s.workers w d }

@[simps]
def setTimer (fd : ℕ) (t : Option ThreadId) : State :=
  { s with timer := Function.update s.timer fd t }

/-- The live worker that `timer_data_lst[fd]->thread_id` stands for. -/
def target (fd : ℕ) : Option ℕ :=
  match s.timer fd with
  | some (.worker w) => if (s.workers w).status = .exited then none else some w
  | _ => none

/-- `SIGCONT` arrives at a worker. -/
def sigcont (w : ℕ) : State :=
  s.setWorker w (s.workers w).sigcont

/-- `SIGHUP` arrives at a worker: `thread_reset`. -/
def sighup (w : ℕ) : State :=
  s.setWorker w (s.workers w).restart

/-- `tmp_thread_port`; `created` is the success of `pthread_create`. The value `-1` of a failure
is not negative as a `pthread_t`, so it is returned as an id. -/
def tmpThreadPort (e : EventData) (created : Bool) : ThreadId × State :=
  if created then
    (.worker s.threads,
      { s.setWorker s.threads { status := .waiting, cont := false, data := some e, tmpFlag := true }
        with threads := s.threads + 1 })
  else (.failed, s)

/-- `thread_pool_alloc` from `START`, with the queue given. -/
def allocFrom (e : EventData) (created : Bool) : List ℕ → ThreadId × State
  | [] => tmpThreadPort { s with idle := [] } e created
  | w :: rest =>
    -- `ESRCH`: the thread is no more
    if (s.workers w).status = .exited then allocFrom e created rest
    else (.worker w, { s.setWorker w ((s.workers w).call e) with idle := rest })

/-- `thread_pool_alloc`. -/
def threadPoolAlloc (e : EventData) (created : Bool) : ThreadId × State :=
  s.allocFrom e created s.idle

/-- `timer_cleaner`. Without an entry it follows a null pointer. -/
def timerCleaner (fd : ℕ) : Option State :=
  match s.timer fd with
  | none => none
  | some _ =>
    match s.target fd with
    | none => some (s.setTimer fd none)
    | some w => some ((s.sighup w).setTimer fd none)

end State

/-- The descriptor `rd_event_redirect` looks up. -/
def rdFd (e : EventData) : Option ℕ :=
  match e.type with
  | .commonRdEvent => some e.fd
  | .proxyRdEvent => some e.pfd
  | _ => none

/-- The descriptor `out_event_redirect` looks up. -/
def outFd (e : EventData) : Option ℕ :=
  match e.type with
  | .commonWrEvent => some e.fd
  | .proxyWrEvent => some e.pfd
  | _ => none

/-- `rd_event_redirect`, but for the listening socket. -/
def rdEventRedirect (s : State) (e : EventData) (created : Bool) : Option State :=
  match rdFd e with
  | none => some s
  | some fd =>
    match s.timer fd with
    | none => none
    | some _ =>
      -- wake up the blocking thread
      match s.target fd with
      | some w => some (s.sigcont w)
      | none =>
        let (thid, s) := s.threadPoolAlloc e created
        some (s.setTimer fd (some thid))

/-- `out_event_redirect`: `pthread_kill (SIGCONT, thread_id)` fails. -/
def outEventRedirect (s : State) (e : EventData) : Option State :=
  match outFd e with
  | none => some s
  | some fd => s.timerCleaner fd

/-- The steps of the listener and the workers. -/
inductive Label where
  /-- `listen_event` -/
  | accept (fd : ℕ)
  | rdEvent (e : EventData) (created : Bool)
  | outEvent (e : EventData)
  /-- `timer_cleaner`, from `timer_task` or `request_destruct` -/
  | timerCleaner (fd : ℕ)
  /-- `thread_pool_alloc` for a `PROXY_RECONNECT` event -/
  | reconnect (e : EventData) (created : Bool)
  /-- `sigwait` at `RESTART` returns `SIGCONT` -/
  | wake (w : ℕ)
  /-- `thread_event_wait` is called -/
  | block (w : ℕ)
  /-- `thread_event_wait` returns -/
  | resume (w : ℕ)
  /-- `THREAD_RET` -/
  | finish (w : ℕ)
  deriving DecidableEq

/-- One step, `none` where the label does not fit the state. -/
def step (s : State) : Label → Option State
  | .accept fd =>
    -- `mem_cache_alloc` clears the entry
    if s.timer fd = none then some (s.setTimer fd (some .zero)) else none
  | .rdEvent e created => rdEventRedirect s e created
  | .outEvent e => outEventRedirect s e
  | .timerCleaner fd => s.timerCleaner fd
  | .reconnect e created => some (s.threadPoolAlloc e created).2
  | .wake w =>
    match (s.workers w).status, (s.workers w).cont, (s.workers w).data with
    | .waiting, true, some e =>
      some (s.setWorker w ((s.workers w).run e))
    | _, _, _ => none
  | .block w =>
    match (s.workers w).status with
    | .running e => some (s.setWorker w { s.workers w with status := .blocked e })
    | _ => none
  | .resume w =>
    match (s.workers w).status, (s.workers w).cont with
    | .blocked e, true =>
      some (s.setWorker w ((s.workers w).run e))
    | _, _ => none
  | .finish w =>
    match (s.workers w).status with
    | .running _ =>
      if (s.workers w).tmpFlag then some (s.setWorker w { s.workers w with status := .exited })
      else some { s.setWorker w (s.workers w).restart with idle := s.idle ++ [w] }
    | _ => none

/-- The state after `thread_pool_init`. -/
def start (cnt : ℕ) : State where
  idle := List.range cnt
  workers := fun w =>
    if w < cnt then { status := .waiting, cont := false, data := none, tmpFlag := false }
    else { status := .exited, cont := false, data := none, tmpFlag := true }
  threads := cnt
  timer := fun _ => none

/-! ### The event of a worker -/

/-- A live worker of the pool has no event if it waits and no signal is pending. -/
theorem ThreadData.event_eq_none {d : ThreadData} (hlive : d.status ≠ .exited)
    (htmp : d.tmpFlag = false) (hcalled : d.cont = true → d.data ≠ none) :
    d.event = none ↔ d.status = .waiting ∧ d.cont = false := by
  rw [ThreadData.event]
  split
  · rename_i e hstatus
    simp [hstatus]
  · rename_i e hstatus
    simp [hstatus]
  · rename_i hstatus
    cases hcont : d.cont with
    | false => simp [htmp, hstatus]
    | true => simp [hstatus, hcalled hcont]
  · rename_i hstatus
    exact absurd hstatus hlive

/-- At `RESTART` it has one if a signal is pending. -/
theorem ThreadData.event_restart {d : ThreadData} (htmp : d.tmpFlag = false)
    (hcalled : d.cont = true → d.data ≠ none) : d.restart.event = none ↔ d.cont = false := by
  have hlive : d.restart.status ≠ .exited := by rintro ⟨⟩
  rw [event_eq_none hlive htmp hcalled]
  constructor
  · rintro ⟨-, hcont⟩
    exact hcont
  · intro hcont
    exact ⟨rfl, hcont⟩

/-- Whoever is called at `RESTART` has the event it is called for. -/
theorem ThreadData.event_call {d : ThreadData} {e : EventData} (h : d.status = .waiting) :
    (d.call e).event = some e := by
  simp [ThreadData.event, ThreadData.call, h]

/-- Whoever gets `SIGCONT` has one. -/
theorem ThreadData.event_sigcont {d : ThreadData} (hlive : d.status ≠ .exited)
    (hdata : d.data ≠ none) : d.sigcont.event ≠ none := by
  rw [ThreadData.event]
  split
  · rintro ⟨⟩
  · rintro ⟨⟩
  · rw [if_pos (show d.sigcont.cont = true ∨ d.sigcont.tmpFlag = true from Or.inl rfl)]
    exact hdata
  · rename_i hstatus
    exact absurd hstatus hlive

/-! ### What the steps do -/

section Cases

variable {s s' : State} {e : EventData} {created : Bool} {fd w : ℕ}

/-- A signal goes to the worker of the timer if that one has not exited. -/
theorem target_eq_some :
    s.target fd = some w ↔ s.timer fd = some (.worker w) ∧ (s.workers w).status ≠ .exited := by
  rw [State.target]
  split
  · rename_i v hv
    rw [hv]
    split_ifs with hexited
    · constructor
      · rintro ⟨⟩
      · rintro ⟨⟨⟩, hw⟩
        exact absurd hexited hw
    · constructor
      · rintro ⟨⟩
        exact ⟨rfl, hexited⟩
      · rintro ⟨⟨⟩, -⟩
        rfl
  · rename_i hne
    constructor
    · rintro ⟨⟩
    · rintro ⟨hw, -⟩
      exact absurd hw (hne w)

/-- `timer_cleaner` sends `SIGHUP` to the worker of the timer, if there is one to get it. -/
theorem timerCleaner_cases (h : s.timerCleaner fd = some s') :
    (∃ w, s.target fd = some w ∧ s' = (s.sighup w).setTimer fd none) ∨
      (s.target fd = none ∧ s' = s.setTimer fd none) := by
  rw [State.timerCleaner] at h
  split at h
  · simp at h
  · split at h
    · rename_i htarget
      exact Or.inr ⟨htarget, (Option.some.inj h).symm⟩
    · rename_i w htarget
      exact Or.inl ⟨w, htarget, (Option.some.inj h).symm⟩

/-- A write event at most cleans the timer of its descriptor. -/
theorem outEvent_cases (h : outEventRedirect s e = some s') :
    (outFd e = none ∧ s' = s) ∨ ∃ fd, outFd e = some fd ∧ s.timerCleaner fd = some s' := by
  rw [outEventRedirect] at h
  split at h
  · rename_i hfd
    exact Or.inl ⟨hfd, (Option.some.inj h).symm⟩
  · rename_i fd hfd
    exact Or.inr ⟨fd, hfd, h⟩

/-- A read event continues the worker of its descriptor, or takes one from the pool. -/
theorem rdEvent_cases (h : rdEventRedirect s e created = some s') :
    (rdFd e = none ∧ s' = s) ∨ ∃ fd, rdFd e = some fd ∧
      ((∃ w, s.target fd = some w ∧ s' = s.sigcont w) ∨
        (s.target fd = none ∧ s' = (s.threadPoolAlloc e created).2.setTimer fd
          (some (s.threadPoolAlloc e created).1))) := by
  rw [rdEventRedirect] at h
  split at h
  · rename_i hfd
    exact Or.inl ⟨hfd, (Option.some.inj h).symm⟩
  · rename_i fd hfd
    refine Or.inr ⟨fd, hfd, ?_⟩
    split at h
    · simp at h
    · split at h
      · rename_i w htarget
        exact Or.inl ⟨w, htarget, (Option.some.inj h).symm⟩
      · rename_i htarget
        exact Or.inr ⟨htarget, (Option.some.inj h).symm⟩

/-- A worker that waits runs the event it has got when it is signalled. -/
theorem wake_cases (h : step s (.wake w) = some s') :
    ∃ e, (s.workers w).status = .waiting ∧ (s.workers w).cont = true ∧
      (s.workers w).data = some e ∧
      s' = s.setWorker w ((s.workers w).run e) := by
  simp only [step] at h
  split at h
  · rename_i e hstatus hcont hdata
    exact ⟨e, hstatus, hcont, hdata, (Option.some.inj h).symm⟩
  · simp at h

/-- A worker that runs an event may block. -/
theorem block_cases (h : step s (.block w) = some s') :
    ∃ e, (s.workers w).status = .running e ∧
      s' = s.setWorker w { s.workers w with status := .blocked e } := by
  simp only [step] at h
  split at h
  · rename_i e hstatus
    exact ⟨e, hstatus, (Option.some.inj h).symm⟩
  · simp at h

/-- A worker that is blocked goes on when it is signalled. -/
theorem resume_cases (h : step s (.resume w) = some s') :
    ∃ e, (s.workers w).status = .blocked e ∧ (s.workers w).cont = true ∧
      s' = s.setWorker w ((s.workers w).run e) := by
  simp only [step] at h
  split at h
  · rename_i e hstatus hcont
    exact ⟨e, hstatus, hcont, (Option.some.inj h).symm⟩
  · simp at h

/-- A worker that is done waits for the next event, or exits if it is temporary. -/
theorem finish_cases (h : step s (.finish w) = some s') :
    ∃ e, (s.workers w).status = .running e ∧
      (((s.workers w).tmpFlag = true ∧
          s' = s.setWorker w { s.workers w with status := .exited }) ∨
        ((s.workers w).tmpFlag = false ∧
          s' = { s.setWorker w (s.workers w).restart
            with idle := s.idle ++ [w] })) := by
  simp only [step] at h
  split at h
  · rename_i e hstatus
    refine ⟨e, hstatus, ?_⟩
    split_ifs at h with htmp
    · exact Or.inl ⟨htmp, (Option.some.inj h).symm⟩
    · exact Or.inr ⟨Bool.eq_false_iff.mpr htmp, (Option.some.inj h).symm⟩
  · simp at h

end Cases

/-! ### What holds in every run -/

/-- The workers of the pool are the first `cnt` threads, and only they are queued. Whoever is
called, or remembered in a timer entry, has an event in `data`. -/
structure Valid (cnt : ℕ) (s : State) : Prop where
  pool : ∀ w < cnt, (s.workers w).status ≠ .exited ∧ (s.workers w).tmpFlag = false
  temp : ∀ w, cnt ≤ w → (s.workers w).tmpFlag = true
  idle : ∀ w ∈ s.idle, w < cnt
  threads : cnt ≤ s.threads
  called : ∀ w, (s.workers w).cont = true → (s.workers w).data ≠ none
  remembered : ∀ fd w, s.timer fd = some (.worker w) → w < s.threads ∧ (s.workers w).data ≠ none

namespace Valid

variable {cnt w : ℕ} {s : State}

/-- At the start all workers wait. -/
theorem start : Valid cnt (start cnt) := by
  constructor
  · intro w hw
    simp [Worker.start, hw]
  · intro w hw
    simp [Worker.start, Nat.not_lt.mpr hw]
  · intro w hw
    simpa [Worker.start] using hw
  · exact Nat.le_refl _
  · intro w hw
    rw [Worker.start] at hw
    dsimp only at hw
    split_ifs at hw
  · rintro fd w ⟨⟩

/-- A worker has no event if and only if it waits without a signal. -/
theorem event_eq_none (h : Valid cnt s) (hw : w < cnt) : (s.workers w).event = none ↔
    (s.workers w).status = .waiting ∧ (s.workers w).cont = false :=
  ThreadData.event_eq_none (h.pool w hw).1 (h.pool w hw).2 (h.called w)

/-- A worker's record is written. -/
theorem setWorker {d : ThreadData} (h : Valid cnt s) (hstatus : w < cnt → d.status ≠ .exited)
    (htmp : d.tmpFlag = (s.workers w).tmpFlag) (hdata : (s.workers w).data ≠ none → d.data ≠ none)
    (hcont : d.cont = true → d.data ≠ none) : Valid cnt (s.setWorker w d) := by
  refine ⟨?_, ?_, h.idle, h.threads, ?_, ?_⟩
  · intro v hv
    rw [State.setWorker_workers, Function.update_apply]
    split_ifs with hvw
    · rw [htmp]
      exact ⟨hstatus (hvw ▸ hv), (h.pool w (hvw ▸ hv)).2⟩
    · exact h.pool v hv
  · intro v hv
    rw [State.setWorker_workers, Function.update_apply]
    split_ifs with hvw
    · rw [htmp]
      exact h.temp w (hvw ▸ hv)
    · exact h.temp v hv
  · intro v
    rw [State.setWorker_workers, Function.update_apply]
    split_ifs
    · exact hcont
    · exact h.called v
  · intro fd v hfd
    obtain ⟨hlt, hv⟩ := h.remembered fd v hfd
    rw [State.setWorker_workers, Function.update_apply]
    split_ifs with hvw
    · exact ⟨hlt, hdata (hvw ▸ hv)⟩
    · exact ⟨hlt, hv⟩

/-- A timer entry is written. -/
theorem setTimer {fd : ℕ} {t : Option ThreadId} (h : Valid cnt s)
    (ht : ∀ w, t = some (.worker w) → w < s.threads ∧ (s.workers w).data ≠ none) :
    Valid cnt (s.setTimer fd t) := by
  refine ⟨h.pool, h.temp, h.idle, h.threads, h.called, ?_⟩
  intro fd' v hv
  rw [State.setTimer_timer, Function.update_apply] at hv
  split_ifs at hv
  · exact ht v hv
  · exact h.remembered fd' v hv

/-- The queue is shortened. -/
theorem setIdle {idle : List ℕ} (h : Valid cnt s) (hidle : ∀ w ∈ idle, w < cnt) :
    Valid cnt { s with idle := idle } :=
  ⟨h.pool, h.temp, hidle, h.threads, h.called, h.remembered⟩

/-- A worker is taken from the queue, or a temporary one is created, or nothing is. -/
theorem threadPoolAlloc_cases (h : Valid cnt s) (e : EventData) (created : Bool) :
    (∃ w rest, s.idle = w :: rest ∧ s.threadPoolAlloc e created =
      (.worker w, { s.setWorker w ((s.workers w).call e) with idle := rest })) ∨
    s.threadPoolAlloc e created = (.worker s.threads,
      { s.setWorker s.threads { status := .waiting, cont := false, data := some e, tmpFlag := true }
        with threads := s.threads + 1 }) ∨
    s.threadPoolAlloc e created = (.failed, s) := by
  rw [State.threadPoolAlloc]
  cases hidle : s.idle with
  | nil =>
    have hs : { s with idle := [] } = s := by rw [← hidle]
    rw [State.allocFrom, hs, State.tmpThreadPort]
    split_ifs
    · exact Or.inr (Or.inl rfl)
    · exact Or.inr (Or.inr rfl)
  | cons w rest =>
    have hw : w < cnt := h.idle w (by rw [hidle]; exact List.mem_cons_self)
    refine Or.inl ⟨w, rest, rfl, ?_⟩
    rw [State.allocFrom, if_neg (h.pool w hw).1]

/-- The worker that the listener will remember is there and has an event. -/
theorem threadPoolAlloc (h : Valid cnt s) (e : EventData) (created : Bool) :
    Valid cnt (s.threadPoolAlloc e created).2 ∧
      ∀ w, (s.threadPoolAlloc e created).1 = .worker w →
        w < (s.threadPoolAlloc e created).2.threads ∧
          ((s.threadPoolAlloc e created).2.workers w).data = some e := by
  rcases h.threadPoolAlloc_cases e created with ⟨w, rest, hidle, halloc⟩ | halloc | halloc
  · rw [halloc]
    have hw : w < cnt := h.idle w (by rw [hidle]; exact List.mem_cons_self)
    have hset : Valid cnt (s.setWorker w ((s.workers w).call e)) :=
      h.setWorker (fun hw => (h.pool w hw).1) rfl (by rintro - ⟨⟩) (by rintro - ⟨⟩)
    constructor
    · refine hset.setIdle fun v hv => h.idle v ?_
      rw [hidle]
      exact List.mem_cons_of_mem w hv
    · rintro _ ⟨⟩
      exact ⟨Nat.lt_of_lt_of_le hw h.threads, by simp [ThreadData.call]⟩
  · rw [halloc]
    have hset := h.setWorker (w := s.threads)
      (d := { status := .waiting, cont := false, data := some e, tmpFlag := true })
      (by rintro - ⟨⟩) (h.temp _ h.threads).symm (by rintro - ⟨⟩) (by rintro ⟨⟩)
    constructor
    · exact ⟨hset.pool, hset.temp, hset.idle, Nat.le_succ_of_le h.threads, hset.called,
        fun fd v hv => ⟨Nat.lt_succ_of_lt (hset.remembered fd v hv).1,
          (hset.remembered fd v hv).2⟩⟩
    · rintro _ ⟨⟩
      exact ⟨Nat.lt_succ_self _, by simp⟩
  · rw [halloc]
    exact ⟨h, by rintro w ⟨⟩⟩

/-- `timer_cleaner` keeps the workers valid. -/
theorem timerCleaner {fd : ℕ} {s' : State} (h : Valid cnt s)
    (hstep : s.timerCleaner fd = some s') : Valid cnt s' := by
  rcases timerCleaner_cases hstep with ⟨w, -, rfl⟩ | ⟨-, rfl⟩
  · have hset : Valid cnt (s.sighup w) :=
      h.setWorker (by rintro - ⟨⟩) rfl id (h.called w)
    exact hset.setTimer (by rintro v ⟨⟩)
  · exact h.setTimer (by rintro v ⟨⟩)

/-- Every step keeps the pool valid. -/
theorem step {a : Label} {s' : State} (h : Valid cnt s) (hstep : step s a = some s') :
    Valid cnt s' := by
  cases a with
  | accept fd =>
    simp only [Worker.step] at hstep
    split_ifs at hstep
    obtain rfl := Option.some.inj hstep
    exact h.setTimer (by rintro v ⟨⟩)
  | rdEvent e created =>
    rcases rdEvent_cases hstep with ⟨-, rfl⟩ | ⟨fd, -, ⟨w, htarget, rfl⟩ | ⟨-, rfl⟩⟩
    · exact h
    · have hdata := (h.remembered fd w (target_eq_some.mp htarget).1).2
      exact h.setWorker (fun hw => (h.pool w hw).1) rfl id fun _ => hdata
    · -- the worker that was given out already has its event
      obtain ⟨hvalid, hthid⟩ := h.threadPoolAlloc e created
      refine hvalid.setTimer fun w hw => ?_
      obtain ⟨hlt, hdata⟩ := hthid w (Option.some.inj hw)
      exact ⟨hlt, by rw [hdata]; rintro ⟨⟩⟩
  | outEvent e =>
    rcases outEvent_cases hstep with ⟨-, rfl⟩ | ⟨fd, -, hclean⟩
    · exact h
    · exact h.timerCleaner hclean
  | timerCleaner fd => exact h.timerCleaner hstep
  | reconnect e created =>
    obtain rfl := Option.some.inj hstep
    exact (h.threadPoolAlloc e created).1
  | wake w =>
    obtain ⟨e, -, -, -, rfl⟩ := wake_cases hstep
    exact h.setWorker (by rintro - ⟨⟩) rfl id (by rintro ⟨⟩)
  | block w =>
    obtain ⟨e, -, rfl⟩ := block_cases hstep
    exact h.setWorker (by rintro - ⟨⟩) rfl id (h.called w)
  | resume w =>
    obtain ⟨e, -, -, rfl⟩ := resume_cases hstep
    exact h.setWorker (by rintro - ⟨⟩) rfl id (by rintro ⟨⟩)
  | finish w =>
    obtain ⟨e, -, ⟨htmp, rfl⟩ | ⟨htmp, rfl⟩⟩ := finish_cases hstep
    · refine h.setWorker (fun hw => ?_) rfl id (h.called w)
      rw [(h.pool w hw).2] at htmp
      simp at htmp
    · -- only a worker of the pool is queued again: the others are temporary
      have hw : w < cnt := by
        by_contra hw
        rw [h.temp w (Nat.not_lt.mp hw)] at htmp
        simp at htmp
      have hset := h.setWorker (w := w) (d := (s.workers w).restart)
        (by rintro - ⟨⟩) rfl id (h.called w)
      refine hset.setIdle fun v hv => ?_
      rcases List.mem_append.mp hv with hv | hv
      · exact h.idle v hv
      · rw [List.mem_singleton.mp hv]
        exact hw

end Valid

end Worker

end Lidas
