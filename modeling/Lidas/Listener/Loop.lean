import Lidas.Memory.Queue

/-!
# The main loop of a listener and its master socket

Every round of `lida_listener_proc` asks for the accept lock with `F_SETLK`, which does not
block. With the lock the process adds the master socket to its epoll set and sets `event_flag`.
`listen_event` takes both back after an accept: it unlocks first and removes the socket then.
An error of `accept` takes nothing back. `listener_kill`, the handler of `SIGINT`, removes the
socket and sets `listen_del_flag`; it leaves the lock and the flag.

What the kernel answers is in the labels: the result of `fcntl`, the events `epoll_wait` reports,
the outcome of `accept`. An activation of `timer_task` by the manager thread is a step for each
timer it takes from the queue. A process that has exited holds no lock and has no epoll set.
-/

namespace Lidas

namespace Listener

/-- An event that `epoll_wait` reports, `masterIn` and `masterErr` for the master socket. -/
inductive EpollEvent where
  | masterIn
  | masterErr
  | other
  deriving DecidableEq

def EpollEvent.isMaster : EpollEvent → Bool
  | .other => false
  | _ => true

/-- Where the main thread is, with the events that are still to be handled. -/
inductive Pc where
  | top
  /-- before `EPOLL_CTL_ADD` -/
  | register
  /-- before `epoll_wait` -/
  | wait
  | handle (e : EpollEvent) (es : List EpollEvent)
  /-- at `END_ACCEPT` -/
  | release (es : List EpollEvent)
  /-- before `EPOLL_CTL_DEL` in `listen_event` -/
  | unregister (es : List EpollEvent)
  | exited
  deriving DecidableEq

/-- The next round of the loop over the events, or of the main loop. -/
def Pc.next : List EpollEvent → Pc
  | [] => .top
  | e :: es => .handle e es

/-- The result of `fcntl (sock, F_SETLK, l)`; `busy` is `EACCES` or `EAGAIN`. -/
inductive LockRes where
  | granted
  | busy
  | error
  deriving DecidableEq

/-- A listener process. -/
structure Proc where
  pc : Pc
  eventFlag : Bool
  /-- the master socket is in the epoll set -/
  registered : Bool
  /-- the process has the record lock -/
  locked : Bool
  /-- `listen_del_flag` -/
  delFlag : Bool
  /-- `timer_obj.t` -/
  queue : LidaQueue

namespace Proc

variable (s : Proc)

/-- `exit`. -/
def exit : Proc := { s with pc := .exited, registered := false, locked := false }

/-- The test at the top of the loop. -/
def WantsLock : Prop := ¬s.queue.QIsFull ∨ s.delFlag = false

instance : Decidable s.WantsLock := inferInstanceAs (Decidable (_ ∨ _))

/-- What `epoll_wait` may report: the master socket once, if it is registered. -/
def Reports (es : List EpollEvent) : Prop :=
  es.countP EpollEvent.isMaster ≤ if s.registered then 1 else 0

instance (es : List EpollEvent) : Decidable (s.Reports es) := inferInstanceAs (Decidable (_ ≤ _))

end Proc

/-- The steps of a listener process. -/
inductive Label where
  /-- a round begins with `fcntl` -/
  | begin (r : LockRes)
  /-- a round begins without it -/
  | skip
  /-- `EPOLL_CTL_ADD` of the master socket -/
  | register (ok : Bool)
  /-- `epoll_wait` returns -/
  | epollWait (es : List EpollEvent)
  | epollErr
  /-- an event of another descriptor is handled -/
  | other
  /-- `connect_destruct` for the master socket -/
  | masterErr
  /-- `accept` fails, or the new descriptor stays a blocking one -/
  | acceptFails
  /-- a connection is accepted; it comes to `timer_insert`, with the entry `p`, or
  `EPOLL_CTL_ADD` fails for it -/
  | accept (p : Option ℕ)
  /-- `F_UNLCK` -/
  | unlock (ok : Bool)
  /-- `EPOLL_CTL_DEL` of the master socket in `listen_event` -/
  | unregister
  /-- `listener_kill` -/
  | kill
  /-- `timer_task` takes a timer that has run out -/
  | expire
  /-- `timer_task` takes another one, and puts it back -/
  | requeue
  deriving DecidableEq

/-- One step, `none` where the label does not fit the state. -/
def step (s : Proc) : Label → Option Proc
  | .begin r =>
    if s.pc = .top ∧ s.WantsLock then
      match r with
      | .granted => some { s with pc := .register, locked := true }
      | .busy => some { s with pc := .wait, eventFlag := false }
      | .error => some s.exit
    else none
  | .skip => if s.pc = .top ∧ ¬s.WantsLock then some { s with pc := .wait } else none
  | .register ok =>
    if s.pc = .register then
      match ok, s.registered with
      | true, false => some { s with pc := .wait, registered := true, eventFlag := true }
      -- `EEXIST`
      | true, true => none
      | false, _ => some s.exit
    else none
  | .epollWait es =>
    if s.pc = .wait ∧ s.Reports es then some { s with pc := .next es } else none
  | .epollErr => if s.pc = .wait then some s.exit else none
  | .other =>
    match s.pc with
    | .handle .other es => some { s with pc := .next es }
    | _ => none
  | .masterErr =>
    match s.pc with
    | .handle .masterErr _ => some s.exit
    | _ => none
  | .acceptFails =>
    match s.pc with
    | .handle .masterIn es => some { s with pc := .next es }
    | _ => none
  | .accept p =>
    match s.pc with
    | .handle .masterIn es =>
      -- a queue that is full leads to `END_ACCEPT`, too
      some { s with
        pc := .release es
        queue := match p with
          | some p => (s.queue.queueIn p).2
          | none => s.queue }
    | _ => none
  | .unlock ok =>
    match s.pc with
    | .release es =>
      if ok then some { s with pc := .unregister es, eventFlag := false, locked := false }
      else some { s with pc := .next es, eventFlag := false }
    | _ => none
  | .unregister =>
    match s.pc with
    | .unregister es => some { s with pc := .next es, registered := false }
    | _ => none
  | .kill =>
    if s.pc = .exited then none
    else if s.registered then some { s with registered := false, delFlag := true }
    else some s.exit
  | .expire =>
    if s.pc = .exited ∨ s.queue.entries = [] then none
    else if s.queue.queueOut.2.head = s.queue.queueOut.2.tail ∧ s.delFlag then some s.exit
    else some { s with queue := s.queue.queueOut.2 }
  | .requeue =>
    if s.pc = .exited ∨ s.queue.entries = [] then none
    else some { s with queue := (s.queue.queueOut.2.queueIn s.queue.queueOut.1).2 }

/-- Before the first round. The queue has twice as many slots as `true_type.keep_alive`. -/
def start (keepAlive : ℕ+) : Proc where
  pc := .top
  eventFlag := false
  registered := false
  locked := false
  delFlag := false
  queue := LidaQueue.queueInit (2 * keepAlive) (Nat.mul_pos Nat.two_pos keepAlive.pos)

/-- At the top of the loop the flag, the epoll set and the lock agree, and the master socket is
not registered while the timer queue is full or after `listener_kill`. -/
structure InAccord (s : Proc) : Prop where
  top : s.pc = .top →
    (s.eventFlag = true ↔ s.registered = true) ∧ (s.registered = true ↔ s.locked = true)
  registered : s.registered = true → ¬s.queue.Full ∧ s.delFlag = false

/-- `EPOLL_CTL_ADD` is issued only when the master socket is not registered, and `EPOLL_CTL_DEL`
only when it is. -/
def Balanced (s : Proc) : Label → Prop
  | .register _ => s.registered = false
  | .unregister => s.registered = true
  | .kill => s.registered = true
  | _ => True

instance (s : Proc) (a : Label) : Decidable (Balanced s a) :=
  match a with
  | .register _ => inferInstanceAs (Decidable (_ = _))
  | .unregister => inferInstanceAs (Decidable (_ = _))
  | .kill => inferInstanceAs (Decidable (_ = _))
  | .begin _ | .skip | .epollWait _ | .epollErr | .other | .masterErr | .acceptFails | .accept _
  | .unlock _ | .expire | .requeue => isTrue trivial

/-- What keeps the three in step. The lock is granted, or busy, only in a round that begins with
the master socket not registered, and granted only while the timer queue has room and
`listener_kill` has not run. A connection that is accepted leaves room in the queue. The lock
can be released, and `listener_kill` does not run. -/
def Regular (s : Proc) : Label → Prop
  | .begin .granted => s.registered = false ∧ ¬s.queue.Full ∧ s.delFlag = false
  | .begin .busy => s.registered = false
  | .accept (some _) => s.queue.count + 2 < s.queue.max
  | .unlock ok => ok = true
  | .kill => False
  | _ => True

instance (s : Proc) (a : Label) : Decidable (Regular s a) :=
  match a with
  | .begin .granted => inferInstanceAs (Decidable (_ ∧ _))
  | .begin .busy => inferInstanceAs (Decidable (_ = _))
  | .accept (some _) => inferInstanceAs (Decidable (_ < _))
  | .unlock _ => inferInstanceAs (Decidable (_ = _))
  | .kill => isFalse id
  | .begin .error | .skip | .register _ | .epollWait _ | .epollErr | .other | .masterErr
  | .acceptFails | .accept none | .unregister | .expire | .requeue => isTrue trivial

/-! ### The invariant -/

/-- The flag, the epoll set and the lock agree. -/
def Proc.Agree (s : Proc) : Prop := s.eventFlag = s.registered ∧ s.registered = s.locked

/-- What holds where the main thread is. The master socket is registered as long as one of its
events is to be handled. -/
def Placed (s : Proc) : Prop :=
  match s.pc with
  | .top => s.Agree
  | .register => s.registered = false ∧ s.locked = true
  | .wait => s.Agree
  | .handle e es => s.Agree ∧ s.Reports (e :: es)
  | .release es => s.registered = true ∧ es.countP EpollEvent.isMaster = 0
  | .unregister es => s.eventFlag = false ∧ s.registered = true ∧ s.locked = false ∧
      es.countP EpollEvent.isMaster = 0
  | .exited => s.registered = false

/-- The invariant of regular runs. -/
structure Sound (s : Proc) : Prop where
  placed : Placed s
  not_killed : s.delFlag = false
  room : s.registered = true ∨ s.pc = .register → ¬s.queue.Full

section Sound

variable {s s' : Proc} {e : EpollEvent} {es : List EpollEvent}

theorem Placed.top (h : Placed s) (hpc : s.pc = .top) : s.Agree := by
  rwa [Placed, hpc] at h

theorem Placed.wait (h : Placed s) (hpc : s.pc = .wait) : s.Agree := by
  rwa [Placed, hpc] at h

/-- While an event is handled, the flag, the registration and the lock agree, and the socket comes
up at most once. -/
theorem Placed.handle (h : Placed s) (hpc : s.pc = .handle e es) :
    s.Agree ∧ s.Reports (e :: es) := by
  rwa [Placed, hpc] at h

theorem placed_next (hpc : s.pc = .next es) (hs : s.Agree) (hes : s.Reports es) : Placed s := by
  rw [Placed, hpc]
  cases es with
  | nil => exact hs
  | cons e es => exact ⟨hs, hes⟩

/-- An event less is left. -/
theorem Proc.Reports.tail (h : s.Reports (e :: es)) : s.Reports es := by
  rw [Proc.Reports, List.countP_cons] at h
  rw [Proc.Reports]
  omega

/-- An event of the master socket is reported only while it is registered, and once. -/
theorem Proc.Reports.master (h : s.Reports (e :: es)) (he : e.isMaster = true) :
    s.registered = true ∧ es.countP EpollEvent.isMaster = 0 := by
  rw [Proc.Reports, List.countP_cons_of_pos he] at h
  split_ifs at h with hreg
  · exact ⟨hreg, by omega⟩
  · omega

/-- At the start the socket is not registered, and the lock not taken. -/
theorem sound_start (keepAlive : ℕ+) : Sound (start keepAlive) :=
  ⟨⟨rfl, rfl⟩, rfl, by rintro (h | h) <;> cases h⟩

/-- A process that ends is not registered any more. -/
theorem Sound.exit (h : Sound s) : Sound s.exit :=
  ⟨rfl, h.not_killed, by rintro (h | h) <;> cases h⟩

/-- What a step of the manager thread leaves in place. -/
theorem Sound.setQueue (h : Sound s) {q : LidaQueue} (hq : ¬s.queue.Full → ¬q.Full) :
    Sound { s with queue := q } :=
  ⟨h.placed, h.not_killed, fun hreg => hq (h.room hreg)⟩

/-- An event is handled without a change of the flag or of the lock. -/
theorem Sound.next (h : Sound s) (hpc : s.pc = .handle e es) : Sound { s with pc := .next es } := by
  obtain ⟨hagree, hreports⟩ := h.placed.handle hpc
  refine ⟨placed_next rfl hagree hreports.tail, h.not_killed, fun hreg => h.room ?_⟩
  rcases hreg with hreg | hreg
  · exact Or.inl hreg
  · cases es <;> cases hreg

/-- The lock is granted in a round that begins with the master socket not registered. -/
theorem Sound.granted (h : Sound s) (hun : s.registered = false) (hroom : ¬s.queue.Full) :
    Sound { s with pc := .register, locked := true } :=
  ⟨⟨hun, rfl⟩, h.not_killed, fun _ => hroom⟩

/-- Without the lock the process waits with the flag down. -/
theorem Sound.busy (h : Sound s) (hpc : s.pc = .top) (hun : s.registered = false) :
    Sound { s with pc := .wait, eventFlag := false } := by
  obtain ⟨-, hlock⟩ := h.placed.top hpc
  refine ⟨⟨hun.symm, hlock⟩, h.not_killed, ?_⟩
  rintro (hreg | hpc)
  · exact h.room (Or.inl hreg)
  · cases hpc

/-- With the lock it waits with the flag up. -/
theorem Sound.register (h : Sound s) (hpc : s.pc = .register) :
    Sound { s with pc := .wait, registered := true, eventFlag := true } := by
  have hplaced := h.placed
  rw [Placed, hpc] at hplaced
  exact ⟨⟨rfl, hplaced.2.symm⟩, h.not_killed, fun _ => h.room (Or.inr hpc)⟩

/-- What `epoll_wait` reports is what is registered. -/
theorem Sound.epollWait (h : Sound s) (hpc : s.pc = .wait) (hes : s.Reports es) :
    Sound { s with pc := .next es } := by
  refine ⟨placed_next rfl (h.placed.wait hpc) hes, h.not_killed, ?_⟩
  rintro (hreg | hpc)
  · exact h.room (Or.inl hreg)
  · cases es <;> cases hpc

/-- A connection is accepted, with what `timer_insert` makes of the queue. -/
theorem Sound.accept (h : Sound s) (hpc : s.pc = .handle .masterIn es) {q : LidaQueue}
    (hq : ¬s.queue.Full → ¬q.Full) : Sound { s with pc := .release es, queue := q } := by
  obtain ⟨-, hreports⟩ := h.placed.handle hpc
  obtain ⟨hregistered, hnone⟩ := hreports.master rfl
  exact ⟨⟨hregistered, hnone⟩, h.not_killed, fun _ => hq (h.room (Or.inl hregistered))⟩

/-- The lock goes before the registration does. -/
theorem Sound.unlock (h : Sound s) (hpc : s.pc = .release es) :
    Sound { s with pc := .unregister es, eventFlag := false, locked := false } := by
  have hplaced := h.placed
  rw [Placed, hpc] at hplaced
  exact ⟨⟨rfl, hplaced.1, rfl, hplaced.2⟩, h.not_killed, fun _ => h.room (Or.inl hplaced.1)⟩

/-- Then the registration goes. -/
theorem Sound.unregister (h : Sound s) (hpc : s.pc = .unregister es) :
    Sound { s with pc := .next es, registered := false } := by
  have hplaced := h.placed
  rw [Placed, hpc] at hplaced
  obtain ⟨hflag, -, hlock, hnone⟩ := hplaced
  refine ⟨placed_next rfl ⟨hflag, hlock.symm⟩ hnone.le, h.not_killed, ?_⟩
  rintro (hreg | hpc)
  · cases hreg
  · cases es <;> cases hpc

/-- A timer can be stored without the queue being full afterwards. -/
theorem not_full_queueIn {q : LidaQueue} (p : ℕ) (hleft : q.count + 2 < q.max) (hroom : ¬q.Full) :
    ¬(q.queueIn p).2.Full := by
  obtain ⟨hcount, hmax⟩ := q.count_queueIn p hroom
  rw [LidaQueue.Full, hcount, hmax]
  omega

/-- One step of a regular run, by its label. -/
theorem Sound.after {a : Label} (h : Sound s) (hreg : Regular s a) (hstep : step s a = some s') :
    Sound s' := by
  cases a with
  | begin r =>
    simp only [Listener.step] at hstep
    split_ifs at hstep with hbegin
    cases r with
    | granted =>
      obtain rfl := Option.some.inj hstep
      exact h.granted hreg.1 hreg.2.1
    | busy =>
      obtain rfl := Option.some.inj hstep
      exact h.busy hbegin.1 hreg
    | error =>
      obtain rfl := Option.some.inj hstep
      exact h.exit
  | skip =>
    simp only [Listener.step] at hstep
    split_ifs at hstep with hskip
    -- a process that is not killed asks for the lock
    exact absurd (Or.inr h.not_killed) hskip.2
  | register ok =>
    simp only [Listener.step] at hstep
    split_ifs at hstep with hpc
    split at hstep
    · obtain rfl := Option.some.inj hstep
      exact h.register hpc
    · cases hstep
    · obtain rfl := Option.some.inj hstep
      exact h.exit
  | epollWait es =>
    simp only [Listener.step] at hstep
    split_ifs at hstep with hwait
    obtain rfl := Option.some.inj hstep
    exact h.epollWait hwait.1 hwait.2
  | epollErr =>
    simp only [Listener.step] at hstep
    split_ifs at hstep with hwait
    obtain rfl := Option.some.inj hstep
    exact h.exit
  | other =>
    simp only [Listener.step] at hstep
    split at hstep
    · rename_i es hpc
      obtain rfl := Option.some.inj hstep
      exact h.next hpc
    · cases hstep
  | masterErr =>
    simp only [Listener.step] at hstep
    split at hstep
    · obtain rfl := Option.some.inj hstep
      exact h.exit
    · cases hstep
  | acceptFails =>
    simp only [Listener.step] at hstep
    split at hstep
    · rename_i es hpc
      obtain rfl := Option.some.inj hstep
      exact h.next hpc
    · cases hstep
  | accept p =>
    simp only [Listener.step] at hstep
    split at hstep
    · rename_i es hpc
      obtain rfl := Option.some.inj hstep
      cases p with
      | none => exact h.accept hpc id
      | some p => exact h.accept hpc (not_full_queueIn p hreg)
    · cases hstep
  | unlock ok =>
    have hok : ok = true := hreg
    simp only [Listener.step, hok, if_true] at hstep
    split at hstep
    · rename_i es hpc
      obtain rfl := Option.some.inj hstep
      exact h.unlock hpc
    · cases hstep
  | unregister =>
    simp only [Listener.step] at hstep
    split at hstep
    · rename_i es hpc
      obtain rfl := Option.some.inj hstep
      exact h.unregister hpc
    · cases hstep
  -- a regular step takes no signal
  | kill => exact absurd hreg id
  | expire =>
    simp only [Listener.step] at hstep
    split_ifs at hstep with hno hlast
    · obtain rfl := Option.some.inj hstep
      exact h.exit
    · obtain rfl := Option.some.inj hstep
      exact h.setQueue fun _ => s.queue.not_full_queueOut fun hnil => hno (Or.inr hnil)
  | requeue =>
    simp only [Listener.step] at hstep
    split_ifs at hstep with hno
    obtain rfl := Option.some.inj hstep
    exact h.setQueue (mt (s.queue.full_requeue _ fun hnil => hno (Or.inr hnil)).mp)

/-- Before `epoll_wait` all of them agree, and a full process is not registered. -/
theorem Sound.inAccord (h : Sound s) : InAccord s := by
  refine ⟨fun hpc => ?_, fun hreg => ⟨h.room (Or.inl hreg), h.not_killed⟩⟩
  obtain ⟨hflag, hlock⟩ := h.placed.top hpc
  rw [hflag, hlock]
  exact ⟨Iff.rfl, Iff.rfl⟩

/-- Regular steps register only an unregistered socket, and remove only a registered one. -/
theorem Sound.balanced {a : Label} (h : Sound s) (hreg : Regular s a) (hstep : step s a = some s') :
    Balanced s a := by
  cases a with
  | register ok =>
    simp only [Listener.step] at hstep
    split_ifs at hstep with hpc
    have hplaced := h.placed
    rw [Placed, hpc] at hplaced
    exact hplaced.1
  | unregister =>
    simp only [Listener.step] at hstep
    split at hstep
    · rename_i es hpc
      have hplaced := h.placed
      rw [Placed, hpc] at hplaced
      exact hplaced.2.1
    · cases hstep
  | kill => exact absurd hreg id
  | _ => trivial

end Sound

/-- **Regular runs.** The flag, the epoll set and the lock stay in step as long as no round asks
for a lock that the process has, no accept fills the queue, and `listener_kill` does not run. -/
theorem inAccord_of_regular (keepAlive : ℕ+) {as : List Label}
    (h : Runs.Meets step Regular (start keepAlive) as) :
    Runs.Holds step InAccord (start keepAlive) as ∧
      Runs.Meets step Balanced (start keepAlive) as := by
  have hstep : ∀ s a s', Sound s → Regular s a → step s a = some s' → Sound s' :=
    fun _ _ _ hs hreg hs' => hs.after hreg hs'
  constructor
  · exact (Runs.holds_of_meets hstep (sound_start keepAlive) h).mono fun _ hs => hs.inAccord
  · exact Runs.meets_of_inv hstep (fun _ _ _ hs hreg hs' => hs.balanced hreg hs')
      (sound_start keepAlive) h

/-- A connection is accepted in the first round, and the second finds the lock taken. -/
theorem inAccord_twoRounds :
    let as := [.begin .granted, .register true, .epollWait [.other, .masterIn], .other,
      .accept (some 5), .unlock true, .unregister, .begin .busy, .epollWait []]
    Runs.Holds step InAccord (start 2) as ∧ Runs.Meets step Balanced (start 2) as :=
  inAccord_of_regular 2 (by decide)

/-- Nothing happens in the first round, and the second adds the master socket again. -/
theorem not_balanced_idleRound :
    ¬∀ (keepAlive : ℕ+) (as : List Label), Runs.Holds step InAccord (start keepAlive) as ∧
      Runs.Meets step Balanced (start keepAlive) as := by
  intro h
  obtain ⟨-, hbalanced⟩ := h 2 [.begin .granted, .register true, .epollWait [], .begin .granted,
    .register false]
  revert hbalanced
  decide

end Listener

end Lidas
