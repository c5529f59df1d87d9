import Lidas.Listener.Connections

/-!
# Accepting a connection

`listen_event` acquires a descriptor, an event object, a place in the epoll set, a timer and a place
in the keep-alive queue, one after the other. Success and failure share the code at `END_ACCEPT`,
which releases the accept lock and nothing that was acquired for the client.

So a call that returns leaves everything, or nothing, only if `accept` fails or none of the later
steps does (`allOrNothing_iff`). A cache without blocks is not noticed: what it returns is used.
With timers a call that comes as far as `mem_pool_creat` does not return either, unless
`timer_data_lst` has an entry for the client before there is one (`returns_iff`).
-/

namespace Lidas

namespace Connections

/-- The results of the calls in `listen_event`. -/
structure Outcome where
  /-- the descriptor that `accept` returns -/
  client : Option ℕ
  /-- `errno` is `EINTR` -/
  interrupted : Bool
  /-- `SET_NON_BLOCK` -/
  nonBlock : Bool
  /-- `EPOLL_CTL_ADD` for the client -/
  added : Bool
  /-- `time` -/
  now : ℤ
  /-- `F_UNLCK` -/
  unlocked : Bool
  /-- `EPOLL_CTL_DEL` for the master socket -/
  removed : Bool

/-- What the process has of the master socket. -/
structure Master where
  eventFlag : Bool
  /-- the process has the record lock -/
  locked : Bool
  /-- the socket is in the epoll set -/
  registered : Bool

/-- How a call of `listen_event` ends: it returns, at the end of the function without a value, or it
uses `NULL`, from a cache or in `timer_data_lst`. -/
inductive Accepted where
  | returned (ret : Option ℤ) (s : State) (m : Master)
  | exhausted
  | missing

/-- From `END_ACCEPT` on. -/
def endAccept (s : State) (m : Master) (o : Outcome) : Accepted :=
  let m := { m with eventFlag := false }
  if o.unlocked = false then .returned (some (-1)) s m
  else
    let m := { m with locked := false }
    if o.removed = false then .returned (some (-1)) s m
    else .returned none s { m with registered := false }

/-- `listen_event`. -/
def listenEvent (c : Config) (timerFlag : Bool) (s : State) (m : Master) (o : Outcome) : Accepted :=
  match o.client with
  | none => .returned (some (if o.interrupted = true then 0 else -1)) s m
  | some fd =>
    let s := { s with opened := insert fd s.opened }
    if o.nonBlock = false then .returned (some (-1)) s m
    else
      match s.events.alloc with
      | none => .exhausted
      | some (a, events) =>
        let s := State.setObject { s with events := events } a
          { fd := fd, pfd := 0, type := .commonRdEvent, node := none }
        if o.added = false then endAccept s m o
        else
          let s := { s with epoll := Function.update s.epoll fd (some a) }
          if timerFlag = false then endAccept s m o
          else
            match s.timers.timerInsert fd o.now with
            | none => .exhausted
            | some (_, t) =>
              -- `mem_pool_creat` and `buf_log_init`
              if s.Present c fd then endAccept { s with timers := t } m o else .missing

/-- The client is registered: it has an event object and is in the epoll set, and with timers it has
a timer, which is in the queue and in the table. -/
structure Registered (timerFlag : Bool) (s : State) (now : ℤ) (fd : ℕ) (s' : State) : Prop where
  opened : fd ∈ s'.opened
  event : ∃ a, s.events.alloc = some (a, s'.events) ∧ s'.epoll fd = some a ∧
    s'.object a = { fd := fd, pfd := 0, type := .commonRdEvent, node := none }
  timer : timerFlag = true → ∃ p, s.timers.pool.alloc = some (p, s'.timers.pool) ∧
    s'.timers.timer p = { fd := fd, pfd := 0, time := now } ∧
    s'.timers.queue.entries = s.timers.queue.entries ++ [p] ∧ s'.timers.table fd = some p

/-- Nothing remains of the client, if there was one. -/
structure LeavesNothing (s : State) (client : Option ℕ) (s' : State) : Prop where
  closed : ∀ fd ∈ client, fd ∉ s'.opened ∧ s'.epoll fd = none
  events : s'.events = s.events
  pool : s'.timers.pool = s.timers.pool
  queue : s'.timers.queue = s.timers.queue
  table : s'.timers.table = s.timers.table

/-- An exhausted cache is not used, and a call that returns has registered the client or leaves
nothing of it. -/
structure AllOrNothing (c : Config) (timerFlag : Bool) (s : State) (m : Master) (o : Outcome) :
    Prop where
  reported : listenEvent c timerFlag s m o ≠ .exhausted
  settled : ∀ ret s' m', listenEvent c timerFlag s m o = .returned ret s' m' →
    (∃ fd ∈ o.client, Registered timerFlag s o.now fd s') ∨ LeavesNothing s o.client s'

/-- There is no client, or there is no failure behind `accept`: the caches have blocks, and the
queue has room, if the call comes to `queue_in`. -/
def Unhindered (c : Config) (timerFlag : Bool) (s : State) (o : Outcome) : Prop :=
  ∀ fd ∈ o.client, o.nonBlock = true ∧ s.events.free ≠ [] ∧ o.added = true ∧
    (timerFlag = true → s.timers.pool.free ≠ [] ∧ (s.Present c fd → ¬s.timers.queue.Full))

/-- The client has an event object. -/
def State.prepared (s : State) (fd : ℕ) (a : Addr) (events : FreeList Addr) : State :=
  State.setObject { s with opened := insert fd s.opened, events := events } a
    { fd := fd, pfd := 0, type := .commonRdEvent, node := none }

/-- And it is in the epoll set. -/
def State.watched (s : State) (fd : ℕ) (a : Addr) (events : FreeList Addr) : State :=
  { s.prepared fd a events with epoll := Function.update s.epoll fd (some a) }

variable {c : Config} {timerFlag : Bool} {s s' : State} {m m' : Master} {o : Outcome} {fd : ℕ}
  {ret : Option ℤ} {a : Addr} {events : FreeList Addr}

/-! ### The ends of a call -/

/-- Whatever happens at `END_ACCEPT`, the call returns. -/
theorem endAccept_eq (s : State) (m : Master) (o : Outcome) :
    ∃ ret m', endAccept s m o = .returned ret s m' := by
  rw [endAccept]
  dsimp only
  split_ifs
  · exact ⟨_, _, rfl⟩
  · exact ⟨_, _, rfl⟩
  · exact ⟨_, _, rfl⟩

/-- Without a client nothing changes. -/
theorem listenEvent_of_none (hclient : o.client = none) (timerFlag : Bool) :
    ∃ ret, listenEvent c timerFlag s m o = .returned ret s m := by
  rw [listenEvent, hclient]
  exact ⟨_, rfl⟩

/-- A client whose socket stays blocking is left open, and unregistered. -/
theorem listenEvent_of_blocking (hclient : o.client = some fd) (hblock : o.nonBlock = false)
    (timerFlag : Bool) :
    listenEvent c timerFlag s m o =
      .returned (some (-1)) { s with opened := insert fd s.opened } m := by
  rw [listenEvent, hclient]
  dsimp only
  rw [if_pos hblock]

/-- Without a free object the process follows `NULL`. -/
theorem listenEvent_of_noEvents (hclient : o.client = some fd) (hblock : o.nonBlock = true)
    (hfree : s.events.free = []) : listenEvent c timerFlag s m o = .exhausted := by
  rw [listenEvent, hclient]
  dsimp only
  rw [hblock, if_neg Bool.false_ne_true.symm, FreeList.alloc_eq_none.mpr hfree]

/-- With one, what is left is to register the client. -/
theorem listenEvent_of_events (hclient : o.client = some fd) (hblock : o.nonBlock = true)
    (halloc : s.events.alloc = some (a, events)) (timerFlag : Bool) :
    listenEvent c timerFlag s m o =
      if o.added = false then endAccept (s.prepared fd a events) m o
      else if timerFlag = false then endAccept (s.watched fd a events) m o
      else
        match s.timers.timerInsert fd o.now with
        | none => .exhausted
        | some (_, t) =>
          if s.Present c fd then endAccept { s.watched fd a events with timers := t } m o
          else .missing := by
  rw [listenEvent, hclient]
  dsimp only
  rw [hblock, if_neg Bool.false_ne_true.symm, halloc]
  rfl

/-- With timers, and with a client in the epoll set. -/
theorem listenEvent_of_added (hclient : o.client = some fd) (hblock : o.nonBlock = true)
    (halloc : s.events.alloc = some (a, events)) (hadded : o.added = true) :
    listenEvent c true s m o =
      match s.timers.timerInsert fd o.now with
      | none => .exhausted
      | some (_, t) =>
        if s.Present c fd then endAccept { s.watched fd a events with timers := t } m o
        else .missing := by
  rw [listenEvent_of_events hclient hblock halloc, hadded, if_neg Bool.false_ne_true.symm,
    if_neg Bool.false_ne_true.symm]

/-- A descriptor that is not registered is added. -/
theorem State.epollAdd_of_none (hepoll : s.epoll fd = none) :
    s.epollAdd fd a = { s with epoll := Function.update s.epoll fd (some a) } := by
  rw [State.epollAdd, if_pos hepoll]

/-- The same call as a step of the process. -/
theorem listenEvent_eq_returned (hclient : o.client = some fd) (hblock : o.nonBlock = true)
    (hepoll : s.epoll fd = none) (h : listenEvent c true s m o = .returned ret s' m') :
    s.listenEvent c fd o.added (decide (s.timers.table fd ≠ none)) o.now = s' := by
  cases halloc : s.events.alloc with
  | none =>
    rw [listenEvent_of_noEvents hclient hblock (FreeList.alloc_eq_none.mp halloc)] at h
    cases h
  | some r =>
    obtain ⟨a, events⟩ := r
    have hreturn : ∀ t : State, endAccept t m o = .returned ret s' m' → t = s' := fun t ht => by
      obtain ⟨_, _, heq⟩ := endAccept_eq t m o
      rw [heq] at ht
      exact (Accepted.returned.inj ht).2.1
    rw [State.listenEvent, halloc]
    dsimp only
    by_cases hadded : o.added = true
    · rw [listenEvent_of_added hclient hblock halloc hadded] at h
      rw [hadded, if_neg Bool.false_ne_true.symm]
      cases hinsert : s.timers.timerInsert fd o.now with
      | none => simp [hinsert] at h
      | some r =>
        obtain ⟨_, t⟩ := r
        rw [hinsert] at h
        dsimp only at h ⊢
        split_ifs at h with hpresent
        rw [if_pos ⟨decide_eq_true hpresent.2, hpresent.1⟩, ← hreturn _ h]
        exact State.epollAdd_of_none hepoll
    · have hfails := Bool.not_eq_true _ ▸ hadded
      rw [listenEvent_of_events hclient hblock halloc, if_pos hfails] at h
      rw [if_pos hfails]
      exact hreturn _ h

/-! ### All or nothing -/

/-- A client that is open is left. -/
theorem not_leavesNothing (hclient : o.client = some fd) (hopen : fd ∈ s'.opened) :
    ¬LeavesNothing s o.client s' := fun h => (h.closed fd hclient).1 hopen

/-- A call that returns with a client open has to have registered it. -/
theorem AllOrNothing.registered (h : AllOrNothing c timerFlag s m o) (hclient : o.client = some fd)
    (hret : listenEvent c timerFlag s m o = .returned ret s' m') (hopen : fd ∈ s'.opened) :
    Registered timerFlag s o.now fd s' := by
  rcases h.settled ret s' m' hret with ⟨fd', hfd, hregistered⟩ | hnothing
  · rw [hclient, Option.mem_some] at hfd
    rwa [hfd]
  · exact absurd hnothing (not_leavesNothing hclient hopen)

/-- What a call that returns has to show. -/
theorem AllOrNothing.of_returned
    (hret : listenEvent c timerFlag s m o = .returned ret s' m')
    (hall : (∃ fd ∈ o.client, Registered timerFlag s o.now fd s') ∨ LeavesNothing s o.client s') :
    AllOrNothing c timerFlag s m o := by
  refine ⟨by rw [hret]; exact Accepted.noConfusion, fun ret₁ s₁ m₁ hret₁ => ?_⟩
  rw [hret] at hret₁
  obtain ⟨-, rfl, -⟩ := Accepted.returned.inj hret₁
  exact hall

/-- A client that is watched and has its timer is registered. -/
theorem registered_watched {t : Timers} (halloc : s.events.alloc = some (a, events))
    (htimer : timerFlag = true → ∃ p, s.timers.pool.alloc = some (p, t.pool) ∧
      t.timer p = { fd := fd, pfd := 0, time := o.now } ∧
      t.queue.entries = s.timers.queue.entries ++ [p] ∧ t.table fd = some p) :
    Registered timerFlag s o.now fd { s.watched fd a events with timers := t } :=
  ⟨Finset.mem_insert_self fd _, ⟨a, halloc, Function.update_self .., Function.update_self ..⟩,
    htimer⟩

/-- `timer_insert` returns only with a free block. -/
theorem free_ne_nil_of_timerInsert {t t' : Timers} {now r : ℤ}
    (hinsert : t.timerInsert fd now = some (r, t')) : t.pool.free ≠ [] := by
  obtain ⟨p, halloc, -, -, -⟩ := Timers.timerInsert_eq_some hinsert
  exact FreeList.ne_nil_of_alloc halloc

/-- A timer that is inserted into a queue with room is in the queue and in the table. -/
theorem inserted_iff {t : Timers} {r : ℤ}
    (hinsert : s.timers.timerInsert fd o.now = some (r, t)) :
    (∃ p, s.timers.pool.alloc = some (p, t.pool) ∧
      t.timer p = { fd := fd, pfd := 0, time := o.now } ∧
      t.queue.entries = s.timers.queue.entries ++ [p] ∧ t.table fd = some p) ↔
      ¬s.timers.queue.Full := by
  obtain ⟨p, halloc, htimer, hqueue, htable⟩ := Timers.timerInsert_eq_some hinsert
  constructor
  · rintro ⟨q, -, -, hentries, -⟩ hfull
    rw [hqueue] at hentries
    rcases s.timers.queue.queueIn_of_full p hfull with ⟨-, hin⟩ | ⟨-, -, hin⟩
    · rw [hin] at hentries
      simpa using congrArg List.length hentries
    · rw [hin] at hentries
      simpa using congrArg List.length hentries
  · intro hroom
    obtain ⟨hret, hin, -, -⟩ := s.timers.queue.queueIn_of_not_full p hroom
    refine ⟨p, halloc, ?_, ?_, ?_⟩
    · rw [htimer, Function.update_self]
    · rw [hqueue, hin]
    · rw [htable, hret, if_neg (lt_irrefl 0), Function.update_self]

/-- With a client in the epoll set, what is left is the timer. -/
theorem allOrNothing_of_added (hclient : o.client = some fd) (hblock : o.nonBlock = true)
    (halloc : s.events.alloc = some (a, events)) (hadded : o.added = true) :
    AllOrNothing c true s m o ↔
      s.timers.pool.free ≠ [] ∧ (s.Present c fd → ¬s.timers.queue.Full) := by
  have hend := listenEvent_of_added (c := c) (m := m) hclient hblock halloc hadded
  cases hinsert : s.timers.timerInsert fd o.now with
  | none =>
    rw [hinsert] at hend
    refine iff_of_false (fun h => h.reported hend) fun h => ?_
    exact h.1 (Timers.timerInsert_eq_none.mp hinsert)
  | some r =>
    obtain ⟨r, t⟩ := r
    rw [hinsert] at hend
    dsimp only at hend
    rw [← inserted_iff hinsert, and_iff_right (free_ne_nil_of_timerInsert hinsert)]
    split_ifs at hend with hpresent
    · obtain ⟨ret, m', hret⟩ := endAccept_eq { s.watched fd a events with timers := t } m o
      rw [hret] at hend
      constructor
      · exact fun h _ => (h.registered hclient hend (Finset.mem_insert_self fd _)).timer rfl
      · intro h
        exact .of_returned hend
          (Or.inl ⟨fd, hclient, registered_watched halloc fun _ => h hpresent⟩)
    · refine iff_of_true ⟨by rw [hend]; exact Accepted.noConfusion, fun _ _ _ hret => ?_⟩
        fun h => absurd h hpresent
      rw [hend] at hret
      cases hret

/-- A descriptor that stays blocking stays open. -/
theorem not_allOrNothing_of_blocking (hclient : o.client = some fd) (hblock : o.nonBlock = false) :
    ¬AllOrNothing c timerFlag s m o := by
  intro h
  have hopen := Finset.mem_insert_self fd s.opened
  have hret := listenEvent_of_blocking (c := c) (s := s) (m := m) hclient hblock timerFlag
  obtain ⟨a, halloc, -⟩ := (h.registered hclient hret hopen).event
  simpa using congrArg List.length (FreeList.alloc_eq_some halloc).1

/-- A client that is not added to the epoll set keeps its event object. -/
theorem not_allOrNothing_of_refused (hclient : o.client = some fd) (hblock : o.nonBlock = true)
    (halloc : s.events.alloc = some (a, events)) (hadded : o.added = false)
    (hfresh : s.epoll fd = none) (timerFlag : Bool) : ¬AllOrNothing c timerFlag s m o := by
  intro h
  have hopen := Finset.mem_insert_self fd s.opened
  obtain ⟨ret, m', hret⟩ := endAccept_eq (s.prepared fd a events) m o
  have hend := listenEvent_of_events (c := c) (m := m) hclient hblock halloc timerFlag
  rw [if_pos hadded, hret] at hend
  obtain ⟨b, -, hepoll, -⟩ := (h.registered hclient hend hopen).event
  have hnone : (s.prepared fd a events).epoll fd = none := hfresh
  rw [hnone] at hepoll
  cases hepoll

/-- **Accepting is all or nothing** exactly if `accept` fails, or nothing fails behind it. The
descriptor that `accept` returns is in no epoll set. -/
theorem allOrNothing_iff (c : Config) (timerFlag : Bool) (s : State) (m : Master) (o : Outcome)
    (hfresh : ∀ fd ∈ o.client, s.epoll fd = none) :
    AllOrNothing c timerFlag s m o ↔ Unhindered c timerFlag s o := by
  cases hclient : o.client with
  | none =>
    refine iff_of_true ?_ fun fd hfd => by rw [hclient] at hfd; cases hfd
    obtain ⟨ret, hret⟩ := listenEvent_of_none (c := c) (s := s) (m := m) hclient timerFlag
    refine .of_returned hret (Or.inr ⟨fun fd hfd => ?_, rfl, rfl, rfl, rfl⟩)
    rw [hclient] at hfd
    cases hfd
  | some fd =>
    rw [Unhindered, hclient]
    simp only [Option.mem_some, forall_eq']
    by_cases hblock : o.nonBlock = true
    swap
    · refine iff_of_false ?_ fun h => hblock h.1
      exact not_allOrNothing_of_blocking hclient (Bool.not_eq_true _ ▸ hblock)
    cases halloc : s.events.alloc with
    | none =>
      have hfree := FreeList.alloc_eq_none.mp halloc
      exact iff_of_false (fun h => h.reported (listenEvent_of_noEvents hclient hblock hfree))
        fun h => h.2.1 hfree
    | some r =>
      obtain ⟨a, events⟩ := r
      have hfree := FreeList.ne_nil_of_alloc halloc
      by_cases hadded : o.added = true
      swap
      · refine iff_of_false ?_ fun h => hadded h.2.2.1
        exact not_allOrNothing_of_refused hclient hblock halloc (Bool.not_eq_true _ ▸ hadded)
          (hfresh fd hclient) timerFlag
      cases timerFlag with
      | true =>
        rw [allOrNothing_of_added hclient hblock halloc hadded]
        simp [hblock, hfree, hadded]
      | false =>
        refine iff_of_true ?_ ⟨hblock, hfree, hadded, fun h => by cases h⟩
        obtain ⟨ret, m', hret⟩ := endAccept_eq (s.watched fd a events) m o
        have hend := listenEvent_of_events (c := c) (m := m) hclient hblock halloc false
        rw [hadded, if_neg Bool.false_ne_true.symm, if_pos rfl, hret] at hend
        exact .of_returned hend
          (Or.inl ⟨fd, hclient, registered_watched halloc fun h => by cases h⟩)

/-- The client `7` of a process that has just started. -/
def firstClient (added : Bool) : Outcome where
  client := some 7
  interrupted := false
  nonBlock := true
  added := added
  now := 0
  unlocked := true
  removed := true

/-- The process has the master socket in its epoll set. -/
def listening : Master where
  eventFlag := true
  locked := true
  registered := true

/-- A process whose table has an entry for the client `7` before it comes. -/
def entered : State :=
  { start smallConfig with
    timers :=
      { (start smallConfig).timers with table := fun x => if x = 7 then some 4448 else none } }

/-- With timers the client is registered, and its timer is in the queue. -/
theorem allOrNothing_firstClient :
    AllOrNothing smallConfig true entered listening (firstClient true) ∧
      ∃ ret s' m', listenEvent smallConfig true entered listening (firstClient true) =
        .returned ret s' m' :=
  ⟨(allOrNothing_iff _ _ _ _ _ fun _ _ => rfl).mpr fun fd hfd => by
    obtain rfl := Option.some.inj hfd
    exact ⟨rfl, by decide, rfl, fun _ => ⟨by decide, fun _ => by decide⟩⟩, _, _, _, rfl⟩

/-- If `EPOLL_CTL_ADD` fails for it, it keeps its descriptor and its event object. -/
theorem not_allOrNothing_firstClient :
    ¬∀ (c : Config) (timerFlag : Bool) (s : State) (m : Master) (o : Outcome),
      (∀ fd ∈ o.client, s.epoll fd = none) → AllOrNothing c timerFlag s m o := fun h =>
  not_allOrNothing_of_refused (c := smallConfig) (s := start smallConfig) (m := listening)
    (o := firstClient false) rfl rfl rfl rfl rfl true (h _ _ _ _ _ fun _ _ => rfl)

/-- With timers, a call returns if `accept` fails, or the client cannot be registered with `epoll`,
or it has an entry in the table already. -/
theorem returns_iff (c : Config) (s : State) (m : Master) (o : Outcome) :
    (∃ ret s' m', listenEvent c true s m o = .returned ret s' m') ↔
      ∀ fd ∈ o.client, o.nonBlock = true → s.events.free ≠ [] ∧
        (o.added = true → s.timers.pool.free ≠ [] ∧ s.Present c fd) := by
  cases hclient : o.client with
  | none =>
    obtain ⟨ret, hret⟩ := listenEvent_of_none (c := c) (s := s) (m := m) hclient true
    exact iff_of_true ⟨ret, s, m, hret⟩ fun fd hfd => by cases hfd
  | some fd =>
    simp only [Option.mem_some, forall_eq']
    -- the checks in the order of the source: the socket, the event, epoll, the timer
    by_cases hblock : o.nonBlock = true
    swap
    · have hret := listenEvent_of_blocking (c := c) (s := s) (m := m) hclient
        (Bool.not_eq_true _ ▸ hblock) true
      exact iff_of_true ⟨_, _, _, hret⟩ fun h => absurd h hblock
    rw [forall_prop_of_true hblock]
    cases halloc : s.events.alloc with
    | none =>
      have hfree := FreeList.alloc_eq_none.mp halloc
      rw [listenEvent_of_noEvents hclient hblock hfree]
      exact iff_of_false (by simp) fun h => h.1 hfree
    | some r =>
      obtain ⟨a, events⟩ := r
      have hfree := FreeList.ne_nil_of_alloc halloc
      rw [and_iff_right hfree]
      by_cases hadded : o.added = true
      swap
      · rw [listenEvent_of_events hclient hblock halloc, if_pos (Bool.not_eq_true _ ▸ hadded)]
        obtain ⟨ret, m', hret⟩ := endAccept_eq (s.prepared fd a events) m o
        exact iff_of_true ⟨ret, _, m', hret⟩ fun h => absurd h hadded
      rw [forall_prop_of_true hadded, listenEvent_of_added hclient hblock halloc hadded]
      cases hinsert : s.timers.timerInsert fd o.now with
      | none =>
        exact iff_of_false (by simp) fun h => h.1 (Timers.timerInsert_eq_none.mp hinsert)
      | some r =>
        obtain ⟨r, t⟩ := r
        rw [and_iff_right (free_ne_nil_of_timerInsert hinsert)]
        dsimp only
        split_ifs with hpresent
        · obtain ⟨ret, m', hret⟩ := endAccept_eq { s.watched fd a events with timers := t } m o
          exact iff_of_true ⟨ret, _, m', hret⟩ hpresent
        · exact iff_of_false (by simp) hpresent

end Connections

end Lidas
