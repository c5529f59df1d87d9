import Lidas.Listener.Timers
import Lidas.Worker.Pool
import Mathlib.Tactic.Simps.Basic

/-!
# The connections of a listener process

`listen_event` gives a connection an event object from `event_data_pool`, registers it with
`epoll`, and calls `timer_insert`. What `epoll` reports is dispatched by the kind of event and the
`type` of the object it was registered with, and many of these paths look up
`timer_data_lst` for a descriptor. `request_destruct` cleans the timer of a descriptor, and gives
the object back afterwards. The workers have objects meanwhile: `post_to_proxy` writes the backend
into one, and `EVENT_ADD` makes a second object in the memory pool of the connection and registers
it for the backend's descriptor. `timer_cleaner` resets the worker of the connection.

A step is one call in the main thread, in a worker, or in the manager thread, whose `timer_task`
takes one timer a step. Using `NULL`, or an entry of the table that is not there, ends the process
(`alive`). There is one exception: `timer_insert` calls `mem_pool_creat`, which uses the entry
that is only set afterwards; a step of the label `through` goes on as if it could.

A client's descriptor is never closed, so `accept` returns another one each time; `0` is the log
file's. Memory that was given back may hold anything. Left out are the threads of the pool (an
object is `given` to a worker, or not) and the queues of the backends. Only `write_to_stream` comes
to `thread_event_wait`, at the end of the stream, as the other loops keep the result of `read` and
`write` in a `size_t`; its `EPOLL_CTL_MOD` is a step `modify`.
-/

namespace Lidas

namespace Connections

/-- The address of an event object: a block of `event_data_pool`, or in the memory pool of a
connection. -/
inductive Addr where
  | cached (i : ℕ)
  | pooled (k : ℕ)
  deriving DecidableEq

/-- The settings of a process, and what it has before its first round. The cache of timers is taken
with blocks of `sizeof (struct timer_t)`, where the source asks for `sizeof (timer_t)`. -/
structure Config where
  /-- `true_type.connect` -/
  connect : ℕ
  /-- `true_type.keep_alive` -/
  keepAlive : ℕ+
  /-- the descriptors of the backends -/
  backends : Finset ℕ
  /-- the address of the head of the cache of timers -/
  head : ℕ
  /-- the address behind its last block -/
  last : ℕ
  /-- the addresses of its blocks -/
  blocks : List ℕ
  length_blocks : blocks.length = 2 * connect
  nodup_blocks : blocks.Nodup
  blocks_ne_null : 0 ∉ blocks

/-- No client has the descriptor: it is a backend's, or the log file's. -/
def Config.NoClient (c : Config) (fd : ℕ) : Prop := fd = 0 ∨ fd ∈ c.backends

instance (c : Config) (fd : ℕ) : Decidable (c.NoClient fd) := inferInstanceAs (Decidable (_ ∨ _))

structure State where
  timers : Timers
  /-- `event_data_pool` -/
  events : FreeList Addr
  object : Addr → EventData
  /-- the object registered for a descriptor -/
  epoll : ℕ → Option Addr
  /-- the objects that workers have -/
  given : Addr → Bool
  /-- the object of `request_destruct`, after `timer_cleaner` -/
  destructing : Option Addr
  /-- the descriptors that `accept` has returned -/
  opened : Finset ℕ
  /-- the number of objects made in memory pools -/
  made : ℕ
  /-- the connection in whose memory pool an object was made -/
  home : ℕ → ℕ
  /-- `listen_del_flag` -/
  delFlag : Bool
  alive : Bool

/-- What has become of the `thread_id` of a timer: the thread gets `SIGCONT`, `pthread_kill`
fails, or there is none. -/
inductive Handler where
  | blocked
  | lost
  | absent
  deriving DecidableEq

inductive Label where
  /-- `listen_event`, at the time `now`. `added` says that the connection could be registered. -/
  | accept (fd : ℕ) (added through : Bool) (now : ℤ)
  /-- `connect_destruct` for an event of `x`, with the backend it finds, if it looks for one -/
  | hupEvent (x : ℕ) (backend : Option ℕ)
  /-- `rd_event_redirect` -/
  | rdEvent (x : ℕ) (handler : Handler)
  /-- `out_event_redirect` -/
  | outEvent (x : ℕ)
  /-- `request_destruct` from behind `timer_cleaner` -/
  | destructRest
  /-- `timer_task`, for one timer -/
  | timerTask (now : ℤ)
  /-- `listener_kill` -/
  | kill
  /-- `F_CON` of `post_to_proxy` -/
  | post (a : Addr) (pfd node : ℕ)
  /-- `EVENT_ADD` of `post_to_proxy`, with its variables `pfd` and `g`; `t` is what the new object
  has for a `type` -/
  | eventAdd (a : Addr) (pfd g : ℕ) (t : EventType)
  /-- a worker sets the `type` -/
  | setType (a : Addr) (t : EventType)
  /-- a worker calls `mem_pool_alloc` or `err_log` -/
  | memPoolAlloc (a : Addr)
  /-- `EPOLL_CTL_MOD` at the end of a request -/
  | modify (a : Addr)
  /-- `EPOLL_CTL_DEL` after the answer of a backend -/
  | unregister (a : Addr)
  /-- a worker is done -/
  | finish (a : Addr)
  /-- memory that was given back is written to -/
  | reuse (a : Addr) (e : EventData)

/-! ### Dispatching events -/

/-- What is to be done about an event. -/
inductive Act where
  | nothing
  | crash
  /-- `request_destruct (fd, ...)` -/
  | destruct (fd : ℕ)
  /-- `thread_pool_alloc`, and `EPOLL_CTL_MOD` for `fd` -/
  | give (fd : ℕ)
  /-- `obj->pfd = pfd`, and `thread_pool_alloc` -/
  | reassign (pfd : ℕ)
  deriving DecidableEq

/-- `connect_destruct`: the entries of `timer_data_lst` it uses, and what it does. `pthread_kill`
fails, as its arguments are exchanged. -/
def connectDestruct (e : EventData) (backend : Option ℕ) : List ℕ × Act :=
  match e.type with
  | .commonRdEvent | .commonWrEvent => ([e.fd], .destruct e.fd)
  | .proxyRdEvent | .proxyWrEvent =>
    match e.node, backend with
    | none, _ => ([], .crash)
    | some _, none => ([e.fd, e.pfd], .destruct e.pfd)
    | some _, some pfd => ([pfd, e.fd], .reassign pfd)
  | .listenEvent | .proxyReconnect => ([], .nothing)

/-- `rd_event_redirect`, but for the master socket. -/
def rdEventRedirect (e : EventData) (handler : Handler) : List ℕ × Act :=
  match Worker.rdFd e with
  | none => ([], .nothing)
  | some fd =>
    match handler with
    | .blocked => ([fd], .nothing)
    | .lost => ([fd, e.fd], .give fd)
    | .absent => ([fd], .give fd)

/-- `out_event_redirect`. `pthread_kill` fails, as its arguments are exchanged. -/
def outEventRedirect (e : EventData) : List ℕ × Act :=
  match Worker.outFd e with
  | none => ([], .nothing)
  | some fd => ([fd, e.fd], .destruct fd)

namespace State

variable (c : Config) (s : State)

/-- The object an event is about, and how the event is dispatched. -/
def dispatch : Label → Option (Addr × List ℕ × Act)
  | .hupEvent x backend => (s.epoll x).map fun a => (a, connectDestruct (s.object a) backend)
  | .rdEvent x handler => (s.epoll x).map fun a => (a, rdEventRedirect (s.object a) handler)
  | .outEvent x => (s.epoll x).map fun a => (a, outEventRedirect (s.object a))
  | _ => none

/-- The table has an entry for `x`. -/
def Present (x : ℕ) : Prop := x < 2 * c.connect ∧ s.timers.table x ≠ none

instance (x : ℕ) : Decidable (s.Present c x) := inferInstanceAs (Decidable (_ ∧ _))

/-- The label is of a connection that comes to `mem_pool_creat` in `timer_insert`. -/
def Inserts : Label → Prop
  | .accept _ added _ _ => added = true ∧ s.events.free ≠ [] ∧ s.timers.pool.free ≠ []
  | _ => False

instance (l : Label) : Decidable (s.Inserts l) := by
  cases l <;> unfold Inserts <;> infer_instance

/-- `timer_task` takes a timer that has run out. -/
def Expires (now : ℤ) : Prop :=
  s.timers.queue.queueOut.1 ≠ 0 ∧ s.timers.Expired c.keepAlive now

instance (now : ℤ) : Decidable (s.Expires c now) := inferInstanceAs (Decidable (_ ∧ _))

/-- The descriptor of the timer that `timer_task` takes. -/
def sweptFd : ℕ := (s.timers.timer s.timers.queue.queueOut.1).fd

/-- The indices at which a step uses an entry of `timer_data_lst`. -/
def derefs (l : Label) : List ℕ :=
  match l with
  | .accept fd _ _ _ => if s.Inserts l then [fd] else []
  | .timerTask now => if s.Expires c now then [s.sweptFd] else []
  | .eventAdd a _ _ _ => [(s.object a).fd]
  | .memPoolAlloc a => [(s.object a).fd]
  | _ => ((s.dispatch l).map fun d => d.2.1).getD []

/-- The process ends. -/
def crash : State := { s with alive := false }

@[simps]
def setObject (a : Addr) (e : EventData) : State :=
  { s with object := Function.update s.object a e }

/-- A worker is given an object, or with `false` has done with it. -/
@[simps]
def setGiven (a : Addr) (given : Bool) : State :=
  { s with given := Function.update s.given a given }

/-- `EPOLL_CTL_MOD`, which fails for a descriptor that is not registered. -/
def epollMod (fd : ℕ) (a : Addr) : State :=
  { s with epoll := if s.epoll fd = none then s.epoll else Function.update s.epoll fd (some a) }

/-- `EPOLL_CTL_ADD`, which fails for a descriptor that is registered. -/
def epollAdd (fd : ℕ) (a : Addr) : State :=
  { s with epoll := if s.epoll fd = none then Function.update s.epoll fd (some a) else s.epoll }

/-- `EPOLL_CTL_DEL`. -/
@[simps]
def epollDel (fd : ℕ) : State := { s with epoll := Function.update s.epoll fd none }

/-- The worker of a connection is reset. -/
@[simps]
def reset (fd : ℕ) : State :=
  { s with given := fun a => s.given a && decide ((s.object a).fd ≠ fd) }

/-- What `timer_cleaner` does besides: the descriptors are removed from the epoll set, and the
worker of the connection is reset. -/
def forget (fd pfd : ℕ) : State :=
  if pfd = 0 then (s.epollDel fd).reset fd else ((s.epollDel pfd).epollDel fd).reset fd

/-- `timer_cleaner`. -/
def timerCleaner (fd : ℕ) : State :=
  match s.timers.table fd, s.timers.timerCleaner fd with
  | some p, some t => forget { s with timers := t } fd (s.timers.timer p).pfd
  | _, _ => s.crash

/-- `listen_event`, from behind `accept`. -/
def listenEvent (fd : ℕ) (added through : Bool) (now : ℤ) : State :=
  match s.events.alloc with
  | none => s.crash
  | some (a, events) =>
    let s' := setObject { s with opened := insert fd s.opened, events := events } a
      { fd := fd, pfd := 0, type := .commonRdEvent, node := none }
    if added = false then s'
    else
      match s.timers.timerInsert fd now with
      | none => s.crash
      | some (_, t) =>
        if through = true ∧ fd < 2 * c.connect then epollAdd { s' with timers := t } fd a
        else s.crash

/-- An event of the object at `a` is dispatched. -/
def act (a : Addr) : Act → State
  | .nothing => s
  | .crash => s.crash
  | .destruct fd => { s.timerCleaner fd with destructing := some a }
  | .give fd => (s.setGiven a true).epollMod fd a
  | .reassign pfd => (s.setGiven a true).setObject a { s.object a with pfd := pfd }

/-- The entries that are used have to be there. -/
def handle (a : Addr) (derefs : List ℕ) (act : Act) : State :=
  if ∀ x ∈ derefs, s.Present c x then s.act a act else s.crash

/-- An event that `epoll_wait` reports. -/
def event (l : Label) : Option State :=
  if s.destructing = none then (s.dispatch l).map fun d => s.handle c d.1 d.2.1 d.2.2 else none

/-- `timer_task`, for one timer. It exits after the last one if `listener_kill` has run. -/
def timerTask (now : ℤ) : State :=
  match s.timers.timerTask c.keepAlive now with
  | none => s.crash
  | some t =>
    if s.Expires c now then
      let s' := forget { s with timers := t } s.sweptFd
        (s.timers.timer ((s.timers.table s.sweptFd).getD 0)).pfd
      if t.queue.head = t.queue.tail ∧ s.delFlag = true then s'.crash else s'
    else { s with timers := t }

/-- The object was given back, or it is in a memory pool that was destroyed. -/
def Stale : Addr → Prop
  | .cached i => .cached i ∈ s.events.free
  | .pooled k => .pooled k ∈ s.events.free ∨ k < s.made ∧ s.timers.table (s.home k) = none

instance (a : Addr) : Decidable (s.Stale a) := by
  cases a <;> unfold Stale <;> infer_instance

/-- One step of a process that has not ended. -/
def next : Label → Option State
  | .accept fd added through now =>
    if s.destructing = none ∧ fd ∉ s.opened ∧ ¬c.NoClient fd then
      some (s.listenEvent c fd added through now)
    else none
  | .hupEvent x backend =>
    if ∀ pfd ∈ backend, pfd ∈ c.backends then s.event c (.hupEvent x backend) else none
  | .rdEvent x handler => s.event c (.rdEvent x handler)
  | .outEvent x => s.event c (.outEvent x)
  | .destructRest =>
    s.destructing.map fun a =>
      -- the descriptor is given back to `obj->node`
      if (s.object a).node = none then s.crash
      else { s with events := s.events.release a, destructing := none }
  | .timerTask now => some (s.timerTask c now)
  | .kill => some { s with delFlag := true }
  | .post a pfd node =>
    if s.given a = true ∧ c.NoClient pfd then
      some (s.setObject a { s.object a with pfd := pfd, node := some node, type := .proxyWrEvent })
    else none
  | .eventAdd a pfd g t =>
    if s.given a = true ∧ c.NoClient pfd then
      if s.Present c (s.object a).fd then
        some { (s.setObject (.pooled s.made)
            { fd := (s.object a).fd, pfd := pfd, type := t, node := some g }).epollAdd
            pfd (.pooled s.made) with
          home := Function.update s.home s.made (s.object a).fd
          made := s.made + 1 }
      else some s.crash
    else none
  | .setType a t =>
    if s.given a = true then some (s.setObject a { s.object a with type := t }) else none
  | .memPoolAlloc a =>
    if s.given a = true then some (if s.Present c (s.object a).fd then s else s.crash) else none
  | .modify a =>
    if s.given a = true then some (s.epollMod (s.object a).fd a) else none
  | .unregister a => if s.given a = true then some (s.epollDel (s.object a).pfd) else none
  | .finish a => if s.given a = true then some (s.setGiven a false) else none
  | .reuse a e => if s.Stale a then some (s.setObject a e) else none

end State

/-- One step, `none` where the label does not fit the state. -/
def step (c : Config) (s : State) (l : Label) : Option State :=
  if s.alive = true then s.next c l else none

/-- Before the first round. -/
def start (c : Config) : State where
  timers :=
    { pool := { free := c.blocks, out := ∅ }
      head := c.head
      last := c.last
      timer := fun _ => { fd := 0, pfd := 0, time := 0 }
      table := fun _ => none
      queue := LidaQueue.queueInit (2 * c.keepAlive) (Nat.mul_pos Nat.two_pos c.keepAlive.pos) }
  events := { free := (List.range c.connect).map .cached, out := ∅ }
  object := fun _ => { fd := 0, pfd := 0, type := .proxyReconnect, node := none }
  epoll := fun _ => none
  given := fun _ => false
  destructing := none
  opened := ∅
  made := 0
  home := fun _ => 0
  delFlag := false
  alive := true

/-- Room for four connections, and a queue of three timers. -/
def smallConfig : Config where
  connect := 4
  keepAlive := 2
  backends := {5}
  head := 4096
  last := 4496
  blocks := [4112, 4160, 4208, 4256, 4304, 4352, 4400, 4448]
  length_blocks := rfl
  nodup_blocks := by decide
  blocks_ne_null := by decide

end Connections

end Lidas
