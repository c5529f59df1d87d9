import Lidas.Event
import Lidas.Lib.Ownership
import Lidas.Lib.Runs
import Mathlib.Logic.Function.Basic
import Mathlib.Tactic.Simps.Basic

/-!
# Backend descriptors

Each `proxy_node` has a queue `fds` of connected descriptors. `post_to_proxy` takes one with
`load_balance` and keeps it in `obj->pfd`, `EVENT_ADD` copies it into a new event object, and
five places give descriptors back: `proxy_sock_wake`, the label `SND_FAIL`, the two branches
of `func_redirect` and `request_destruct`.

A step of the system is one worker, or the listener, moving on to its next call. The node that
`load_balance` finds at the top of the heap, the outcomes of the sends and of `epoll_ctl`, the
addresses `malloc` returns and the workers that `thread_pool_alloc` finds are labels of the
step, and so is the `type` of the event object made at `EVENT_ADD`, which is not set there.

`proxy_mute_post` compares a `size_t` with zero before it waits, so the code never gets to
the assignments of `type` there; the model allows them. `connect_destruct` reads the timer
entry of a backend's descriptor, which has none; the model goes on as if it could be read.
-/

namespace Lidas

namespace Proxy

/-- An event object in memory. `req` numbers the request it was last used for, and `armed` says
that it is registered with `EPOLLIN` and has not been handed to a worker since. -/
structure Object where
  data : EventData
  req : Option ℕ
  armed : Bool

/-- The event object after `F_CON` of `post_to_proxy`, for request `r`, got descriptor `d` of
node `n`. -/
def Object.fCon (o : Object) (r n d : ℕ) : Object :=
  { o with
    data := { o.data with pfd := d, node := some n, type := .proxyWrEvent }
    req := some r }

/-- The new event that `EVENT_ADD` registers, with the `type` that its memory held. -/
def Object.eventAdd (o : Object) (t : EventType) (pfd g : ℕ) : Object :=
  { o with data := { o.data with pfd := pfd, node := some g, type := t }, armed := true }

/-- What a worker is doing with the event object at `p`. `restart` says that `post_to_proxy`
was called from `proxy_to_client`. -/
inductive Task where
  /-- nothing that concerns a backend -/
  | idle
  /-- in `post_to_proxy`, with its variables `pfd` and `g` -/
  | posting (p : ℕ) (restart : Bool) (pfd g : ℕ)
  /-- in `post_to_proxy`, before `goto F_CON` -/
  | retrying (p : ℕ) (restart : Bool)
  /-- in `proxy_to_client` -/
  | responding (p : ℕ)
  /-- in `func_redirect`, back from a `proxy_to_client` that has posted again -/
  | returning (p : ℕ)
  /-- in `re_connect`, for an event `PROXY_RECONNECT` -/
  | reconnecting (d : EventData)
  deriving DecidableEq

/-- The object a worker will give the descriptor of back, as the last thing it does for the
request. -/
def Task.serves : Task → Option ℕ
  | .posting p _ _ _ => some p
  | .retrying p _ => some p
  | .responding p => some p
  | _ => none

structure State where
  /-- the queues of the nodes -/
  fds : ℕ → List ℕ
  /-- the event objects, by address -/
  objects : ℕ → Option Object
  /-- what each worker does -/
  tasks : ℕ → Task
  /-- the requests in progress -/
  inProgress : ℕ → Bool
  /-- the number of requests begun -/
  begun : ℕ

namespace State

variable (s : State)

/-- `queue_in (g->fds, fd)`, which is also `ret_proxy_fd`. -/
@[simps]
def queueIn (n d : ℕ) : State :=
  { s with fds := Function.update s.fds n (s.fds n ++ [d]) }

/-- The descriptor `queue_out` returns, `NULL` for an empty queue. -/
def front (n : ℕ) : ℕ :=
  (s.fds n).headD 0

/-- The queue after `queue_out`. -/
@[simps]
def queueOut (n : ℕ) : State :=
  { s with fds := Function.update s.fds n (s.fds n).tail }

/-- The object at `p` is written, or with `none` freed. -/
@[simps]
def setObject (p : ℕ) (o : Option Object) : State :=
  { s with objects := Function.update s.objects p o }

@[simps]
def setTask (w : ℕ) (t : Task) : State :=
  { s with tasks := Function.update s.tasks w t }

/-- The request is over. -/
@[simps]
def close (r : ℕ) : State :=
  { s with inProgress := Function.update s.inProgress r false }

/-- A request begins. -/
@[simps]
def begin : State :=
  { s with inProgress := Function.update s.inProgress s.begun true, begun := s.begun + 1 }

/-- `SIGHUP` sends a worker back to `RESTART`. -/
def reset : Option ℕ → State
  | none => s
  | some w => s.setTask w .idle

/-- `thread_pool_alloc`: a worker that is free takes the task. `none` is the case that no
thread can be created. -/
def spawn (t : Task) : Option ℕ → Option State
  | none => some s
  | some v => if s.tasks v = .idle then some (s.setTask v t) else none

/-- One round of `F_CON`: `load_balance` takes a descriptor of node `n` for the object `o` at
`p`, which is posted next. -/
def fCon (w p : ℕ) (o : Object) (r n : ℕ) (restart : Bool) : State :=
  ((s.queueOut n).setObject p (some (o.fCon r n (s.front n)))).setTask w
    (.posting p restart (s.front n) n)

end State

/-- What a worker does after `post_to_proxy` has returned. -/
def afterPost (p : ℕ) (restart : Bool) : Task :=
  if restart then .returning p else .idle

/-- `proxy_sock_wake`, without the worker it calls. -/
def proxySockWake (s : State) (o : Object) (n : ℕ) (v : Option ℕ) : Option State :=
  (s.queueIn n o.data.pfd).spawn
    (.reconnecting { fd := o.data.pfd, pfd := 0, type := .proxyReconnect, node := some n }) v

/-- `request_destruct`. The signal of `timer_cleaner` resets the worker `hit`. -/
def requestDestruct (s : State) (p : ℕ) (o : Object) (n : ℕ) (hit : Option ℕ) : State :=
  let s := (s.reset hit).queueIn n o.data.pfd
  let s := match o.req with
    | none => s
    | some r => s.close r
  s.setObject p none

/-- `connect_destruct` on an event of a backend: a worker `v` reconnects the descriptor, another
descriptor is taken, and the object is handed to a worker `u`, since `pthread_kill` with its
arguments exchanged fails. -/
def connectDestruct (s : State) (p : ℕ) (o : Object) (m n : ℕ) (v u hit : Option ℕ) :
    Option State := do
  let s ← s.spawn
    (.reconnecting { fd := o.data.pfd, pfd := 0, type := .proxyReconnect, node := some m }) v
  let d := s.front m
  if d ≠ 0 then
    handOver (s.queueOut m) d
  else
    let d := (s.queueOut m).front n
    let s := (s.queueOut m).queueOut n
    if d = 0 then
      return requestDestruct s p o m hit
    handOver s d
where
  handOver (s : State) (d : ℕ) : Option State :=
    let o := { o with data := { o.data with pfd := d } }
    -- `func_redirect` does nothing for a `PROXY_WREVENT`
    let t := if o.data.type = .proxyRdEvent then .responding p else .idle
    (s.setObject p (some o)).spawn t u

/-- The steps. Workers are `w`, `v`, `u`, addresses of objects `p`, `q`, and nodes `n`. -/
inductive Label where
  /-- `listen_event` -/
  | accept (p fd : ℕ)
  /-- `func_redirect`, `COMMON_RDEVENT`: `post_to_proxy` for the object at `p` -/
  | post (w p n : ℕ)
  /-- a send has failed: `proxy_sock_wake`, with the worker it calls -/
  | sendFails (w : ℕ) (v : Option ℕ)
  /-- `goto F_CON` -/
  | retry (w n : ℕ)
  /-- `EVENT_ADD`, with the object made and the type its memory held -/
  | eventAdd (w q : ℕ) (t : EventType)
  /-- `SND_FAIL` -/
  | sndFail (w : ℕ)
  /-- `rd_event_redirect` on a registered event -/
  | rdEvent (w q : ℕ)
  /-- `thread_event_wait` in `proxy_mute_post` -/
  | eventWait (w : ℕ) (t : EventType)
  /-- `func_redirect`, `PROXY_RDEVENT`: `ret_proxy_fd` after an answer -/
  | respond (w : ℕ)
  /-- `CLEAN` of `proxy_to_client`: `post_to_proxy` once more -/
  | restart (w n : ℕ)
  /-- `func_redirect`, `PROXY_RDEVENT`: `ret_proxy_fd` after such a restart -/
  | retRestart (w : ℕ)
  /-- `func_redirect`, `PROXY_RECONNECT`: `ret_proxy_fd` after `re_connect` -/
  | reconnect (w : ℕ)
  /-- `connect_destruct`, `PROXY_RDEVENT` or `PROXY_WREVENT` -/
  | connectDestruct (p n : ℕ) (v u hit : Option ℕ)
  /-- `connect_destruct`, `COMMON_RDEVENT` or `COMMON_WREVENT` -/
  | requestDestruct (p : ℕ) (hit : Option ℕ)
  deriving DecidableEq

/-- One step, `none` where the label does not fit the state. -/
def step (s : State) : Label → Option State
  | .accept p fd =>
    match s.objects p with
    | some _ => none
    | none =>
      let d := { fd := fd, pfd := 0, type := .commonRdEvent, node := none }
      some (s.setObject p (some { data := d, req := none, armed := false }))
  | .post w p n =>
    match s.tasks w, s.objects p with
    | .idle, some o =>
      -- one request at a time on a connection
      if o.data.type = .commonRdEvent ∧ (o.req.map s.inProgress).getD false = false then
        some (s.begin.fCon w p o s.begun n false)
      else none
    | _, _ => none
  | .sendFails w v =>
    match s.tasks w with
    | .posting p restart _ _ => do
      let o ← s.objects p
      let n ← o.data.node
      proxySockWake (s.setTask w (.retrying p restart)) o n v
    | _ => none
  | .retry w n =>
    match s.tasks w with
    | .retrying p restart => do
      let o ← s.objects p
      let r ← o.req
      return s.fCon w p o r n restart
    | _ => none
  | .eventAdd w q t =>
    match s.tasks w, s.objects q with
    | .posting p restart pfd g, none => do
      let o ← s.objects p
      return (s.setObject q (some (o.eventAdd t pfd g))).setTask w (afterPost p restart)
    | _, _ => none
  | .sndFail w =>
    match s.tasks w with
    | .posting p restart pfd g => do
      let o ← s.objects p
      let r ← o.req
      let s := (s.close r).setTask w (afterPost p restart)
      return if pfd ≠ 0 then s.queueIn g pfd else s
    | _ => none
  | .rdEvent w q =>
    match s.tasks w, s.objects q with
    | .idle, some o =>
      if o.armed = true ∧ o.data.type = .proxyRdEvent then
        some ((s.setObject q (some { o with armed := false })).setTask w (.responding q))
      else none
    | _, _ => none
  | .eventWait w t =>
    match s.tasks w with
    | .responding p => do
      let o ← s.objects p
      if t = .commonWrEvent ∨ t = .proxyRdEvent then
        return s.setObject p (some { o with data := { o.data with type := t } })
      none
    | _ => none
  | .respond w =>
    match s.tasks w with
    | .responding p => do
      let o ← s.objects p
      let n ← o.data.node
      let r ← o.req
      return ((s.close r).setTask w .idle).queueIn n o.data.pfd
    | _ => none
  | .restart w n =>
    match s.tasks w with
    | .responding p => do
      let o ← s.objects p
      let r ← o.req
      return s.fCon w p o r n true
    | _ => none
  | .retRestart w =>
    match s.tasks w with
    | .returning p => do
      let o ← s.objects p
      let n ← o.data.node
      return (s.setTask w .idle).queueIn n o.data.pfd
    | _ => none
  | .reconnect w =>
    match s.tasks w with
    | .reconnecting d => do
      let n ← d.node
      return (s.setTask w .idle).queueIn n d.fd
    | _ => none
  | .connectDestruct p n v u hit => do
    let o ← s.objects p
    let m ← o.data.node
    if o.data.type = .proxyRdEvent ∨ o.data.type = .proxyWrEvent then
      connectDestruct s p o m n v u hit
    else none
  | .requestDestruct p hit => do
    let o ← s.objects p
    let n ← o.data.node
    if o.data.type = .commonRdEvent ∨ o.data.type = .commonWrEvent then
      return requestDestruct s p o n hit
    none

/-! ### What a step can do

One lemma for each label: the task and the objects it needs, and the state it leads to. -/

section Inversion

variable {s s' : State} {w p q n fd : ℕ} {v u hit : Option ℕ} {t : EventType}

/-- An object is made for a new client. -/
theorem eq_of_accept (h : step s (.accept p fd) = some s') :
    s.objects p = none ∧ s' = s.setObject p (some
      { data := { fd := fd, pfd := 0, type := .commonRdEvent, node := none }
        req := none, armed := false }) := by
  simp only [step] at h
  split at h
  · cases h
  · rename_i hp
    exact ⟨hp, (Option.some.inj h).symm⟩

/-- A worker takes up an object whose request is not in progress. -/
theorem exists_of_post (h : step s (.post w p n) = some s') :
    ∃ o, s.tasks w = .idle ∧ s.objects p = some o ∧
      (o.data.type = .commonRdEvent ∧ (o.req.map s.inProgress).getD false = false) ∧
      s' = s.begin.fCon w p o s.begun n false := by
  simp only [step] at h
  split at h
  · rename_i o hw hp
    split_ifs at h with hguard
    exact ⟨o, hw, hp, hguard, (Option.some.inj h).symm⟩
  · cases h

/-- A send that fails goes through `proxy_sock_wake`, and is tried again. -/
theorem exists_of_sendFails (h : step s (.sendFails w v) = some s') :
    ∃ p restart pfd g o n, s.tasks w = .posting p restart pfd g ∧ s.objects p = some o ∧
      o.data.node = some n ∧ proxySockWake (s.setTask w (.retrying p restart)) o n v = some s' := by
  simp only [step] at h
  split at h
  · rename_i p restart pfd g hw
    obtain ⟨o, hp, h⟩ := Option.bind_eq_some_iff.mp h
    obtain ⟨n, hn, h⟩ := Option.bind_eq_some_iff.mp h
    exact ⟨p, restart, pfd, g, o, n, hw, hp, hn, h⟩
  · cases h

/-- The next try goes through `f_con` for the same object. -/
theorem exists_of_retry (h : step s (.retry w n) = some s') :
    ∃ p restart o r, s.tasks w = .retrying p restart ∧ s.objects p = some o ∧ o.req = some r ∧
      s' = s.fCon w p o r n restart := by
  simp only [step] at h
  split at h
  · rename_i p restart hw
    obtain ⟨o, hp, h⟩ := Option.bind_eq_some_iff.mp h
    obtain ⟨r, hr, h⟩ := Option.bind_eq_some_iff.mp h
    exact ⟨p, restart, o, r, hw, hp, hr, (Option.some.inj h).symm⟩
  · cases h

/-- The object added has the descriptor and the node that the worker got. -/
theorem exists_of_eventAdd (h : step s (.eventAdd w q t) = some s') :
    ∃ p restart pfd g o, s.tasks w = .posting p restart pfd g ∧ s.objects q = none ∧
      s.objects p = some o ∧
      s' = (s.setObject q (some (o.eventAdd t pfd g))).setTask w (afterPost p restart) := by
  simp only [step] at h
  split at h
  · rename_i p restart pfd g hw hq
    obtain ⟨o, hp, h⟩ := Option.bind_eq_some_iff.mp h
    exact ⟨p, restart, pfd, g, o, hw, hq, hp, (Option.some.inj h).symm⟩
  · cases h

/-- A send to the client that fails closes the request and puts the descriptor back if there is
one. -/
theorem exists_of_sndFail (h : step s (.sndFail w) = some s') :
    ∃ p restart pfd g o r, s.tasks w = .posting p restart pfd g ∧ s.objects p = some o ∧
      o.req = some r ∧ s' =
        if pfd ≠ 0 then ((s.close r).setTask w (afterPost p restart)).queueIn g pfd
        else (s.close r).setTask w (afterPost p restart) := by
  simp only [step] at h
  split at h
  · rename_i p restart pfd g hw
    obtain ⟨o, hp, h⟩ := Option.bind_eq_some_iff.mp h
    obtain ⟨r, hr, h⟩ := Option.bind_eq_some_iff.mp h
    exact ⟨p, restart, pfd, g, o, r, hw, hp, hr, (Option.some.inj h).symm⟩
  · cases h

/-- The worker that reads a response disarms its object. -/
theorem exists_of_rdEvent (h : step s (.rdEvent w q) = some s') :
    ∃ o, s.tasks w = .idle ∧ s.objects q = some o ∧
      (o.armed = true ∧ o.data.type = .proxyRdEvent) ∧
      s' = (s.setObject q (some { o with armed := false })).setTask w (.responding q) := by
  simp only [step] at h
  split at h
  · rename_i o hw hq
    split_ifs at h with hguard
    exact ⟨o, hw, hq, hguard, (Option.some.inj h).symm⟩
  · cases h

/-- The object waits for another type of event. -/
theorem exists_of_eventWait (h : step s (.eventWait w t) = some s') :
    ∃ p o, s.tasks w = .responding p ∧ s.objects p = some o ∧
      s' = s.setObject p (some { o with data := { o.data with type := t } }) := by
  simp only [step] at h
  split at h
  · rename_i p hw
    obtain ⟨o, hp, h⟩ := Option.bind_eq_some_iff.mp h
    split_ifs at h
    exact ⟨p, o, hw, hp, (Option.some.inj h).symm⟩
  · cases h

/-- At the end of a response the descriptor goes back to its node. -/
theorem exists_of_respond (h : step s (.respond w) = some s') :
    ∃ p o n r, s.tasks w = .responding p ∧ s.objects p = some o ∧ o.data.node = some n ∧
      o.req = some r ∧ s' = ((s.close r).setTask w .idle).queueIn n o.data.pfd := by
  simp only [step] at h
  split at h
  · rename_i p hw
    obtain ⟨o, hp, h⟩ := Option.bind_eq_some_iff.mp h
    obtain ⟨n, hn, h⟩ := Option.bind_eq_some_iff.mp h
    obtain ⟨r, hr, h⟩ := Option.bind_eq_some_iff.mp h
    exact ⟨p, o, n, r, hw, hp, hn, hr, (Option.some.inj h).symm⟩
  · cases h

/-- The request is posted again by the worker that reads the response. -/
theorem exists_of_restart (h : step s (.restart w n) = some s') :
    ∃ p o r, s.tasks w = .responding p ∧ s.objects p = some o ∧ o.req = some r ∧
      s' = s.fCon w p o r n true := by
  simp only [step] at h
  split at h
  · rename_i p hw
    obtain ⟨o, hp, h⟩ := Option.bind_eq_some_iff.mp h
    obtain ⟨r, hr, h⟩ := Option.bind_eq_some_iff.mp h
    exact ⟨p, o, r, hw, hp, hr, (Option.some.inj h).symm⟩
  · cases h

/-- Afterwards it puts the old descriptor back. -/
theorem exists_of_retRestart (h : step s (.retRestart w) = some s') :
    ∃ p o n, s.tasks w = .returning p ∧ s.objects p = some o ∧ o.data.node = some n ∧
      s' = (s.setTask w .idle).queueIn n o.data.pfd := by
  simp only [step] at h
  split at h
  · rename_i p hw
    obtain ⟨o, hp, h⟩ := Option.bind_eq_some_iff.mp h
    obtain ⟨n, hn, h⟩ := Option.bind_eq_some_iff.mp h
    exact ⟨p, o, n, hw, hp, hn, (Option.some.inj h).symm⟩
  · cases h

/-- A descriptor that was connected again goes back to its node. -/
theorem exists_of_reconnect (h : step s (.reconnect w) = some s') :
    ∃ d n, s.tasks w = .reconnecting d ∧ d.node = some n ∧
      s' = (s.setTask w .idle).queueIn n d.fd := by
  simp only [step] at h
  split at h
  · rename_i d hw
    obtain ⟨n, hn, h⟩ := Option.bind_eq_some_iff.mp h
    exact ⟨d, n, hw, hn, (Option.some.inj h).symm⟩
  · cases h

/-- A descriptor that hangs up belongs to an object with a node. -/
theorem exists_of_connectDestruct (h : step s (.connectDestruct p n v u hit) = some s') :
    ∃ o m, s.objects p = some o ∧ o.data.node = some m ∧
      connectDestruct s p o m n v u hit = some s' := by
  simp only [step] at h
  obtain ⟨o, hp, h⟩ := Option.bind_eq_some_iff.mp h
  obtain ⟨m, hm, h⟩ := Option.bind_eq_some_iff.mp h
  split_ifs at h
  exact ⟨o, m, hp, hm, h⟩

/-- So does one whose request is destroyed. -/
theorem exists_of_requestDestruct (h : step s (.requestDestruct p hit) = some s') :
    ∃ o n, s.objects p = some o ∧ o.data.node = some n ∧ s' = requestDestruct s p o n hit := by
  simp only [step] at h
  obtain ⟨o, hp, h⟩ := Option.bind_eq_some_iff.mp h
  obtain ⟨n, hn, h⟩ := Option.bind_eq_some_iff.mp h
  split_ifs at h
  exact ⟨o, n, hp, hn, (Option.some.inj h).symm⟩

end Inversion

end Proxy

end Lidas
