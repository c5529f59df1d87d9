import Lidas.Proxy.Holders

/-!
# The ownership of backend descriptors is exclusive in quiet runs

The ownership is exclusive as long as nobody but the one server of a request gives its
descriptor back. `proxy_sock_wake`, the second `ret_proxy_fd` after a restart, and the
reconnection that `connect_destruct` starts all give back a descriptor that its request goes on
using.
-/

namespace Lidas

namespace Proxy

/-! ### The steps that keep the ownership exclusive -/

/-- The step does not take one of the branches that give a descriptor back too often.
`proxy_sock_wake`, and `ret_proxy_fd` after a restart, do so when there is a descriptor;
`connect_destruct` on a backend's event starts a reconnection of the descriptor its request
has; `request_destruct` does so unless the request is in progress, and nobody goes on with it
afterwards. -/
def Quiet (s : State) : Label → Prop
  | .sendFails w _ => ∀ p restart d n o, s.tasks w = .posting p restart d n →
      s.objects p = some o → o.data.pfd = 0
  | .retRestart w => ∀ p o, s.tasks w = .returning p → s.objects p = some o → o.data.pfd = 0
  | .connectDestruct .. => False
  | .requestDestruct p hit => ∀ o r, s.objects p = some o → o.req = some r →
      (o.data.pfd ≠ 0 → s.inProgress r = true) ∧
        ∀ g, s.Serves r g → (∃ w, hit = some w ∧ g = .worker w) ∨ g = .event p
  | _ => True

/-- The invariant of the runs that take none of these branches. -/
structure Inv (s : State) : Prop where
  exclusive : Exclusive s.Holds
  serving : Serving s

/-! ### One lemma for each kind of step -/

section Steps

variable {s s' : State} {w p : ℕ}

/-- A new client's object has no descriptor of a backend. -/
theorem Inv.accept {fd : ℕ} (h : Inv s) (hstep : step s (.accept p fd) = some s') : Inv s' := by
  obtain ⟨hp, rfl⟩ := eq_of_accept hstep
  have hidle : ∀ v, (s.tasks v).serves ≠ some p := by
    intro v hv
    obtain ⟨o, r, ho, -⟩ := h.serving.task v p hv
    rw [hp] at ho
    simp at ho
  refine ⟨exclusive_setObject h.exclusive ?_, h.serving.setObject ?_ ?_ ?_ ?_ ?_⟩
  · rintro _ r ⟨⟩ ⟨⟩
  · rintro _ r ⟨⟩ ⟨⟩
  · rintro _ ⟨⟩ -
    exact ⟨rfl, rfl⟩
  · intro r g hg
    rcases Serving.serves_of_setObject hg with hg | ⟨_, ⟨⟩, ⟨⟩, -⟩
    exact hg
  · intro v hv
    exact absurd hv (hidle v)
  · intro v restart d n o hv
    exact absurd (by rw [hv]; rfl) (hidle v)

/-- A descriptor taken from its queue is with one worker only. -/
theorem Inv.post {n : ℕ} (h : Inv s) (hstep : step s (.post w p n) = some s') : Inv s' := by
  obtain ⟨o, hw, hp, hguard, rfl⟩ := exists_of_post hstep
  obtain ⟨harmed, hidle⟩ := h.serving.unused hp hguard.2
  constructor
  · refine exclusive_fCon (h.exclusive.mono fun d q hq => ?_)
    rcases q with ⟨m, i⟩ | r
    · exact hq
    · obtain ⟨hd, hr, q, o', hq, hreq, hpfd⟩ := hq
      -- the request that begins is a new one
      have hne : r ≠ s.begun := Nat.ne_of_lt (h.serving.fresh q o' r hq hreq)
      rw [State.begin_inProgress, Function.update_of_ne hne] at hr
      exact ⟨hd, hr, q, o', hq, hreq, hpfd⟩
  · have hserves : ∀ r g, ((s.begin.queueOut n).setObject p
        (some (o.fCon s.begun n (s.begin.front n)))).Serves r g → s.Serves r g := by
      intro r g hg
      rcases Serving.serves_of_setObject hg with hg | ⟨_, ⟨⟩, -, ⟨-, ha⟩ | ⟨v, -, hv⟩⟩
      · exact hg
      · exact absurd ha (by simp [Object.fCon, harmed])
      · exact absurd hv (hidle v)
    -- the object is set up first, then its worker starts to post
    have hobj : Serving ((s.begin.queueOut n).setObject p
        (some (o.fCon s.begun n (s.begin.front n)))) := by
      refine h.serving.begin.queueOut.setObject ?_ ?_ hserves ?_ ?_
      · rintro _ r ⟨⟩ ⟨⟩
        exact Nat.lt_succ_self _
      · rintro _ ⟨⟩ ⟨⟩
      · intro v hv
        exact absurd hv (hidle v)
      · intro v restart d n o hv
        rw [State.queueOut_tasks, State.begin_tasks] at hv
        exact absurd (by rw [hv]; rfl) (hidle v)
    refine hobj.addWorker (r := s.begun) rfl (Function.update_self ..) rfl
      (Function.update_self ..) ?_ ?_
    · rintro q restart d m ⟨⟩
      rfl
    intro g hg
    rcases g with v | q
    · obtain ⟨q, o', -, hq, hreq⟩ := hserves _ _ hg
      exact Nat.lt_irrefl _ (h.serving.fresh q o' _ hq hreq)
    · obtain ⟨o', hq, -, hreq⟩ := hserves _ _ hg
      exact Nat.lt_irrefl _ (h.serving.fresh q o' _ hq hreq)

/-- The rounds of `F_CON` but the first. -/
theorem Inv.fCon {n r : ℕ} {o : Object} {restart : Bool} (h : Inv s)
    (hw : (s.tasks w).serves = some p) (hp : s.objects p = some o) (hr : o.req = some r)
    (hpost : ∀ b d g, s.tasks w ≠ .posting p b d g) : Inv (s.fCon w p o r n restart) := by
  refine ⟨exclusive_fCon h.exclusive, ?_⟩
  have hserves : s.Serves r (.worker w) := ⟨p, o, hw, hp, hr⟩
  have hobj : Serving ((s.queueOut n).setObject p (some (o.fCon r n (s.front n)))) := by
    refine h.serving.queueOut.setObject_same hp hr.symm hr id ?_
    -- no other worker is in `post_to_proxy` with this object
    intro v b d g hv
    rw [State.queueOut_tasks] at hv
    have hv' : s.Serves r (.worker v) := ⟨p, o, by rw [hv]; rfl, hp, hr⟩
    cases h.serving.server r _ _ hv' hserves
    exact absurd hv (hpost b d g)
  refine hobj.setTask ?_ ?_ ?_
  · rintro q ⟨⟩
    exact hw
  · rintro q b d g o' ⟨⟩ hq
    rw [State.setObject_objects, Function.update_self] at hq
    obtain rfl := Option.some.inj hq
    rfl
  · rintro d ⟨⟩

theorem Inv.retry {n : ℕ} (h : Inv s) (hstep : step s (.retry w n) = some s') : Inv s' := by
  obtain ⟨p, restart, o, r, hw, hp, hr, rfl⟩ := exists_of_retry hstep
  exact h.fCon (by rw [hw]; rfl) hp hr (by rw [hw]; rintro b d g ⟨⟩)

theorem Inv.restart {n : ℕ} (h : Inv s) (hstep : step s (.restart w n) = some s') : Inv s' := by
  obtain ⟨p, o, r, hw, hp, hr, rfl⟩ := exists_of_restart hstep
  exact h.fCon (by rw [hw]; rfl) hp hr (by rw [hw]; rintro b d g ⟨⟩)

/-- It gives the descriptor back. -/
theorem Inv.finish {n r : ℕ} {o : Object} {t : Task} (h : Inv s)
    (hw : (s.tasks w).serves = some p) (hp : s.objects p = some o) (hr : o.req = some r)
    (ht : t.serves = none) (hrec : ∀ d, t ≠ .reconnecting d) :
    Inv (((s.setTask w t).close r).queueIn n o.data.pfd) := by
  refine ⟨exclusive_giveBack ?_ fun hd => ?_, (h.serving.finish hw hp hr ht hrec).queueIn⟩
  · rw [holds_setTask]
    exact h.exclusive
  · rw [holds_setTask]
    exact ⟨hd, h.serving.served r (.worker w) ⟨p, o, hw, hp, hr⟩, p, o, hp, hr, rfl⟩

/-- A response that is over puts the descriptor back and closes the request. -/
theorem Inv.respond (h : Inv s) (hstep : step s (.respond w) = some s') : Inv s' := by
  obtain ⟨p, o, n, r, hw, hp, hn, hr, rfl⟩ := exists_of_respond hstep
  exact h.finish (t := .idle) (by rw [hw]; rfl) hp hr rfl (by rintro d ⟨⟩)

theorem serves_afterPost (restart : Bool) : (afterPost p restart).serves = none := by
  cases restart <;> rfl

theorem afterPost_ne_reconnecting (restart : Bool) (d : EventData) :
    afterPost p restart ≠ .reconnecting d := by
  cases restart <;> rintro ⟨⟩

/-- A failed send to the client puts the descriptor back, and the request is closed. -/
theorem Inv.sndFail (h : Inv s) (hstep : step s (.sndFail w) = some s') : Inv s' := by
  obtain ⟨p, restart, pfd, g, o, r, hw, hp, hr, rfl⟩ := exists_of_sndFail hstep
  have hserve : (s.tasks w).serves = some p := by rw [hw]; rfl
  have hnone := serves_afterPost (p := p) restart
  have hrec := afterPost_ne_reconnecting (p := p) restart
  split_ifs with hpfd
  · rw [← h.serving.pfd w p restart pfd g o hw hp]
    exact h.finish hserve hp hr hnone hrec
  · refine ⟨?_, h.serving.finish hserve hp hr hnone hrec⟩
    rw [holds_setTask]
    exact exclusive_close h.exclusive

/-- The descriptor goes from the worker to the object it adds. -/
theorem Inv.eventAdd {q : ℕ} {t : EventType} (h : Inv s)
    (hstep : step s (.eventAdd w q t) = some s') : Inv s' := by
  obtain ⟨p, restart, pfd, g, o, hw, hq, hp, rfl⟩ := exists_of_eventAdd hstep
  have hserve : (s.tasks w).serves = some p := by rw [hw]; rfl
  obtain ⟨o', r, hp', hr⟩ := h.serving.task w p hserve
  obtain rfl : o = o' := Option.some.inj (hp.symm.trans hp')
  have hserves : s.Serves r (.worker w) := ⟨p, o, hserve, hp, hr⟩
  constructor
  · rw [holds_setTask]
    refine exclusive_setObject h.exclusive ?_
    rintro _ r' ⟨⟩ hr' -
    exact ⟨p, o, hp, hr', h.serving.pfd w p restart pfd g o hw hp⟩
  · -- the worker stops serving the request, and the event takes its place
    have hset : Serving (s.setTask w (afterPost p restart)) :=
      h.serving.setTask_done (serves_afterPost restart) fun d hd =>
        absurd hd (afterPost_ne_reconnecting restart d)
    exact hset.addEvent hq hr (h.serving.fresh p o r hp hr) (h.serving.served r _ hserves)
      (h.serving.not_serves_setTask hserves (serves_afterPost restart))

/-- One worker at a time reads from an object. -/
theorem Inv.rdEvent {q : ℕ} (h : Inv s) (hstep : step s (.rdEvent w q) = some s') : Inv s' := by
  obtain ⟨o, hw, hq, hguard, rfl⟩ := exists_of_rdEvent hstep
  obtain ⟨r, hr⟩ : ∃ r, o.req = some r := by
    cases hreq : o.req with
    | none => exact absurd hguard.1 (by rw [(h.serving.bare q o hq hreq).1]; decide)
    | some r => exact ⟨r, rfl⟩
  have hserves : s.Serves r (.event q) := ⟨o, hq, hguard.1, hr⟩
  have hobj : Serving (s.setObject q (some { o with armed := false })) :=
    h.serving.setObject_same hq rfl hr (by rintro ⟨⟩) fun _ _ _ _ _ => rfl
  constructor
  · rw [holds_setTask]
    refine exclusive_setObject h.exclusive ?_
    rintro _ r' ⟨⟩ hr' -
    exact ⟨q, o, hq, hr', rfl⟩
  · -- the event stops serving the request, and the worker takes its place
    refine hobj.addWorker (r := r) rfl (Function.update_self ..) hr
      (h.serving.served r _ hserves) (by rintro _ _ _ _ ⟨⟩) fun g hg => ?_
    rcases Serving.serves_of_setObject hg with hold | ⟨_, ⟨⟩, -, ⟨-, ha⟩ | ⟨v, rfl, hv⟩⟩
    · obtain rfl := h.serving.server r _ _ hold hserves
      obtain ⟨o', ho', harmed, -⟩ := hg
      rw [State.setObject_objects, Function.update_self] at ho'
      obtain rfl := Option.some.inj ho'
      simp at harmed
    · simp at ha
    · have hv' : s.Serves r (.worker v) := ⟨q, o, hv, hq, hr⟩
      cases h.serving.server r _ _ hv' hserves

/-- Waiting again changes only the type. -/
theorem Inv.eventWait {t : EventType} (h : Inv s) (hstep : step s (.eventWait w t) = some s') :
    Inv s' := by
  obtain ⟨p, o, hw, hp, rfl⟩ := exists_of_eventWait hstep
  obtain ⟨o', r, hp', hr⟩ := h.serving.task w p (by rw [hw]; rfl)
  obtain rfl : o = o' := Option.some.inj (hp.symm.trans hp')
  refine ⟨exclusive_setObject h.exclusive ?_,
    h.serving.setObject_same hp rfl hr id fun _ _ _ _ _ => rfl⟩
  rintro _ r' ⟨⟩ hr' -
  exact ⟨p, o, hp, hr', rfl⟩

/-- The number `0` is given back. -/
theorem Inv.queueIn_zero {n : ℕ} (h : Inv s) : Inv (s.queueIn n 0) :=
  ⟨exclusive_queueIn_zero h.exclusive, h.serving.queueIn⟩

/-- A worker goes over to a task that serves no request. -/
theorem Inv.setTask_done {t : Task} (h : Inv s) (ht : t.serves = none)
    (hrec : ∀ d, t = .reconnecting d → d.fd = 0) : Inv (s.setTask w t) := by
  refine ⟨?_, h.serving.setTask_done ht hrec⟩
  rw [holds_setTask]
  exact h.exclusive

/-- After a restart only the descriptor 0 is put back in a quiet step. -/
theorem Inv.retRestart (h : Inv s) (hquiet : Quiet s (.retRestart w))
    (hstep : step s (.retRestart w) = some s') : Inv s' := by
  obtain ⟨p, o, n, hw, hp, hn, rfl⟩ := exists_of_retRestart hstep
  rw [hquiet p o hw hp]
  exact (h.setTask_done rfl (by rintro d ⟨⟩)).queueIn_zero

/-- In quiet runs a worker reconnects no descriptor but 0. -/
theorem Inv.reconnect (h : Inv s) (hstep : step s (.reconnect w) = some s') : Inv s' := by
  obtain ⟨d, n, hw, hn, rfl⟩ := exists_of_reconnect hstep
  rw [h.serving.reconnects w d hw]
  exact (h.setTask_done rfl (by rintro d ⟨⟩)).queueIn_zero

/-- A send may fail for an object that has no descriptor. -/
theorem Inv.sendFails {v : Option ℕ} (h : Inv s) (hquiet : Quiet s (.sendFails w v))
    (hstep : step s (.sendFails w v) = some s') : Inv s' := by
  obtain ⟨p, restart, pfd, g, o, n, hw, hp, hn, hstep⟩ := exists_of_sendFails hstep
  rw [proxySockWake, hquiet p restart pfd g o hw hp] at hstep
  have hset : Inv (s.setTask w (.retrying p restart)) := by
    refine ⟨?_, h.serving.setTask ?_ (by rintro q b d m o' ⟨⟩) (by rintro d ⟨⟩)⟩
    · rw [holds_setTask]
      exact h.exclusive
    · rintro q ⟨⟩
      rw [hw]
      rfl
  rcases v with _ | v
  · obtain rfl := Option.some.inj hstep
    exact hset.queueIn_zero
  · rw [State.spawn] at hstep
    split_ifs at hstep
    obtain rfl := Option.some.inj hstep
    exact hset.queueIn_zero.setTask_done rfl (by rintro d ⟨⟩; rfl)

/-- A request that is destroyed puts its descriptor back while it is in progress, and nobody goes on
with it. -/
theorem Inv.requestDestruct {hit : Option ℕ} (h : Inv s) (hquiet : Quiet s (.requestDestruct p hit))
    (hstep : step s (.requestDestruct p hit) = some s') : Inv s' := by
  obtain ⟨o, n, hp, hn, rfl⟩ := exists_of_requestDestruct hstep
  obtain ⟨r, hr⟩ : ∃ r, o.req = some r := by
    cases hreq : o.req with
    | none =>
      rw [(h.serving.bare p o hp hreq).2] at hn
      simp at hn
    | some r => exact ⟨r, rfl⟩
  obtain ⟨hpfd, hservers⟩ := hquiet o r hp hr
  -- nobody serves the request once its worker is reset and its object is freed
  have hreset : Serving (s.reset hit) := h.serving.reset
  have hgone : ∀ v, (((s.reset hit).tasks v).serves ≠ some p) := by
    intro v hv
    obtain ⟨hne, hv⟩ := Serving.serves_reset hv
    rcases hservers (.worker v) ⟨p, o, hv, hp, hr⟩ with ⟨w, rfl, hvw⟩ | hvp
    · cases hvw
      exact hne rfl
    · cases hvp
  have hfree : Serving ((s.reset hit).setObject p none) := by
    refine hreset.setObject (by rintro _ _ ⟨⟩) (by rintro _ ⟨⟩) ?_ ?_ (by rintro _ _ _ _ _ - ⟨⟩)
    · intro r' g hg
      rcases Serving.serves_of_setObject hg with hg | ⟨_, ⟨⟩, -⟩
      exact hg
    · intro v hv
      exact absurd hv (hgone v)
  have hnone := Serving.not_serves_destructed hservers
  constructor
  · rw [requestDestruct, hr]
    refine exclusive_setObject ?_ (by rintro _ _ ⟨⟩)
    have hback : Exclusive (((s.reset hit).close r).queueIn n o.data.pfd).Holds := by
      refine exclusive_giveBack ?_ fun hd => ?_
      · rw [holds_reset]
        exact h.exclusive
      · rw [holds_reset]
        exact ⟨hd, hpfd hd, p, o, hp, hr, rfl⟩
    exact hback
  · rw [requestDestruct, hr]
    exact (hfree.close hnone).queueIn

/-- Every quiet step keeps the invariant. -/
theorem Inv.step {a : Label} (h : Inv s) (hquiet : Quiet s a) (hstep : step s a = some s') :
    Inv s' := by
  cases a with
  | accept p fd => exact h.accept hstep
  | post w p n => exact h.post hstep
  | sendFails w v => exact h.sendFails hquiet hstep
  | retry w n => exact h.retry hstep
  | eventAdd w q t => exact h.eventAdd hstep
  | sndFail w => exact h.sndFail hstep
  | rdEvent w q => exact h.rdEvent hstep
  | eventWait w t => exact h.eventWait hstep
  | respond w => exact h.respond hstep
  | restart w n => exact h.restart hstep
  | retRestart w => exact h.retRestart hquiet hstep
  | reconnect w => exact h.reconnect hstep
  | connectDestruct p n v u hit => exact hquiet.elim
  | requestDestruct p hit => exact h.requestDestruct hquiet hstep

end Steps

/-! ### Runs -/

/-- The queues after `proxy_init`, with all descriptors distinct. -/
structure Start where
  fds : ℕ → List ℕ
  distinct : ∀ n m i j d : ℕ, (fds n)[i]? = some d → (fds m)[j]? = some d → n = m ∧ i = j

namespace Start

/-- The state before any request. -/
def state (i : Start) : State where
  fds := i.fds
  objects := fun _ => none
  tasks := fun _ => .idle
  inProgress := fun _ => false
  begun := 0

/-- At the start each descriptor is in one queue, once. -/
theorem inv_state (i : Start) : Inv i.state := by
  constructor
  · rintro d (⟨n, j⟩ | r) (⟨m, k⟩ | r') hq hq'
    · obtain ⟨rfl, rfl⟩ := i.distinct n m j k d hq.2 hq'.2
      rfl
    · cases hq'.2.1
    · cases hq.2.1
    · cases hq.2.1
  · have hnone : ∀ r g, ¬ i.state.Serves r g := by
      rintro r (w | q) ⟨_, h⟩
      · obtain ⟨_, hw, -⟩ := h
        cases hw
      · cases h.1
    constructor
    · intro r g g' hg
      exact absurd hg (hnone r g)
    · intro r g hg
      exact absurd hg (hnone r g)
    · rintro w p ⟨⟩
    · rintro p o r ⟨⟩
    · rintro p o ⟨⟩
    · rintro w p b d n o ⟨⟩
    · rintro w d ⟨⟩

/-- **Exclusive ownership.** Along every run whose steps are quiet, no backend's descriptor is
in two slots of the queues, in a slot and with a request in progress, or with two requests in
progress. -/
theorem exclusive_of_quiet (i : Start) (as : List Label)
    (h : Runs.Meets step Quiet i.state as) :
    Runs.Holds step (fun s => Exclusive s.Holds) i.state as := by
  have hinv : Runs.Holds step Inv i.state as :=
    Runs.holds_of_meets (fun _ _ _ hs hquiet hstep => hs.step hquiet hstep) i.inv_state h
  exact hinv.mono fun s hs => hs.exclusive

/-- One node with one connection. -/
def oneNode : Start where
  fds := fun n => if n = 0 then [5] else []
  distinct := by
    intro n m i j d hi hj
    split_ifs at hi hj with hn hm
    · rw [hn, hm]
      rw [List.getElem?_singleton] at hi hj
      split_ifs at hi hj with hi0 hj0
      exact ⟨rfl, by rw [hi0, hj0]⟩
    · simp at hj
    · simp at hi
    · simp at hi

/-- A request that is answered. -/
theorem exclusive_oneNode_answered :
    Runs.Holds step (fun s => Exclusive s.Holds) oneNode.state
      [.accept 0 7, .post 0 0 0, .eventAdd 0 1 .proxyRdEvent, .rdEvent 1 1, .respond 1] :=
  exclusive_of_quiet oneNode _ fun _ _ => ⟨trivial, fun _ _ => ⟨trivial, fun _ _ => ⟨trivial,
    fun _ _ => ⟨trivial, fun _ _ => ⟨trivial, trivial⟩⟩⟩⟩⟩

/-- A send fails and the descriptor goes back to the queue; the same request takes it once more;
the worker that `proxy_sock_wake` called gives it back again, and a second request takes it. -/
theorem not_exclusive_sendFails :
    ¬ ∀ (i : Start) (as : List Label),
      Runs.Holds step (fun s => Exclusive s.Holds) i.state as := by
  intro h
  obtain ⟨s, hs, h₀, h₁⟩ : ∃ s, Runs.exec step oneNode.state
      [.accept 0 7, .accept 1 8, .post 0 0 0, .sendFails 0 (some 1), .retry 0 0, .reconnect 1,
        .post 2 1 0] = some s ∧ s.Holds 5 (.request 0) ∧ s.Holds 5 (.request 1) :=
    ⟨_, rfl, ⟨by decide, rfl, 0, _, rfl, rfl, rfl⟩, ⟨by decide, rfl, 1, _, rfl, rfl, rfl⟩⟩
  cases (h oneNode _).last hs 5 _ _ h₀ h₁

end Start

end Proxy

end Lidas
