import Lidas.Proxy.Descriptors

/-!
# Who holds a descriptor, and who serves a request

A descriptor is held by each slot of a queue it stands in and by each request in progress with
an event object that has it in `pfd`. (The object of the client and its copy from `EVENT_ADD`
belong to one request and count once.) A request is served by the worker, or the registered
event, that will go on with it and give its descriptor back.

The lemmas of the first part say how the holders change when a descriptor is moved, those of the
second how the servers do.
-/

namespace Lidas

namespace Proxy

/-- A place that can hold a descriptor: the slot `i` of the queue of node `n`, or a request. -/
inductive Place where
  | slot (n i : ℕ)
  | request (r : ℕ)
  deriving DecidableEq

/-- One that will go on with a request and give its descriptor back: a worker, or a registered
event that no worker has yet. -/
inductive Server where
  | worker (w : ℕ)
  | event (q : ℕ)
  deriving DecidableEq

namespace State

/-- The place holds the descriptor `d`. The number `0` is no backend's descriptor. -/
def Holds (s : State) (d : ℕ) : Place → Prop
  | .slot n i => d ≠ 0 ∧ (s.fds n)[i]? = some d
  | .request r => d ≠ 0 ∧ s.inProgress r = true ∧
      ∃ p o, s.objects p = some o ∧ o.req = some r ∧ o.data.pfd = d

/-- The request `r` is served by a worker or a registered event. -/
def Serves (s : State) (r : ℕ) : Server → Prop
  | .worker w => ∃ p o, (s.tasks w).serves = some p ∧ s.objects p = some o ∧ o.req = some r
  | .event q => ∃ o, s.objects q = some o ∧ o.armed = true ∧ o.req = some r

end State

/-! ### Moving a descriptor -/

section Moves

variable {s : State}

@[simp] theorem holds_setTask (w : ℕ) (t : Task) : (s.setTask w t).Holds = s.Holds := by
  funext d q
  cases q <;> rfl

@[simp] theorem holds_reset (hit : Option ℕ) : (s.reset hit).Holds = s.Holds := by
  cases hit with
  | none => rfl
  | some w => exact holds_setTask w .idle

@[simp] theorem reset_objects (hit : Option ℕ) : (s.reset hit).objects = s.objects := by
  cases hit <;> rfl

theorem exclusive_setObject {p : ℕ} {o : Option Object} (h : Exclusive s.Holds)
    (ho : ∀ o' r, o = some o' → o'.req = some r → o'.data.pfd ≠ 0 →
      ∃ q o'', s.objects q = some o'' ∧ o''.req = some r ∧ o''.data.pfd = o'.data.pfd) :
    Exclusive (s.setObject p o).Holds := by
  refine h.mono fun d q hq => ?_
  rcases q with ⟨n, i⟩ | r
  · exact hq
  · obtain ⟨hd, hr, q, o', ho', hreq, rfl⟩ := hq
    refine ⟨hd, hr, ?_⟩
    rw [State.setObject_objects, Function.update_apply] at ho'
    split_ifs at ho' with hqp
    · exact ho o' r ho' hreq hd
    · exact ⟨q, o', ho', hreq, rfl⟩

/-- `load_balance` moves a descriptor from the queue to the request. -/
theorem exclusive_fCon {w p r n : ℕ} {o : Object} {restart : Bool} (h : Exclusive s.Holds) :
    Exclusive (s.fCon w p o r n restart).Holds := by
  refine h.of_trace (fun d q => match q with
    | .slot m i => if m = n then .slot m (i + 1) else .slot m i
    | .request r' => if r' = r ∧ d = s.front n then .slot n 0 else .request r') ?_ ?_
  · rintro d (⟨m, i⟩ | r') hq
    · obtain ⟨hd, hi⟩ := hq
      simp only [State.fCon, State.setTask_fds, State.setObject_fds, State.queueOut_fds,
        Function.update_apply] at hi
      dsimp only
      split_ifs at hi ⊢ with hm
      · exact ⟨hd, by rw [hm, ← List.getElem?_tail, hi]⟩
      · exact ⟨hd, hi⟩
    · obtain ⟨hd, hr', p', o', ho', hreq, hpfd⟩ := hq
      simp only [State.fCon, State.setTask_objects, State.setObject_objects,
        State.queueOut_objects, Function.update_apply] at ho'
      dsimp only
      split_ifs with hfront
      · refine ⟨hd, ?_⟩
        rw [hfront.2, State.front] at hd ⊢
        cases hl : s.fds n with
        | nil => simp [hl] at hd
        | cons x l => rfl
      · refine ⟨hd, hr', ?_⟩
        split_ifs at ho' with hp'
        · obtain rfl := Option.some.inj ho'
          exact absurd ⟨(Option.some.inj hreq).symm, hpfd.symm⟩ hfront
        · exact ⟨p', o', ho', hreq, hpfd⟩
  · rintro d (⟨m, i⟩ | r₁) (⟨m', i'⟩ | r₂) hq₁ hq₂ hf <;> dsimp only at hf <;> split_ifs at hf <;>
      simp_all

/-- The slots after `queue_in`. -/
theorem queueIn_slot {n d₀ m i d : ℕ} : ((s.queueIn n d₀).fds m)[i]? = some d ↔
    (s.fds m)[i]? = some d ∨ (m = n ∧ i = (s.fds n).length ∧ d = d₀) := by
  rw [State.queueIn_fds, Function.update_apply]
  split_ifs with hm
  · subst hm
    rcases Nat.lt_trichotomy i (s.fds m).length with hlt | rfl | hgt
    · rw [List.getElem?_append_left hlt]
      simp [Nat.ne_of_lt hlt]
    · simp [eq_comm]
    · rw [List.getElem?_eq_none (by simp; omega), List.getElem?_eq_none (by omega)]
      simp [Nat.ne_of_gt hgt]
  · simp [hm]

theorem exclusive_close {r : ℕ} (h : Exclusive s.Holds) : Exclusive (s.close r).Holds := by
  refine h.mono fun d q hq => ?_
  rcases q with ⟨n, i⟩ | r'
  · exact hq
  · obtain ⟨hd, hr', hobj⟩ := hq
    simp only [State.close_inProgress, Function.update_apply] at hr'
    split_ifs at hr'
    exact ⟨hd, hr', hobj⟩

/-- A request gives its descriptor back when it is over. -/
theorem exclusive_giveBack {n d₀ r : ℕ} (h : Exclusive s.Holds)
    (hd₀ : d₀ ≠ 0 → s.Holds d₀ (.request r)) :
    Exclusive ((s.close r).queueIn n d₀).Holds := by
  refine h.of_trace (fun _ q => match q with
    | .slot m i => if m = n ∧ i = (s.fds n).length then .request r else .slot m i
    | .request r' => .request r') ?_ ?_
  · rintro d (⟨m, i⟩ | r') hq
    · obtain ⟨hd, hi⟩ := hq
      dsimp only
      rcases queueIn_slot.mp hi with hi | ⟨rfl, rfl, rfl⟩
      · have hlt : i < (s.fds m).length := (List.getElem?_eq_some_iff.mp hi).1
        rw [if_neg (by rintro ⟨rfl, rfl⟩; exact Nat.lt_irrefl _ hlt)]
        exact ⟨hd, hi⟩
      · rw [if_pos ⟨rfl, rfl⟩]
        exact hd₀ hd
    · obtain ⟨hd, hr', hobj⟩ := hq
      simp only [State.queueIn_inProgress, State.close_inProgress, Function.update_apply] at hr'
      split_ifs at hr'
      exact ⟨hd, hr', hobj⟩
  · -- the request is closed, so the new slot holds in its place
    have hclosed : ∀ d, ¬ ((s.close r).queueIn n d₀).Holds d (.request r) := by
      rintro d ⟨-, hr, -⟩
      simp at hr
    rintro d (⟨m, i⟩ | r₁) (⟨m', i'⟩ | r₂) hq₁ hq₂ hf
    · dsimp only at hf
      split_ifs at hf with h₁ h₂
      · rw [h₁.1, h₁.2, h₂.1, h₂.2]
      · exact hf
    · dsimp only at hf
      split_ifs at hf
      rw [← hf] at hq₂
      exact absurd hq₂ (hclosed d)
    · dsimp only at hf
      split_ifs at hf
      rw [hf] at hq₁
      exact absurd hq₁ (hclosed d)
    · exact hf

/-- The number `0` in a queue is no descriptor. -/
theorem exclusive_queueIn_zero {n : ℕ} (h : Exclusive s.Holds) :
    Exclusive (s.queueIn n 0).Holds := by
  refine h.mono fun d q hq => ?_
  rcases q with ⟨m, i⟩ | r
  · obtain ⟨hd, hi⟩ := hq
    rcases queueIn_slot.mp hi with hi | ⟨-, -, rfl⟩
    · exact ⟨hd, hi⟩
    · exact absurd rfl hd
  · exact hq

end Moves

/-! ### Serving a request -/

/-- What keeps a descriptor from being given back twice: a request has at most one server, and
only requests in progress have one. A worker in `post_to_proxy` has the descriptor of its object,
and reconnections only concern the number `0`. -/
structure Serving (s : State) : Prop where
  server : Exclusive s.Serves
  served : ∀ r g, s.Serves r g → s.inProgress r = true
  task : ∀ w p, (s.tasks w).serves = some p → ∃ o r, s.objects p = some o ∧ o.req = some r
  fresh : ∀ p o r, s.objects p = some o → o.req = some r → r < s.begun
  bare : ∀ p o, s.objects p = some o → o.req = none → o.armed = false ∧ o.data.node = none
  pfd : ∀ w p restart d n o, s.tasks w = .posting p restart d n → s.objects p = some o →
    o.data.pfd = d
  reconnects : ∀ w d, s.tasks w = .reconnecting d → d.fd = 0

namespace Serving

variable {s : State} {r w p : ℕ}

/-- A worker goes on with the same object, or stops serving. -/
theorem setTask {t : Task} (h : Serving s)
    (ht : ∀ p, t.serves = some p → (s.tasks w).serves = some p)
    (hpfd : ∀ p restart d n o, t = .posting p restart d n → s.objects p = some o → o.data.pfd = d)
    (hrec : ∀ d, t = .reconnecting d → d.fd = 0) : Serving (s.setTask w t) := by
  have htask : ∀ v q, ((s.setTask w t).tasks v).serves = some q → (s.tasks v).serves = some q := by
    intro v q hv
    rw [State.setTask_tasks, Function.update_apply] at hv
    split_ifs at hv with hvw
    · rw [hvw]
      exact ht q hv
    · exact hv
  have hserves : ∀ r g, (s.setTask w t).Serves r g → s.Serves r g := by
    rintro r (v | q) hg
    · obtain ⟨q, o, hv, ho, hreq⟩ := hg
      exact ⟨q, o, htask v q hv, ho, hreq⟩
    · exact hg
  refine ⟨h.server.mono hserves, fun r g hg => h.served r g (hserves r g hg),
    fun v q hv => h.task v q (htask v q hv), h.fresh, h.bare, ?_, ?_⟩
  · intro v q restart d n o hv hq
    rw [State.setTask_tasks, Function.update_apply] at hv
    split_ifs at hv
    · exact hpfd q restart d n o hv hq
    · exact h.pfd v q restart d n o hv hq
  · intro v d hv
    rw [State.setTask_tasks, Function.update_apply] at hv
    split_ifs at hv
    · exact hrec d hv
    · exact h.reconnects v d hv

/-- A worker stops serving. -/
theorem setTask_done {t : Task} (h : Serving s) (ht : t.serves = none)
    (hrec : ∀ d, t = .reconnecting d → d.fd = 0) : Serving (s.setTask w t) := by
  refine h.setTask ?_ ?_ hrec
  · intro q hq
    rw [ht] at hq
    cases hq
  · rintro q restart d n o rfl
    cases ht

/-- A worker that still serves after the signal has not got it. -/
theorem serves_reset {v : ℕ} {hit : Option ℕ} (hv : ((s.reset hit).tasks v).serves = some p) :
    hit ≠ some v ∧ (s.tasks v).serves = some p := by
  rcases hit with _ | w
  · exact ⟨by rintro ⟨⟩, hv⟩
  · rw [State.reset, State.setTask_tasks, Function.update_apply] at hv
    split_ifs at hv with hvw
    · cases hv
    · exact ⟨fun h => hvw (Option.some.inj h).symm, hv⟩

theorem reset {hit : Option ℕ} (h : Serving s) : Serving (s.reset hit) := by
  rcases hit with _ | w
  · exact h
  · exact h.setTask_done rfl (by rintro d ⟨⟩)

/-- When its only server stops, a request has none. -/
theorem not_serves_setTask {t : Task} (h : Serving s) (hw : s.Serves r (.worker w))
    (ht : t.serves = none) (g : Server) : ¬ (s.setTask w t).Serves r g := by
  intro hg
  have hne : g ≠ .worker w := by
    rintro rfl
    obtain ⟨q, o, hq, -⟩ := hg
    simp [ht] at hq
  have hold : s.Serves r g := by
    rcases g with v | q
    · obtain ⟨q, o, hv, ho, hreq⟩ := hg
      rw [State.setTask_tasks, Function.update_of_ne (by rintro rfl; exact hne rfl)] at hv
      exact ⟨q, o, hv, ho, hreq⟩
    · exact hg
  exact hne (h.server r _ _ hold hw)

/-- The queues do not matter. -/
theorem queueIn {n d : ℕ} (h : Serving s) : Serving (s.queueIn n d) :=
  ⟨h.server, h.served, h.task, h.fresh, h.bare, h.pfd, h.reconnects⟩

theorem queueOut {n : ℕ} (h : Serving s) : Serving (s.queueOut n) :=
  ⟨h.server, h.served, h.task, h.fresh, h.bare, h.pfd, h.reconnects⟩

/-- A request that nobody serves is over. -/
theorem close (h : Serving s) (hr : ∀ g, ¬ s.Serves r g) : Serving (s.close r) := by
  refine ⟨h.server, ?_, h.task, h.fresh, h.bare, h.pfd, h.reconnects⟩
  intro r' g hg
  rw [State.close_inProgress, Function.update_apply]
  split_ifs with hr'
  · exact absurd (hr' ▸ hg) (hr g)
  · exact h.served r' g hg

/-- An object is written or freed, and no server is added. -/
theorem setObject {o : Option Object} (h : Serving s)
    (hfresh : ∀ o' r, o = some o' → o'.req = some r → r < s.begun)
    (hbare : ∀ o', o = some o' → o'.req = none → o'.armed = false ∧ o'.data.node = none)
    (hserves : ∀ r g, (s.setObject p o).Serves r g → s.Serves r g)
    (htask : ∀ w, (s.tasks w).serves = some p → ∃ o' r, o = some o' ∧ o'.req = some r)
    (hpfd : ∀ w restart d n o', s.tasks w = .posting p restart d n → o = some o' →
      o'.data.pfd = d) :
    Serving (s.setObject p o) := by
  refine ⟨h.server.mono hserves, fun r g hg => h.served r g (hserves r g hg), ?_, ?_, ?_, ?_,
    h.reconnects⟩
  · intro v q hv
    rw [State.setObject_objects, Function.update_apply]
    split_ifs with hqp
    · exact htask v (hqp ▸ hv)
    · exact h.task v q hv
  · intro q o' r hq hreq
    rw [State.setObject_objects, Function.update_apply] at hq
    split_ifs at hq
    · exact hfresh o' r hq hreq
    · exact h.fresh q o' r hq hreq
  · intro q o' hq hreq
    rw [State.setObject_objects, Function.update_apply] at hq
    split_ifs at hq
    · exact hbare o' hq hreq
    · exact h.bare q o' hq hreq
  · intro v q restart d n o' hv hq
    rw [State.setObject_objects, Function.update_apply] at hq
    split_ifs at hq with hqp
    · exact hpfd v restart d n o' (hqp ▸ hv) hq
    · exact h.pfd v q restart d n o' hv hq

/-- A server in a state with another object at `p` served before, or it serves through that
object. -/
theorem serves_of_setObject {o : Option Object} {g : Server}
    (hg : (s.setObject p o).Serves r g) :
    s.Serves r g ∨ ∃ o', o = some o' ∧ o'.req = some r ∧
      ((g = .event p ∧ o'.armed = true) ∨ ∃ v, g = .worker v ∧ (s.tasks v).serves = some p) := by
  rcases g with v | q
  · obtain ⟨q, o', hv, hq, hreq⟩ := hg
    rw [State.setObject_objects, Function.update_apply] at hq
    split_ifs at hq with hqp
    · exact Or.inr ⟨o', hq, hreq, Or.inr ⟨v, rfl, hqp ▸ hv⟩⟩
    · exact Or.inl ⟨q, o', hv, hq, hreq⟩
  · obtain ⟨o', hq, harmed, hreq⟩ := hg
    rw [State.setObject_objects, Function.update_apply] at hq
    split_ifs at hq with hqp
    · exact Or.inr ⟨o', hq, hreq, Or.inl ⟨by rw [hqp], harmed⟩⟩
    · exact Or.inl ⟨o', hq, harmed, hreq⟩

/-- An object is written that is for the same request as before, and not registered anew. -/
theorem setObject_same {o o' : Object} (h : Serving s) (hp : s.objects p = some o)
    (hreq : o'.req = o.req) (hr : o.req = some r) (harmed : o'.armed = true → o.armed = true)
    (hpfd : ∀ w restart d n, s.tasks w = .posting p restart d n → o'.data.pfd = o.data.pfd) :
    Serving (s.setObject p (some o')) := by
  refine h.setObject ?_ ?_ ?_ ?_ ?_
  · rintro _ r' ⟨⟩ hr'
    exact h.fresh p o r' hp (hreq ▸ hr')
  · rintro _ ⟨⟩ hnone
    rw [hreq, hr] at hnone
    simp at hnone
  · intro r' g hg
    rcases serves_of_setObject hg with hg | ⟨_, ⟨⟩, hr', ⟨rfl, ha⟩ | ⟨v, rfl, hv⟩⟩
    · exact hg
    · exact ⟨o, hp, harmed ha, hreq ▸ hr'⟩
    · exact ⟨p, o, hv, hp, hreq ▸ hr'⟩
  · intro v _
    exact ⟨o', r, rfl, by rw [hreq, hr]⟩
  · rintro v restart d n _ hv ⟨⟩
    rw [hpfd v restart d n hv]
    exact h.pfd v p restart d n o hv hp

/-- A worker takes up a request that nobody serves. -/
theorem addWorker {t : Task} {o : Object} (h : Serving s) (ht : t.serves = some p)
    (hp : s.objects p = some o) (hreq : o.req = some r) (hr : s.inProgress r = true)
    (hpfd : ∀ p restart d n, t = .posting p restart d n → o.data.pfd = d)
    (hnone : ∀ g, ¬ s.Serves r g) : Serving (s.setTask w t) := by
  -- the worker `w` is the only holder that is added
  have hserves : ∀ r' g, (s.setTask w t).Serves r' g →
      (r' = r ∧ g = .worker w) ∨ s.Serves r' g := by
    rintro r' (v | q) hg
    · obtain ⟨q, o', hv, hq, hr'⟩ := hg
      rw [State.setTask_tasks, Function.update_apply] at hv
      split_ifs at hv with hvw
      · obtain rfl : p = q := Option.some.inj (ht.symm.trans hv)
        obtain rfl : o = o' := Option.some.inj (hp.symm.trans hq)
        exact Or.inl ⟨Option.some.inj (hr'.symm.trans hreq), by rw [hvw]⟩
      · exact Or.inr ⟨q, o', hv, hq, hr'⟩
    · exact Or.inr hg
  refine ⟨h.server.add hnone hserves, ?_, ?_, h.fresh, h.bare, ?_, ?_⟩
  · intro r' g hg
    rcases hserves r' g hg with ⟨rfl, rfl⟩ | hold
    · exact hr
    · exact h.served r' g hold
  · intro v q hv
    rw [State.setTask_tasks, Function.update_apply] at hv
    split_ifs at hv
    · obtain rfl : p = q := Option.some.inj (ht.symm.trans hv)
      exact ⟨o, r, hp, hreq⟩
    · exact h.task v q hv
  · intro v q restart d n o' hv hq
    rw [State.setTask_tasks, Function.update_apply] at hv
    split_ifs at hv
    · have hqp : some p = some q := by rw [← ht, hv]; rfl
      obtain rfl := Option.some.inj hqp
      obtain rfl : o = o' := Option.some.inj (hp.symm.trans hq)
      exact hpfd p restart d n hv
    · exact h.pfd v q restart d n o' hv hq
  · intro v d hv
    rw [State.setTask_tasks, Function.update_apply] at hv
    split_ifs at hv
    · rw [hv] at ht
      cases ht
    · exact h.reconnects v d hv

/-- An event is registered for a request that nobody serves. -/
theorem addEvent {o : Object} (h : Serving s) (hp : s.objects p = none)
    (hreq : o.req = some r) (hlt : r < s.begun) (hr : s.inProgress r = true)
    (hnone : ∀ g, ¬ s.Serves r g) : Serving (s.setObject p (some o)) := by
  -- the new object is the only holder that is added
  have hserves : ∀ r' g, (s.setObject p (some o)).Serves r' g →
      (r' = r ∧ g = .event p) ∨ s.Serves r' g := by
    intro r' g hg
    rcases serves_of_setObject hg with hg | ⟨_, ⟨⟩, hr', ⟨rfl, -⟩ | ⟨v, rfl, hv⟩⟩
    · exact Or.inr hg
    · exact Or.inl ⟨Option.some.inj (hr'.symm.trans hreq), rfl⟩
    · obtain ⟨o', _, hq, -⟩ := h.task v p hv
      rw [hp] at hq
      simp at hq
  refine ⟨h.server.add hnone hserves, ?_, ?_, ?_, ?_, ?_, h.reconnects⟩
  · intro r' g hg
    rcases hserves r' g hg with ⟨rfl, rfl⟩ | hold
    · exact hr
    · exact h.served r' g hold
  · intro v q hv
    obtain ⟨o', r', hq, hr'⟩ := h.task v q hv
    have hne : q ≠ p := by
      rintro rfl
      rw [hp] at hq
      simp at hq
    exact ⟨o', r', by rw [State.setObject_objects, Function.update_of_ne hne, hq], hr'⟩
  · intro q o' r' hq hr'
    rw [State.setObject_objects, Function.update_apply] at hq
    split_ifs at hq
    · obtain rfl := Option.some.inj hq
      rw [hreq] at hr'
      obtain rfl := Option.some.inj hr'
      exact hlt
    · exact h.fresh q o' r' hq hr'
  · intro q o' hq hr'
    rw [State.setObject_objects, Function.update_apply] at hq
    split_ifs at hq
    · obtain rfl := Option.some.inj hq
      rw [hreq] at hr'
      simp at hr'
    · exact h.bare q o' hq hr'
  · intro v q restart d n o' hv hq
    rw [State.setObject_objects, Function.update_apply] at hq
    split_ifs at hq with hqp
    · have hserve : (s.tasks v).serves = some q := by
        rw [State.setObject_tasks] at hv
        rw [hv]
        rfl
      obtain ⟨o', _, hq', -⟩ := h.task v q hserve
      rw [hqp, hp] at hq'
      simp at hq'
    · exact h.pfd v q restart d n o' hv hq

/-- An object that a request can begin with is not in use. -/
theorem unused {o : Object} (h : Serving s) (hp : s.objects p = some o)
    (ho : (o.req.map s.inProgress).getD false = false) :
    o.armed = false ∧ ∀ w, (s.tasks w).serves ≠ some p := by
  have hover : ∀ r g, o.req = some r → ¬ s.Serves r g := by
    intro r g hreq hg
    have hr := h.served r g hg
    rw [hreq] at ho
    exact absurd hr (by simpa using ho)
  constructor
  · cases hreq : o.req with
    | none => exact (h.bare p o hp hreq).1
    | some r =>
      rw [Bool.eq_false_iff]
      intro harmed
      exact hover r (.event p) hreq ⟨o, hp, harmed, hreq⟩
  · intro v hv
    obtain ⟨o', r, hp', hreq⟩ := h.task v p hv
    obtain rfl : o = o' := Option.some.inj (hp.symm.trans hp')
    exact hover r (.worker v) hreq ⟨p, o, hv, hp, hreq⟩

theorem begin (h : Serving s) : Serving s.begin := by
  refine ⟨h.server, ?_, h.task, ?_, h.bare, h.pfd, h.reconnects⟩
  · intro r g hg
    rw [State.begin_inProgress, Function.update_apply]
    split_ifs
    · rfl
    · exact h.served r g hg
  · intro q o r hq hr
    exact Nat.lt_succ_of_lt (h.fresh q o r hq hr)

/-- The server of a request is done with it. -/
theorem finish {r : ℕ} {o : Object} {t : Task} (h : Serving s)
    (hw : (s.tasks w).serves = some p) (hp : s.objects p = some o) (hr : o.req = some r)
    (ht : t.serves = none) (hrec : ∀ d, t ≠ .reconnecting d) :
    Serving ((s.setTask w t).close r) := by
  have hset : Serving (s.setTask w t) := h.setTask_done ht fun d hd => absurd hd (hrec d)
  exact hset.close (h.not_serves_setTask ⟨p, o, hw, hp, hr⟩ ht)

/-- When the only servers of a request are the worker that is reset and the event object that is
freed, nobody serves it afterwards. -/
theorem not_serves_destructed {hit : Option ℕ}
    (hservers : ∀ g, s.Serves r g → (∃ w, hit = some w ∧ g = .worker w) ∨ g = .event p)
    (g : Server) : ¬ ((s.reset hit).setObject p none).Serves r g := by
  rcases g with v | q
  · rintro ⟨q, o, hv, hq, hr⟩
    rw [State.setObject_objects, Function.update_apply] at hq
    split_ifs at hq
    rw [reset_objects] at hq
    obtain ⟨hne, hv⟩ := serves_reset hv
    rcases hservers (.worker v) ⟨q, o, hv, hq, hr⟩ with ⟨w, rfl, hvw⟩ | hvp
    · exact hne (by rw [Server.worker.inj hvw])
    · simp at hvp
  · rintro ⟨o, hq, harmed, hr⟩
    rw [State.setObject_objects, Function.update_apply] at hq
    split_ifs at hq with hqp
    rw [reset_objects] at hq
    rcases hservers (.event q) ⟨o, hq, harmed, hr⟩ with ⟨w, -, hvw⟩ | hvp
    · simp at hvw
    · exact hqp (Server.event.inj hvp)

end Serving

end Proxy

end Lidas
