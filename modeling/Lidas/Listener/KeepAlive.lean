import Lidas.Lib.Runs
import Lidas.Listener.Connections

/-!
# The keep-alive queue against the table

The queue and the table of `Listener.Timers` over runs of a whole process. Each entry of the queue
is the timer of an open connection as long as `timer_task` is what closes the connections: then the
timer has left the queue. `request_destruct` leaves the timer it frees there (`queueSound_iff`).
-/

namespace Lidas

namespace Connections

namespace State

variable (c : Config) (s : State)

/-- `request_destruct` is called, for a connection that has a timer. -/
def Destructs (l : Label) : Prop :=
  match s.dispatch l with
  | some (_, derefs, .destruct _) => s.destructing = none ∧ ∀ x ∈ derefs, s.Present c x
  | _ => False

instance (l : Label) : Decidable (s.Destructs c l) := by
  unfold Destructs
  split <;> infer_instance

/-- A connection comes through `timer_insert`. -/
def Inserted : Label → Prop
  | .accept fd added through now =>
    s.Inserts (.accept fd added through now) ∧ through = true ∧ fd < 2 * c.connect
  | _ => False

instance : (l : Label) → Decidable (s.Inserted c l)
  | .accept .. => inferInstanceAs (Decidable (_ ∧ _ ∧ _))
  | .hupEvent .. | .rdEvent .. | .outEvent _ | .destructRest | .timerTask _ | .kill | .post ..
  | .eventAdd .. | .setType .. | .memPoolAlloc _ | .modify _ | .unregister _ | .finish _
  | .reuse .. => instDecidableFalse

end State

/-- What a step does to the timers, and to the set of descriptors that were opened. -/
inductive TimersStep (c : Config) (s : State) (l : Label) : Timers → Finset ℕ → Prop where
  | same (hi : ¬s.Inserted c l) (hd : ¬s.Destructs c l) : TimersStep c s l s.timers s.opened
  | opens {fd : ℕ} (hi : ¬s.Inserted c l) (hd : ¬s.Destructs c l) (hc : ¬c.NoClient fd) :
      TimersStep c s l s.timers (insert fd s.opened)
  | insert {fd : ℕ} {now ret : ℤ} {t : Timers} (hi : s.Inserted c l) (hd : ¬s.Destructs c l)
      (hc : ¬c.NoClient fd) (hfd : fd ∉ s.opened)
      (h : s.timers.timerInsert fd now = some (ret, t)) : TimersStep c s l t (insert fd s.opened)
  | clean {fd : ℕ} {t : Timers} (hi : ¬s.Inserted c l) (hd : s.Destructs c l)
      (h : s.timers.timerCleaner fd = some t) : TimersStep c s l t s.opened
  | task {now : ℤ} {t : Timers} (hi : ¬s.Inserted c l) (hd : ¬s.Destructs c l)
      (h : s.timers.timerTask c.keepAlive now = some t) : TimersStep c s l t s.opened

variable {c : Config} {s s' : State} {l : Label}

/-- `listen_event` inserts a timer, or leaves the timers as they are. -/
theorem listenEvent_timers {fd : ℕ} {added through : Bool} {now : ℤ} (hfd : fd ∉ s.opened)
    (hc : ¬c.NoClient fd) :
    TimersStep c s (.accept fd added through now) (s.listenEvent c fd added through now).timers
      (s.listenEvent c fd added through now).opened := by
  have hd : ¬s.Destructs c (.accept fd added through now) := id
  rw [State.listenEvent]
  split
  · rename_i hnone
    exact .same (fun hi => hi.1.2.1 (FreeList.alloc_eq_none.mp hnone)) hd
  · rename_i a events halloc
    dsimp only
    by_cases hadded : added = false
    · rw [if_pos hadded]
      exact .opens (fun hi => Bool.noConfusion (hadded.symm.trans hi.1.1)) hd hc
    · rw [if_neg hadded]
      split
      · rename_i hnone
        exact .same (fun hi => hi.1.2.2 (Timers.timerInsert_eq_none.mp hnone)) hd
      · rename_i ret t hinsert
        by_cases hgo : through = true ∧ fd < 2 * c.connect
        · rw [if_pos hgo]
          have hinserts : s.Inserts (.accept fd added through now) := by
            refine ⟨by simpa using hadded, fun hfree => ?_, fun hfree => ?_⟩
            · rw [FreeList.alloc_eq_none.mpr hfree] at halloc
              cases halloc
            · rw [Timers.timerInsert_eq_none.mpr hfree] at hinsert
              cases hinsert
          exact .insert ⟨hinserts, hgo⟩ hd hc hfd hinsert
        · rw [if_neg hgo]
          exact .same (fun hi => hgo hi.2) hd

/-- `timer_cleaner` for a connection that has a timer. -/
theorem timerCleaner_of_present {fd : ℕ} (h : s.timers.table fd ≠ none) :
    ∃ t pfd, s.timers.timerCleaner fd = some t ∧
      s.timerCleaner fd = State.forget { s with timers := t } fd pfd := by
  obtain ⟨p, hp⟩ := Option.ne_none_iff_exists'.mp h
  obtain ⟨t, ht⟩ : ∃ t, s.timers.timerCleaner fd = some t := by
    rw [Timers.timerCleaner, hp]
    exact ⟨_, rfl⟩
  exact ⟨t, (s.timers.timer p).pfd, ht, by rw [State.timerCleaner, hp, ht]⟩

theorem forget_timers (s : State) (fd pfd : ℕ) : (s.forget fd pfd).timers = s.timers := by
  rw [State.forget]
  split_ifs <;> rfl

theorem forget_opened (s : State) (fd pfd : ℕ) : (s.forget fd pfd).opened = s.opened := by
  rw [State.forget]
  split_ifs <;> rfl

/-- What is done about an event of the object `e`, if the entries `derefs` are used for it, has to
do with a descriptor of the object that is looked up. -/
def Act.Fits (e : EventData) (derefs : List ℕ) : Act → Prop
  | .nothing | .crash => True
  | .destruct fd => fd ∈ derefs ∧ (fd = e.fd ∨ fd = e.pfd)
  | .give fd => fd ∈ derefs ∧ (fd = e.fd ∨ fd = e.pfd)
  | .reassign pfd => pfd ∈ derefs

section Dispatch

variable {a : Addr} {derefs : List ℕ} {act : Act}

theorem connectDestruct_fits (e : EventData) (backend : Option ℕ) :
    (connectDestruct e backend).2.Fits e (connectDestruct e backend).1 := by
  obtain ⟨fd, pfd, type, node⟩ := e
  cases type <;> cases node <;> cases backend <;> simp [connectDestruct, Act.Fits]

theorem rdEventRedirect_fits (e : EventData) (handler : Handler) :
    (rdEventRedirect e handler).2.Fits e (rdEventRedirect e handler).1 := by
  obtain ⟨fd, pfd, type, node⟩ := e
  cases type <;> cases handler <;> simp [rdEventRedirect, Worker.rdFd, Act.Fits]

theorem outEventRedirect_fits (e : EventData) :
    (outEventRedirect e).2.Fits e (outEventRedirect e).1 := by
  obtain ⟨fd, pfd, type, node⟩ := e
  cases type <;> simp [outEventRedirect, Worker.outFd, Act.Fits]

/-- **Dispatching.** The object is a registered one. -/
theorem dispatch_fits (h : s.dispatch l = some (a, derefs, act)) :
    (∃ x, s.epoll x = some a) ∧ act.Fits (s.object a) derefs := by
  cases l with
  | hupEvent x backend =>
    obtain ⟨b, hb, hd⟩ := Option.map_eq_some_iff.mp h
    obtain ⟨rfl, hact⟩ := Prod.mk.inj hd
    have hfits := connectDestruct_fits (s.object b) backend
    rw [hact] at hfits
    exact ⟨⟨x, hb⟩, hfits⟩
  | rdEvent x handler =>
    obtain ⟨b, hb, hd⟩ := Option.map_eq_some_iff.mp h
    obtain ⟨rfl, hact⟩ := Prod.mk.inj hd
    have hfits := rdEventRedirect_fits (s.object b) handler
    rw [hact] at hfits
    exact ⟨⟨x, hb⟩, hfits⟩
  | outEvent x =>
    obtain ⟨b, hb, hd⟩ := Option.map_eq_some_iff.mp h
    obtain ⟨rfl, hact⟩ := Prod.mk.inj hd
    have hfits := outEventRedirect_fits (s.object b)
    rw [hact] at hfits
    exact ⟨⟨x, hb⟩, hfits⟩
  | _ => cases h

/-- Only `connect_destruct` gives an object another backend, which is the one it found. -/
theorem eq_of_connectDestruct_reassign {e : EventData} {backend : Option ℕ} {pfd : ℕ}
    (h : (connectDestruct e backend).2 = .reassign pfd) : backend = some pfd := by
  obtain ⟨fd, pfd', type, node⟩ := e
  cases type <;> cases node <;> cases backend <;> simp [connectDestruct] at h
  all_goals rw [h]

theorem rdEventRedirect_ne_reassign {e : EventData} {handler : Handler} {pfd : ℕ} :
    (rdEventRedirect e handler).2 ≠ .reassign pfd := by
  obtain ⟨fd, pfd', type, node⟩ := e
  cases type <;> cases handler <;> simp [rdEventRedirect, Worker.rdFd]

theorem outEventRedirect_ne_reassign {e : EventData} {pfd : ℕ} :
    (outEventRedirect e).2 ≠ .reassign pfd := by
  obtain ⟨fd, pfd', type, node⟩ := e
  cases type <;> simp [outEventRedirect, Worker.outFd]

/-- Only a hang-up of a backend changes the backend's descriptor in an object. -/
theorem eq_hupEvent_of_reassign {pfd : ℕ} (h : s.dispatch l = some (a, derefs, .reassign pfd)) :
    ∃ x, l = .hupEvent x (some pfd) := by
  cases l with
  | hupEvent x backend =>
    obtain ⟨b, -, hd⟩ := Option.map_eq_some_iff.mp h
    exact ⟨x, by rw [eq_of_connectDestruct_reassign (congrArg (fun d => d.2.2) hd)]⟩
  | rdEvent x handler =>
    obtain ⟨b, -, hd⟩ := Option.map_eq_some_iff.mp h
    exact absurd (congrArg (fun d => d.2.2) hd) rdEventRedirect_ne_reassign
  | outEvent x =>
    obtain ⟨b, -, hd⟩ := Option.map_eq_some_iff.mp h
    exact absurd (congrArg (fun d => d.2.2) hd) outEventRedirect_ne_reassign
  | _ => cases h

end Dispatch

/-- What an event does to the timers. -/
theorem event_timers (hi : ¬s.Inserted c l) (h : s.event c l = some s') :
    TimersStep c s l s'.timers s'.opened := by
  rw [State.event] at h
  split_ifs at h with hfree
  obtain ⟨⟨a, derefs, act⟩, hd, rfl⟩ := Option.map_eq_some_iff.mp h
  have hdestructs : s.Destructs c l ↔ (∃ fd, act = .destruct fd) ∧ ∀ x ∈ derefs, s.Present c x := by
    rw [State.Destructs, hd]
    cases act <;> simp [hfree]
  dsimp only [State.handle]
  by_cases hpresent : ∀ x ∈ derefs, s.Present c x
  · rw [if_pos hpresent]
    cases act with
    | destruct fd =>
      obtain ⟨t, pfd, hclean, heq⟩ :=
        timerCleaner_of_present (hpresent fd (dispatch_fits hd).2.1).2
      rw [State.act, heq]
      dsimp only
      rw [forget_timers, forget_opened]
      exact .clean hi (hdestructs.mpr ⟨⟨fd, rfl⟩, hpresent⟩) hclean
    | _ => exact .same hi (by simp [hdestructs])
  · rw [if_neg hpresent]
    exact .same hi (fun hyes => hpresent (hdestructs.mp hyes).2)

/-- What the thread of the timer does to them. -/
theorem timerTask_timers (c : Config) (s : State) (now : ℤ) :
    TimersStep c s (.timerTask now) (s.timerTask c now).timers (s.timerTask c now).opened := by
  rw [State.timerTask]
  split
  · exact .same id id
  · rename_i t ht
    dsimp only
    split_ifs
    · rw [State.crash, forget_timers, forget_opened]
      exact .task id id ht
    · rw [forget_timers, forget_opened]
      exact .task id id ht
    · exact .task id id ht

/-- **One step.** -/
theorem step_timers (h : step c s l = some s') : TimersStep c s l s'.timers s'.opened := by
  rw [step] at h
  split_ifs at h with halive
  cases l with
  | accept fd added through now =>
    rw [State.next] at h
    split_ifs at h with hmay
    obtain rfl := Option.some.inj h
    exact listenEvent_timers hmay.2.1 hmay.2.2
  | hupEvent x backend =>
    rw [State.next] at h
    split_ifs at h
    exact event_timers id h
  | rdEvent x handler => exact event_timers id h
  | outEvent x => exact event_timers id h
  | timerTask now =>
    obtain rfl := Option.some.inj h
    exact timerTask_timers c s now
  | destructRest =>
    obtain ⟨a, -, rfl⟩ := Option.map_eq_some_iff.mp h
    split_ifs <;> exact .same id id
  | kill =>
    obtain rfl := Option.some.inj h
    exact .same id id
  | eventAdd a pfd g t =>
    rw [State.next] at h
    split_ifs at h <;> (obtain rfl := Option.some.inj h; exact .same id id)
  | memPoolAlloc a =>
    rw [State.next] at h
    split_ifs at h <;> (obtain rfl := Option.some.inj h; exact .same id id)
  | _ =>
    rw [State.next] at h
    split_ifs at h
    obtain rfl := Option.some.inj h
    exact .same id id

/-- The timers are in order, and only descriptors that were opened have one. -/
structure State.Sound (s : State) : Prop where
  timers : s.timers.Sound
  opened : ∀ fd, s.timers.table fd ≠ none → fd ∈ s.opened

theorem sound_start (c : Config) : (start c).Sound := by
  refine ⟨⟨⟨c.nodup_blocks, fun _ _ => by simp [start]⟩, fun p hp => ?_, fun fd p hp => ?_⟩,
    fun fd hfd => absurd rfl hfd⟩
  · rcases hp with hp | hp
    · exact ne_of_mem_of_not_mem hp c.blocks_ne_null
    · simp [start] at hp
  · cases hp

/-- The timers stay sound, and only open connections have one. -/
theorem TimersStep.sound {t : Timers} {opened : Finset ℕ} (h : TimersStep c s l t opened)
    (hs : s.Sound) : t.Sound ∧ ∀ fd, t.table fd ≠ none → fd ∈ opened := by
  cases h with
  | same => exact ⟨hs.timers, hs.opened⟩
  | opens => exact ⟨hs.timers, fun fd hfd => Finset.mem_insert_of_mem (hs.opened fd hfd)⟩
  | insert _ _ _ _ hinsert =>
    refine ⟨hs.timers.timerInsert hinsert, fun fd hfd => ?_⟩
    rcases Timers.table_of_timerInsert hinsert hfd with rfl | hold
    · exact Finset.mem_insert_self _ _
    · exact Finset.mem_insert_of_mem (hs.opened fd hold)
  | clean _ _ hclean =>
    exact ⟨hs.timers.timerCleaner hclean,
      fun fd hfd => hs.opened fd (Timers.table_of_timerCleaner hclean hfd).2⟩
  | task _ _ htask =>
    exact ⟨hs.timers.timerTask htask,
      fun fd hfd => hs.opened fd (Timers.table_of_timerTask htask hfd)⟩

/-- Only clients' descriptors are opened. -/
theorem TimersStep.clients {t : Timers} {opened : Finset ℕ} (h : TimersStep c s l t opened)
    (hs : ∀ fd ∈ s.opened, ¬c.NoClient fd) : ∀ fd ∈ opened, ¬c.NoClient fd := by
  cases h with
  | opens _ _ hc => exact Finset.forall_mem_insert _ _ _ |>.mpr ⟨hc, hs⟩
  | insert _ _ hc => exact Finset.forall_mem_insert _ _ _ |>.mpr ⟨hc, hs⟩
  | _ => exact hs

/-- The step lemma. -/
theorem State.Sound.after (hs : s.Sound) (h : step c s l = some s') : s'.Sound := by
  obtain ⟨htimers, hopened⟩ := (step_timers h).sound hs
  exact ⟨htimers, hopened⟩

/-- Nothing but `timer_task` closes a connection that has a timer, and no timer is inserted while
the queue is full with its oldest entry in slot 0. -/
def Undisturbed (c : Config) (s : State) (l : Label) : Prop :=
  ¬s.Destructs c l ∧ (s.Inserted c l → ¬s.timers.Wrapping)

instance (c : Config) (s : State) (l : Label) : Decidable (Undisturbed c s l) :=
  inferInstanceAs (Decidable (_ ∧ _))

/-- The queue stays sound if and only if the step does not disturb it. -/
theorem TimersStep.queueSound_step_iff {t : Timers} {opened : Finset ℕ}
    (h : TimersStep c s l t opened) (hs : s.Sound) (hq : s.timers.QueueSound) :
    t.QueueSound ↔ Undisturbed c s l := by
  cases h with
  | same hi hd => exact iff_of_true hq ⟨hd, fun hyes => absurd hyes hi⟩
  | opens hi hd => exact iff_of_true hq ⟨hd, fun hyes => absurd hyes hi⟩
  | @insert fd now ret t hi hd hc hfd hinsert =>
    have hnone : s.timers.table fd = none := by
      by_contra hsome
      exact hfd (hs.opened fd hsome)
    rw [hs.timers.queueSound_timerInsert hq hnone hinsert]
    exact ⟨fun hwrap => ⟨hd, fun _ => hwrap⟩, fun hund => hund.2 hi⟩
  | clean _ hd hclean => exact iff_of_false (hq.not_timerCleaner hclean) fun hund => hund.1 hd
  | @task now t hi hd htask =>
    obtain ⟨t', ht', hq'⟩ := hq.timerTask hs.timers c.keepAlive now
    rw [ht', Option.some.injEq] at htask
    exact iff_of_true (htask ▸ hq') ⟨hd, fun hyes => absurd hyes hi⟩

/-- The empty queue is sound. -/
theorem queueSound_start (c : Config) : (start c).timers.QueueSound := by
  refine ⟨fun p hp => ?_, fun fd p hp => by cases hp⟩
  rw [start, LidaQueue.entries_queueInit] at hp
  cases hp

/-- **The keep-alive queue.** The entries of the queue are the timers of the open connections, each
once, in every state of a run exactly if `request_destruct` closes no connection that has a timer
and no timer is inserted while the queue wraps around. -/
theorem queueSound_iff (c : Config) (ls : List Label) :
    Runs.Holds (step c) (fun s => s.timers.QueueSound) (start c) ls ↔
      Runs.Meets (step c) (Undisturbed c) (start c) ls :=
  Runs.holds_iff_meets (fun _ _ _ _ (hs : State.Sound _) h => hs.after h)
    (fun _ _ _ hq hs h => (step_timers h).queueSound_step_iff hs hq)
    (queueSound_start c) (sound_start c) ls

/-- One connection, a queue of three entries, and the client 7 hangs up. -/
theorem not_queueSound_hangup :
    ¬∀ (c : Config) (ls : List Label),
      Runs.Holds (step c) (fun s => s.timers.QueueSound) (start c) ls := by
  intro h
  have hrun := (h smallConfig [.accept 7 true true 0, .hupEvent 7 none]).last rfl
  have hentry := hrun.entry 4112 (by decide)
  revert hentry
  decide

end Connections

end Lidas
