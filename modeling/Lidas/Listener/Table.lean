import Lidas.Listener.KeepAlive

/-!
# The entries of `timer_data_lst`

`timer_insert` sets the entry of a connection as the last thing it does, and `mem_pool_creat` and
`buf_log_init`, which it calls before, use the entry. So the first connection that comes there
uses an entry that is not set. Up to then nothing is registered with `epoll` but the master socket,
and no worker has anything to do (`guarded_iff`).
-/

namespace Lidas

namespace Connections

variable {c : Config} {s s' : State} {l : Label}

/-- Every entry of the table that a step uses is there. -/
def Guarded (c : Config) (s : State) (l : Label) : Prop := ∀ x ∈ s.derefs c l, s.Present c x

instance (c : Config) (s : State) (l : Label) : Decidable (Guarded c s l) :=
  inferInstanceAs (Decidable (∀ _ ∈ _, _))

/-- No connection has come to `mem_pool_creat`. -/
structure Untouched (s : State) : Prop where
  table : ∀ fd, s.timers.table fd = none
  queue : s.timers.queue.entries = []
  epoll : ∀ x, s.epoll x = none
  given : ∀ a, s.given a = false
  destructing : s.destructing = none

theorem untouched_start (c : Config) : Untouched (start c) :=
  ⟨fun _ => rfl, LidaQueue.entries_queueInit _ _, fun _ => rfl, fun _ => rfl, rfl⟩

namespace Untouched

theorem dispatch_eq_none (h : Untouched s) (l : Label) : s.dispatch l = none := by
  cases l with
  | hupEvent x backend => rw [State.dispatch, h.epoll, Option.map_none]
  | rdEvent x handler => rw [State.dispatch, h.epoll, Option.map_none]
  | outEvent x => rw [State.dispatch, h.epoll, Option.map_none]
  | _ => rfl

theorem not_given (h : Untouched s) (a : Addr) : ¬s.given a = true := by
  rw [h.given]
  exact Bool.false_ne_true

theorem not_expires (h : Untouched s) (now : ℤ) : ¬s.Expires c now := by
  rw [State.Expires, s.timers.queue.queueOut_of_nil h.queue]
  exact fun hexp => hexp.1 rfl

theorem timerTask_eq (h : Untouched s) (now : ℤ) : s.timerTask c now = s := by
  have htask : s.timers.timerTask c.keepAlive now = some s.timers := by
    rw [Timers.timerTask, s.timers.queue.queueOut_of_nil h.queue]
    rfl
  rw [State.timerTask, htask]
  dsimp only
  rw [if_neg (h.not_expires now)]

theorem after (h : Untouched s) (hno : ¬s.Inserts l) (hstep : step c s l = some s') :
    Untouched s' := by
  rw [step] at hstep
  split_ifs at hstep
  -- without an entry in the table nothing reaches a descriptor or the queue
  cases l with
  | accept fd added through now =>
    rw [State.next] at hstep
    split_ifs at hstep
    obtain rfl := Option.some.inj hstep
    rw [State.listenEvent]
    split
    · exact ⟨h.table, h.queue, h.epoll, h.given, h.destructing⟩
    · rename_i a events halloc
      dsimp only
      by_cases hadded : added = false
      · rw [if_pos hadded]
        exact ⟨h.table, h.queue, h.epoll, h.given, h.destructing⟩
      · -- the step is no insertion, so the timer pool is empty
        have hnone : s.timers.timerInsert fd now = none := by
          rw [Timers.timerInsert_eq_none]
          by_contra hfree
          refine hno ⟨by simpa using hadded, fun hnil => ?_, hfree⟩
          rw [FreeList.alloc_eq_none.mpr hnil] at halloc
          cases halloc
        rw [if_neg hadded, hnone]
        exact ⟨h.table, h.queue, h.epoll, h.given, h.destructing⟩
  | destructRest =>
    rw [State.next, h.destructing] at hstep
    cases hstep
  | timerTask now =>
    rw [State.next, h.timerTask_eq] at hstep
    exact Option.some.inj hstep ▸ h
  | kill =>
    obtain rfl := Option.some.inj hstep
    exact ⟨h.table, h.queue, h.epoll, h.given, h.destructing⟩
  | reuse a e =>
    rw [State.next] at hstep
    split_ifs at hstep
    obtain rfl := Option.some.inj hstep
    exact ⟨h.table, h.queue, h.epoll, h.given, h.destructing⟩
  | post a pfd node =>
    rw [State.next, if_neg fun hgiven => h.not_given a hgiven.1] at hstep
    cases hstep
  | eventAdd a pfd g t =>
    rw [State.next, if_neg fun hgiven => h.not_given a hgiven.1] at hstep
    cases hstep
  | setType a t | memPoolAlloc a | modify a | unregister a | finish a =>
    rw [State.next, if_neg (h.not_given a)] at hstep
    cases hstep
  | hupEvent x b | rdEvent x b | outEvent x =>
    rw [State.next, State.event, h.dispatch_eq_none] at hstep
    split_ifs at hstep
    cases hstep

/-- **One step.** -/
theorem guarded_step_iff (h : Untouched s) (hstep : step c s l = some s') :
    Guarded c s l ↔ ¬s.Inserts l := by
  rw [step] at hstep
  split_ifs at hstep
  cases l with
  | accept fd added through now =>
    rw [Guarded, State.derefs]
    by_cases hins : s.Inserts (.accept fd added through now)
    · rw [if_pos hins]
      refine iff_of_false (fun hall => ?_) fun hno => hno hins
      exact (hall fd List.mem_cons_self).2 (h.table fd)
    · rw [if_neg hins]
      exact iff_of_true (fun x hx => by cases hx) hins
  | timerTask now =>
    rw [Guarded, State.derefs, if_neg (h.not_expires now)]
    exact iff_of_true (fun x hx => by cases hx) id
  | eventAdd a pfd g t =>
    rw [State.next, if_neg fun hgiven => h.not_given a hgiven.1] at hstep
    cases hstep
  | memPoolAlloc a =>
    rw [State.next, if_neg (h.not_given a)] at hstep
    cases hstep
  | _ =>
    refine iff_of_true ?_ id
    simp [Guarded, State.derefs, h.dispatch_eq_none]

end Untouched

/-- **The table.** In every step of a run the entries that are used are there, exactly if no
connection comes to `mem_pool_creat` in `timer_insert`. -/
theorem guarded_iff (c : Config) (ls : List Label) :
    Runs.Meets (step c) (Guarded c) (start c) ls ↔
      Runs.Meets (step c) (fun s l => ¬s.Inserts l) (start c) ls :=
  Runs.meets_iff_meets (fun _ _ _ (h : Untouched _) hno hstep => h.after hno hstep)
    (fun _ _ _ h hstep => h.guarded_step_iff hstep) (untouched_start c) ls

/-- The first connection uses an entry that is not set. -/
theorem not_guarded_firstAccept :
    ¬∀ (c : Config) (ls : List Label), Runs.Meets (step c) (Guarded c) (start c) ls := by
  intro h
  have hrun := h smallConfig [.accept 7 true false 0]
  revert hrun
  decide

end Connections

end Lidas
