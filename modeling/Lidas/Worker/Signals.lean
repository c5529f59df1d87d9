import Lidas.Worker.Pool
import Mathlib.Data.List.Nodup

/-!
# Whom the signals reach

The listener signals the thread remembered for a connection. That thread serves an event of the
connection as long as it has neither come to `THREAD_RET` nor been reset since it was
remembered; nothing takes it out of the timer entry afterwards. A history variable keeps, for
each descriptor, whether this is so. Along the runs that signal only such threads, and in which
no worker of the pool comes to `THREAD_RET` with a `SIGCONT` pending, every signal reaches a
worker that serves an event of the connection.
-/

namespace Lidas

namespace Worker

/-- The event is about the descriptor. -/
def Of (fd : ℕ) (e : EventData) : Prop :=
  rdFd e = some fd ∨ outFd e = some fd

instance (fd : ℕ) (e : EventData) : Decidable (Of fd e) :=
  inferInstanceAs (Decidable (_ ∨ _))

/-- The descriptor whose remembered thread the step signals. -/
def Label.fd : Label → Option ℕ
  | .rdEvent e _ => rdFd e
  | .outEvent e => outFd e
  | .timerCleaner fd => some fd
  | _ => none

/-- The worker that comes to `THREAD_RET`. -/
def Label.returns : Label → Option ℕ
  | .finish w => some w
  | _ => none

/-- Whoever is signalled serves an event of the descriptor. -/
def Right (s : State) (a : Label) : Prop :=
  ∀ fd ∈ a.fd, ∀ w ∈ s.target fd, ∃ e ∈ (s.workers w).event, Of fd e

instance (s : State) (a : Label) : Decidable (Right s a) :=
  inferInstanceAs (Decidable (∀ fd ∈ a.fd, _))

/-- The descriptors a thread is remembered for, without those of `w`. -/
def forget (s : State) (w : Option ℕ) (kept : ℕ → Bool) : ℕ → Bool :=
  match w with
  | none => kept
  | some w => fun fd => kept fd && decide (s.timer fd ≠ some (.worker w))

/-- The history variable: `kept fd` says that the thread remembered for `fd` has neither
finished nor been reset since. -/
def record (s : State) (a : Label) (kept : ℕ → Bool) : ℕ → Bool :=
  match a with
  | .rdEvent e _ =>
    match rdFd e with
    | none => kept
    | some fd => if s.target fd = none then Function.update kept fd true else kept
  | .outEvent e => forget s ((outFd e).bind s.target) kept
  | .timerCleaner fd => forget s (s.target fd) kept
  | .finish w => forget s (some w) kept
  | _ => kept

/-- The step signals no thread that has finished or been reset since it was remembered, and
leaves no `SIGCONT` pending when a worker of the pool comes to `THREAD_RET`. -/
def Undisturbed (p : State × (ℕ → Bool)) (a : Label) : Prop :=
  (∀ fd ∈ a.fd, p.1.target fd ≠ none → p.2 fd = true) ∧
    ∀ w ∈ a.returns, (p.1.workers w).tmpFlag = false → (p.1.workers w).cont = false

instance (p : State × (ℕ → Bool)) (a : Label) : Decidable (Undisturbed p a) :=
  inferInstanceAs (Decidable ((∀ fd ∈ a.fd, _) ∧ ∀ w ∈ a.returns, _))

/-- The invariant: queued workers have no event and are queued once, and a thread that is kept
serves an event of the descriptor. -/
structure Serving (cnt : ℕ) (p : State × (ℕ → Bool)) : Prop where
  valid : Valid cnt p.1
  nodup : p.1.idle.Nodup
  free : ∀ w ∈ p.1.idle, (p.1.workers w).event = none
  kept : ∀ fd w, p.2 fd = true → p.1.target fd = some w →
    ∃ e, (p.1.workers w).event = some e ∧ Of fd e

section Steps

variable {cnt w : ℕ} {s s' : State} {kept kept' : ℕ → Bool}

/-- A worker that is kept is not queued. -/
theorem Serving.not_mem_idle {fd : ℕ} (h : Serving cnt (s, kept)) (hkept : kept fd = true)
    (htarget : s.target fd = some w) : w ∉ s.idle := by
  intro hidle
  obtain ⟨e, he, -⟩ := h.kept fd w hkept htarget
  have hnone := h.free w hidle
  rw [hnone] at he
  simp at he

/-- A worker's record is written, and it goes on with its event. -/
theorem Serving.setWorker {d : ThreadData} (h : Serving cnt (s, kept))
    (hvalid : Valid cnt (s.setWorker w d)) (hevent : d.event = (s.workers w).event)
    (hlive : (s.workers w).status ≠ .exited) : Serving cnt (s.setWorker w d, kept) := by
  have hsame : ∀ v, ((s.setWorker w d).workers v).event = (s.workers v).event := by
    intro v
    rw [State.setWorker_workers, Function.update_apply]
    split_ifs with hvw
    · rw [hvw, hevent]
    · rfl
  refine ⟨hvalid, h.nodup, ?_, ?_⟩
  · intro v hv
    rw [hsame]
    exact h.free v hv
  · intro fd v hfd hv
    rw [hsame]
    refine h.kept fd v hfd ?_
    obtain ⟨hthid, hlive'⟩ := target_eq_some.mp hv
    refine target_eq_some.mpr ⟨hthid, ?_⟩
    rw [State.setWorker_workers, Function.update_apply] at hlive'
    split_ifs at hlive' with hvw
    · rw [hvw]
      exact hlive
    · exact hlive'

theorem forget_some {fd : ℕ} : forget s (some w) kept fd = true ↔
    kept fd = true ∧ s.timer fd ≠ some (.worker w) := by
  simp [forget]

/-- A record is written that no kept entry stands for. -/
theorem Serving.kept_setWorker {d : ThreadData} (h : Serving cnt (s, kept))
    (hw : ∀ fd, kept' fd = true → kept fd = true ∧ s.timer fd ≠ some (.worker w)) {fd v : ℕ}
    (hfd : kept' fd = true) (hv : (s.setWorker w d).target fd = some v) :
    ∃ e, ((s.setWorker w d).workers v).event = some e ∧ Of fd e := by
  obtain ⟨hkept, hne⟩ := hw fd hfd
  obtain ⟨hthid, hlive⟩ := target_eq_some.mp hv
  have hvw : v ≠ w := by
    rintro rfl
    exact hne hthid
  rw [State.setWorker_workers, Function.update_of_ne hvw] at hlive ⊢
  exact h.kept fd v hkept (target_eq_some.mpr ⟨hthid, hlive⟩)

/-- No kept entry stands for a queued worker. -/
theorem Serving.timer_ne_of_idle (h : Serving cnt (s, kept)) (hidle : w ∈ s.idle) (fd : ℕ)
    (hfd : kept fd = true) : kept fd = true ∧ s.timer fd ≠ some (.worker w) := by
  refine ⟨hfd, fun hthid => ?_⟩
  have hlive := (h.valid.pool w (h.valid.idle w hidle)).1
  exact h.not_mem_idle hfd (target_eq_some.mpr ⟨hthid, hlive⟩) hidle

/-- `thread_pool_alloc` disturbs nobody who is kept, and gives the event to the worker it
returns. -/
theorem Serving.threadPoolAlloc (h : Serving cnt (s, kept)) (e : EventData) (created : Bool) :
    Serving cnt ((s.threadPoolAlloc e created).2, kept) ∧
      ∀ w, (s.threadPoolAlloc e created).1 = .worker w →
        ((s.threadPoolAlloc e created).2.workers w).event = some e := by
  have hvalid := (h.valid.threadPoolAlloc e created).1
  rcases h.valid.threadPoolAlloc_cases e created with ⟨w, rest, hidle, halloc⟩ | halloc | halloc
  · rw [halloc] at hvalid ⊢
    have hnodup : (w :: rest).Nodup := hidle ▸ h.nodup
    have hmem : w ∈ s.idle := by
      rw [hidle]
      exact List.mem_cons_self
    obtain ⟨hlive, -⟩ := h.valid.pool w (h.valid.idle w hmem)
    refine ⟨⟨hvalid, (List.nodup_cons.mp hnodup).2, ?_, ?_⟩, ?_⟩
    · intro v hv
      have hvw : v ≠ w := by
        rintro rfl
        exact (List.nodup_cons.mp hnodup).1 hv
      dsimp only
      rw [State.setWorker_workers, Function.update_of_ne hvw]
      refine h.free v ?_
      rw [hidle]
      exact List.mem_cons_of_mem w hv
    · intro fd v hfd hv
      exact h.kept_setWorker (h.timer_ne_of_idle hmem) hfd hv
    · rintro _ ⟨⟩
      dsimp only
      rw [State.setWorker_workers, Function.update_self]
      -- the worker was queued, so it is at `RESTART`
      have hnone := h.free w hmem
      rw [h.valid.event_eq_none (h.valid.idle w hmem)] at hnone
      exact ThreadData.event_call hnone.1
  · rw [halloc] at hvalid ⊢
    refine ⟨⟨hvalid, h.nodup, ?_, ?_⟩, ?_⟩
    · intro v hv
      have hvw : v ≠ s.threads := by
        rintro rfl
        exact absurd (h.valid.idle _ hv) (Nat.not_lt.mpr h.valid.threads)
      dsimp only
      rw [State.setWorker_workers, Function.update_of_ne hvw]
      exact h.free v hv
    · intro fd v hfd hv
      refine h.kept_setWorker (w := s.threads) ?_ hfd hv
      intro fd' hfd'
      refine ⟨hfd', fun hthid => ?_⟩
      exact Nat.lt_irrefl _ (h.valid.remembered fd' _ hthid).1
    · rintro _ ⟨⟩
      dsimp only
      rw [State.setWorker_workers, Function.update_self]
      rfl
  · rw [halloc] at hvalid ⊢
    exact ⟨h, by rintro w ⟨⟩⟩

/-- A worker that comes back to `RESTART` is forgotten. -/
theorem Serving.restart (h : Serving cnt (s, kept)) :
    Serving cnt (s.setWorker w (s.workers w).restart, forget s (some w) kept) := by
  have hvalid : Valid cnt (s.setWorker w (s.workers w).restart) :=
    h.valid.setWorker (by rintro - ⟨⟩) rfl id (h.valid.called w)
  refine ⟨hvalid, h.nodup, ?_, ?_⟩
  · intro v hv
    have hnone := h.free v hv
    have hlt := h.valid.idle v hv
    rw [hvalid.event_eq_none hlt, State.setWorker_workers, Function.update_apply]
    rw [h.valid.event_eq_none hlt] at hnone
    split_ifs with hvw
    · rw [← hvw]
      exact ⟨rfl, hnone.2⟩
    · exact hnone
  · intro fd v hfd hv
    exact h.kept_setWorker (fun fd' hfd' => forget_some.mp hfd') hfd hv

/-- A timer entry is written. If its descriptor is kept, the worker written has its event. -/
theorem Serving.setTimer {fd : ℕ} {p : Option ThreadId} (h : Serving cnt (s, kept))
    (hvalid : Valid cnt (s.setTimer fd p)) (hkept : ∀ fd', fd' ≠ fd → kept' fd' = kept fd')
    (hnew : ∀ v, p = some (.worker v) → kept' fd = true →
      ∃ e, (s.workers v).event = some e ∧ Of fd e) : Serving cnt (s.setTimer fd p, kept') := by
  refine ⟨hvalid, h.nodup, h.free, ?_⟩
  intro fd' v hfd' hv
  obtain ⟨hthid, hlive⟩ := target_eq_some.mp hv
  rw [State.setTimer_timer, Function.update_apply] at hthid
  split_ifs at hthid with hsame
  · subst hsame
    exact hnew v hthid hfd'
  · dsimp only at hfd'
    rw [hkept fd' hsame] at hfd'
    exact h.kept fd' v hfd' (target_eq_some.mpr ⟨hthid, hlive⟩)

/-- A timer entry is cleared. -/
theorem Serving.clearTimer {fd : ℕ} (h : Serving cnt (s, kept)) :
    Serving cnt (s.setTimer fd none, kept) :=
  h.setTimer (h.valid.setTimer (by rintro v ⟨⟩)) (fun _ _ => rfl) (by rintro v ⟨⟩)

theorem Serving.timerCleaner {fd : ℕ} (h : Serving cnt (s, kept))
    (hstep : s.timerCleaner fd = some s') : Serving cnt (s', forget s (s.target fd) kept) := by
  rcases timerCleaner_cases hstep with ⟨w, htarget, rfl⟩ | ⟨htarget, rfl⟩
  · rw [htarget]
    exact h.restart.clearTimer
  · rw [htarget]
    exact h.clearTimer

/-- A temporary worker exits, and is forgotten. -/
theorem Serving.exit (h : Serving cnt (s, kept))
    (hvalid : Valid cnt (s.setWorker w { s.workers w with status := .exited })) :
    Serving cnt (s.setWorker w { s.workers w with status := .exited },
      forget s (some w) kept) := by
  refine ⟨hvalid, h.nodup, ?_, ?_⟩
  · intro v hv
    dsimp only
    rw [State.setWorker_workers, Function.update_apply]
    split_ifs
    · rfl
    · exact h.free v hv
  · intro fd v hfd hv
    exact h.kept_setWorker (fun fd' hfd' => forget_some.mp hfd') hfd hv

/-- A worker that has finished is put back, and is forgotten. No signal may be pending. -/
theorem Serving.requeue {e : EventData} (h : Serving cnt (s, kept))
    (hvalid : Valid cnt { s.setWorker w (s.workers w).restart with idle := s.idle ++ [w] })
    (hstatus : (s.workers w).status = .running e) (htmp : (s.workers w).tmpFlag = false)
    (hcont : (s.workers w).cont = false) :
    Serving cnt ({ s.setWorker w (s.workers w).restart with idle := s.idle ++ [w] },
      forget s (some w) kept) := by
  have hrestart := h.restart (w := w)
  have hidle : w ∉ s.idle := by
    intro hw
    have hnone := h.free w hw
    simp [ThreadData.event, hstatus] at hnone
  refine ⟨hvalid, ?_, ?_, hrestart.kept⟩
  · exact List.nodup_append.mpr ⟨h.nodup, List.nodup_singleton w, by
      rintro v hv _ hw rfl
      rw [List.mem_singleton] at hw
      exact hidle (hw ▸ hv)⟩
  · intro v hv
    rcases List.mem_append.mp hv with hv | hv
    · exact hrestart.free v hv
    · obtain rfl := List.mem_singleton.mp hv
      dsimp only
      rw [State.setWorker_workers, Function.update_self,
        ThreadData.event_restart htmp (h.valid.called v)]
      exact hcont

/-- A worker that has an event keeps it when it gets `SIGCONT`. -/
theorem event_sigcont_eq {d : ThreadData} {e : EventData} (h : d.event = some e) :
    d.sigcont.event = some e := by
  rw [ThreadData.event] at h ⊢
  split at h
  · rename_i e' hstatus
    rw [show d.sigcont.status = .running e' from hstatus]
    exact h
  · rename_i e' hstatus
    rw [show d.sigcont.status = .blocked e' from hstatus]
    exact h
  · rename_i hstatus
    rw [show d.sigcont.status = .waiting from hstatus]
    split_ifs at h
    exact h
  · simp at h

/-- **One step.** An undisturbed step keeps the invariant. -/
theorem Serving.step {a : Label} (h : Serving cnt (s, kept))
    (hundisturbed : Undisturbed (s, kept) a) (hstep : Worker.step s a = some s') :
    Serving cnt (s', record s a kept) := by
  have hvalid' : Valid cnt s' := h.valid.step hstep
  cases a with
  | accept fd =>
    simp only [Worker.step] at hstep
    split_ifs at hstep
    obtain rfl := Option.some.inj hstep
    exact h.setTimer hvalid' (fun _ _ => rfl) (by rintro v ⟨⟩)
  | rdEvent e created =>
    rcases rdEvent_cases hstep with ⟨hfd, rfl⟩ | ⟨fd, hfd, ⟨w, htarget, rfl⟩ | ⟨htarget, rfl⟩⟩
    · rw [record, hfd]
      exact h
    · rw [record, hfd]
      dsimp only
      rw [if_neg (by rw [htarget]; rintro ⟨⟩)]
      have hkept : kept fd = true := hundisturbed.1 fd hfd (by rw [htarget]; rintro ⟨⟩)
      -- the descriptor keeps its worker, whose entry is the event that came last
      obtain ⟨e', he', -⟩ := h.kept fd w hkept htarget
      refine h.setWorker hvalid' ?_ (target_eq_some.mp htarget).2
      rw [he', event_sigcont_eq he']
    · rw [record, hfd]
      dsimp only
      rw [if_pos htarget]
      -- no worker is remembered: one is taken or created for this event
      obtain ⟨halloc, hevent⟩ := h.threadPoolAlloc e created
      refine halloc.setTimer hvalid' (fun fd' hne => Function.update_of_ne hne _ _) ?_
      intro v hthid _
      exact ⟨e, hevent v (Option.some.inj hthid), Or.inl hfd⟩
  | outEvent e =>
    rcases outEvent_cases hstep with ⟨hfd, rfl⟩ | ⟨fd, hfd, hclean⟩
    · rw [record, hfd]
      exact h
    · rw [record, hfd]
      exact h.timerCleaner hclean
  | timerCleaner fd => exact h.timerCleaner hstep
  | reconnect e created =>
    obtain rfl := Option.some.inj hstep
    exact (h.threadPoolAlloc e created).1
  | wake w =>
    obtain ⟨e, hstatus, hcont, hdata, rfl⟩ := wake_cases hstep
    refine h.setWorker hvalid' ?_ (by rw [hstatus]; rintro ⟨⟩)
    simp [ThreadData.event, ThreadData.run, hstatus, hcont, hdata]
  | block w =>
    obtain ⟨e, hstatus, rfl⟩ := block_cases hstep
    refine h.setWorker hvalid' ?_ (by rw [hstatus]; rintro ⟨⟩)
    simp [ThreadData.event, hstatus]
  | resume w =>
    obtain ⟨e, hstatus, hcont, rfl⟩ := resume_cases hstep
    refine h.setWorker hvalid' ?_ (by rw [hstatus]; rintro ⟨⟩)
    simp [ThreadData.event, ThreadData.run, hstatus]
  | finish w =>
    obtain ⟨e, hstatus, ⟨htmp, rfl⟩ | ⟨htmp, rfl⟩⟩ := finish_cases hstep
    · -- a temporary worker ends, one of the pool is queued again
      exact h.exit hvalid'
    · exact h.requeue hvalid' hstatus htmp (hundisturbed.2 w rfl htmp)

theorem Serving.start : Serving cnt (start cnt, fun _ => false) := by
  refine ⟨Valid.start, List.nodup_range, ?_, ?_⟩
  · intro w hw
    have hlt : w < cnt := List.mem_range.mp hw
    simp [Worker.start, hlt, ThreadData.event]
  · rintro fd w ⟨⟩

/-- **The right worker.** Along every run that signals no thread which has finished or been
reset since it was remembered, and in which no worker of the pool comes to `THREAD_RET` with a
`SIGCONT` pending, every signal reaches a worker that serves an event of the connection. -/
theorem right_of_undisturbed (cnt : ℕ) (as : List Label)
    (h : Runs.Meets (Runs.recorded record step) Undisturbed (Worker.start cnt, fun _ => false) as) :
    Runs.Meets step Right (Worker.start cnt) as := by
  refine Runs.Meets.of_recorded record (Runs.meets_of_inv ?_ ?_ (@Serving.start cnt) h)
  · rintro ⟨s, kept⟩ a ⟨s', kept'⟩ hs hundisturbed hstep
    obtain ⟨s'', hs'', heq⟩ := Option.map_eq_some_iff.mp hstep
    cases heq
    exact hs.step hundisturbed hs''
  · rintro ⟨s, kept⟩ a - hs hundisturbed - fd hfd w hw
    have hkept := hundisturbed.1 fd hfd (by rw [Option.mem_def.mp hw]; rintro ⟨⟩)
    obtain ⟨e, he, hof⟩ := hs.kept fd w hkept hw
    exact ⟨e, he, hof⟩

/-- A second readable event while the first is handled, and then the time runs out. -/
theorem right_timedOut : Runs.Meets step Right (Worker.start 1)
    [.accept 7, .rdEvent ⟨7, 0, .commonRdEvent, none⟩ true, .wake 0,
      .rdEvent ⟨7, 0, .commonRdEvent, none⟩ true, .timerCleaner 7] :=
  right_of_undisturbed 1 _ (by decide)

/-- Two connections have the same worker, one after the other; the time of the first runs out
while it handles the second. -/
theorem not_right_recycled :
    ¬ ∀ (cnt : ℕ) (as : List Label), Runs.Meets step Right (Worker.start cnt) as := by
  intro h
  have hrun := h 1 [.accept 7, .rdEvent ⟨7, 0, .commonRdEvent, none⟩ true, .wake 0, .finish 0,
    .accept 8, .rdEvent ⟨8, 0, .commonRdEvent, none⟩ true, .wake 0, .timerCleaner 7]
  revert hrun
  decide

end Steps

end Worker

end Lidas
