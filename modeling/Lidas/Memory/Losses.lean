import Lidas.Memory.Queue

/-!
# What the ring loses

When `Q_IS_FULL` misses a full queue, `queue_in` accepts an element and the queue is empty then. So
what gets lost is `max` elements at once: those that were stored and the new one. Nothing else gets
lost in any run, nothing is returned twice, and what is returned comes in the order in which it was
accepted (`Traffic.dropped_run`).
-/

namespace Lidas

/-- A queue, with the elements that `queue_in` has accepted and those that `queue_out` has
returned. -/
structure Traffic where
  queue : LidaQueue
  accepted : List ℕ
  returned : List ℕ

namespace Traffic

/-- After `queue_init`. -/
def start (max : ℕ) (h : 0 < max) : Traffic where
  queue := LidaQueue.queueInit max h
  accepted := []
  returned := []

/-- A call, and what its caller sees of it. -/
def step (s : Traffic) : QueueOp → Traffic
  | .queueIn d => {
      queue := (s.queue.queueIn d).2
      accepted := if (s.queue.queueIn d).1 = 0 then s.accepted ++ [(d : ℕ)] else s.accepted
      returned := s.returned }
  | .queueOut => {
      queue := s.queue.queueOut.2
      accepted := s.accepted
      returned := if s.queue.queueOut.1 = 0 then s.returned
        else s.returned ++ [s.queue.queueOut.1] }

/-- Where the elements are: what is stored came last, and before it blocks of `max` are missing in
what has been returned. -/
structure Accounted (max : ℕ) (s : Traffic) : Prop where
  max_eq : s.queue.max = max
  pos : ∀ d ∈ s.queue.entries, d ≠ 0
  before : ∃ gone, s.accepted = gone ++ s.queue.entries ∧ Fifo.Dropped max gone s.returned

variable {max : ℕ} {s : Traffic}

theorem accounted_start (h : 0 < max) : Accounted max (start max h) where
  max_eq := rfl
  pos := by simp [start]
  before := ⟨[], rfl, .nil⟩

theorem max_queueIn (h : LidaQueue) (d : ℕ) : (h.queueIn d).2.max = h.max := by
  rw [LidaQueue.queueIn]
  split_ifs <;> rfl

theorem Accounted.queueIn (h : Accounted max s) (d : ℕ+) :
    Accounted max (s.step (.queueIn d)) := by
  obtain ⟨gone, haccepted, hdropped⟩ := h.before
  by_cases hfull : s.queue.Full
  · rcases s.queue.queueIn_of_full d hfull with ⟨-, hin⟩ | ⟨-, hin, hentries⟩
    · rw [step, hin, if_neg (by simp)]
      exact ⟨h.max_eq, h.pos, h.before⟩
    · -- the elements that were stored and the new one are a block
      have hblock : (s.queue.entries ++ [(d : ℕ)]).length = max := by
        have hlt := s.queue.count_lt
        rw [List.length_append, s.queue.length_entries, hfull, ← h.max_eq, List.length_singleton]
        omega
      rw [step, if_pos hin]
      refine ⟨(max_queueIn _ _).trans h.max_eq, ?_, s.accepted ++ [(d : ℕ)], ?_, ?_⟩
      · rw [hentries]
        exact fun _ hmem => absurd hmem List.not_mem_nil
      · rw [hentries, List.append_nil]
      · rw [haccepted, List.append_assoc]
        exact .drop hblock hdropped
  · obtain ⟨hin, hentries, -, hmax⟩ := s.queue.queueIn_of_not_full d hfull
    rw [step, if_pos hin]
    refine ⟨hmax.trans h.max_eq, ?_, gone, ?_, hdropped⟩
    · rw [hentries]
      exact List.forall_mem_append.mpr ⟨h.pos, List.forall_mem_singleton.mpr d.ne_zero⟩
    · rw [hentries, haccepted, List.append_assoc]

theorem Accounted.queueOut (h : Accounted max s) : Accounted max (s.step .queueOut) := by
  obtain ⟨gone, haccepted, hdropped⟩ := h.before
  cases hstored : s.queue.entries with
  | nil =>
    rw [step, s.queue.queueOut_of_nil hstored, if_pos rfl]
    exact h
  | cons d ds =>
    obtain ⟨hout, hentries, -, hmax⟩ := s.queue.queueOut_of_cons hstored
    have hpos := h.pos
    rw [hstored] at hpos haccepted
    obtain ⟨hd, hds⟩ := List.forall_mem_cons.mp hpos
    rw [step, hout, if_neg hd]
    refine ⟨hmax.trans h.max_eq, ?_, gone ++ [d], ?_, hdropped.keep d⟩
    · rw [hentries]
      exact hds
    · rw [hentries, haccepted, List.append_assoc]
      rfl

theorem Accounted.run (h : Accounted max s) (ops : List QueueOp) :
    Accounted max (ops.foldl step s) := by
  induction ops generalizing s with
  | nil => exact h
  | cons op ops ih =>
    cases op with
    | queueIn d => exact ih (h.queueIn d)
    | queueOut => exact ih h.queueOut

theorem Accounted.dropped (h : Accounted max s) :
    Fifo.Dropped max s.accepted (s.returned ++ s.queue.entries) := by
  obtain ⟨gone, haccepted, hdropped⟩ := h.before
  rw [haccepted]
  exact hdropped.append _

/-- Nothing is returned twice or out of order, and the number of elements lost is a multiple of
`max`. -/
theorem Accounted.sublist (h : Accounted max s) :
    (s.returned ++ s.queue.entries).Sublist s.accepted ∧
      ∃ k, s.accepted.length = (s.returned ++ s.queue.entries).length + k * max :=
  ⟨h.dropped.sublist, h.dropped.length_eq⟩

/-- **The ring loses whole rings.** After every run of `queue_in` and `queue_out` the elements that
have been returned, and behind them those that are stored, are the ones that were accepted, in
their order and without some blocks of `max` consecutive elements. -/
theorem dropped_run (h : 0 < max) (ops : List QueueOp) :
    Fifo.Dropped max (ops.foldl step (start max h)).accepted
      ((ops.foldl step (start max h)).returned ++
        (ops.foldl step (start max h)).queue.entries) :=
  ((accounted_start h).run ops).dropped

/-- In a queue of two slots the elements 5 and 6 are lost, and 7 is stored. -/
theorem dropped_run_twoSlots :
    Fifo.Dropped 2 [5, 6, 7] (([QueueOp.queueIn 5, .queueIn 6, .queueOut, .queueIn 7].foldl step
      (start 2 Nat.zero_lt_two)).returned ++ [7]) :=
  dropped_run Nat.zero_lt_two [.queueIn 5, .queueIn 6, .queueOut, .queueIn 7]

end Traffic

end Lidas
