import Lidas.Worker.Pool

/-!
# Handing an event to a worker

`thread_pool_alloc` takes workers from the queue until `pthread_kill` does not report one dead. With
an empty queue it creates a temporary worker, and starts again if that fails for want of resources.
The results of `pthread_kill` and `pthread_create` are two sequences.

The event is written to `data` before `SIGCONT` is sent, and an error other than `ESRCH` leaves it
there (`handsOver_iff`). A temporary worker gets no signal. The last worker of the queue is never
handed anything: `queue_chain_out` follows a null pointer when it takes the last node, so that the
call returns only if the queue is empty, or another worker is behind the one that is taken
(`returns_iff`). A call that returns does what `State.threadPoolAlloc` does (`threadPoolAlloc_eq`).
-/

namespace Lidas

namespace Worker

/-- The result of `pthread_kill`. -/
inductive KillRes where
  | sent
  | esrch
  | error
  deriving DecidableEq

/-- The result of `pthread_create`. -/
inductive CreateRes where
  | created
  | eagain
  | error
  deriving DecidableEq

/-- The queue of the pool, and the workers with the event that `data` points to. -/
structure Crew where
  idle : List ℕ
  /-- `thread_data_t.data` -/
  data : ℕ → Option ℕ
  /-- the number of threads created -/
  threads : ℕ

/-- How a call of `thread_pool_alloc` ends: it returns an id, `dead` being the workers that were
freed and `woken` those that were sent `SIGCONT`. Or it uses `NULL`, or memory that it has freed. -/
inductive HandedOver where
  | returned (id : ThreadId) (c : Crew) (dead woken : List ℕ)
  | crashed

namespace Crew

/-- `queue_chain_out` has taken the worker, and the event is written to its `data`. -/
def take (c : Crew) (q w : ℕ) (rest : List ℕ) : Crew :=
  { c with idle := rest, data := Function.update c.data w (some q) }

/-- `tmp_thread_port` has created a worker. -/
def create (c : Crew) (q : ℕ) : Crew :=
  { c with data := Function.update c.data c.threads (some q), threads := c.threads + 1 }

variable (q : ℕ) (kills : ℕ → KillRes) (creates : ℕ → CreateRes)

/-- `thread_pool_alloc` from `START`, of no more than the given number of rounds; `i` and `j` are
the numbers of the calls of `pthread_kill` and `pthread_create` before. -/
def allocFrom : ℕ → ℕ → ℕ → List ℕ → Crew → Option HandedOver
  | 0, _, _, _, _ => none
  | fuel + 1, i, j, dead, c =>
    match c.idle with
    | [] =>
      match creates j with
      | .created => some (.returned (.worker c.threads) (c.create q) dead [])
      -- `longjmp`
      | .eagain => allocFrom fuel i (j + 1) dead c
      -- `-1` is not negative as a `pthread_t`, and is returned as an id
      | .error => some (.returned .failed c dead [])
    -- the last node has none behind it
    | [_] => some .crashed
    | w :: rest =>
      if w ∈ dead then some .crashed
      else
        match kills i with
        | .sent => some (.returned (.worker w) (c.take q w rest) dead [w])
        | .esrch => allocFrom fuel (i + 1) j (w :: dead) (c.take q w rest)
        | .error => some (.returned .failed (c.take q w rest) dead [])

/-- `thread_pool_alloc`. -/
def threadPoolAlloc (fuel : ℕ) (c : Crew) : Option HandedOver :=
  c.allocFrom q kills creates fuel 0 0 []

/-- An id that is returned is that of the one worker that has the event and was sent `SIGCONT`, and
besides it only dead workers have left the queue. If `-1` is returned, no worker has the event and
only dead ones have left the queue. -/
structure HandsOver (c : Crew) : Prop where
  worker : ∀ fuel w c' dead woken,
    threadPoolAlloc q kills creates fuel c = some (.returned (.worker w) c' dead woken) →
    (∀ v, v ∉ dead ∧ c'.data v = some q ∧ v ∈ woken ↔ v = w) ∧
      ∀ v ∈ c.idle, v ∉ c'.idle → v = w ∨ v ∈ dead
  failed : ∀ fuel c' dead woken,
    threadPoolAlloc q kills creates fuel c = some (.returned .failed c' dead woken) →
    (∀ v, v ∉ dead → c'.data v ≠ some q) ∧ ∀ v ∈ c.idle, v ∉ c'.idle → v ∈ dead

/-- The result of `pthread_kill` is `r` for a worker that is taken from the queue and has others
behind it, after those in front of it have been reported dead. -/
def Answers (r : KillRes) (i : ℕ) (dead : List ℕ) (idle : List ℕ) : Prop :=
  ∃ k, k + 1 < idle.length ∧ (∀ m < k, kills (i + m) = .esrch) ∧ kills (i + k) = r ∧
    (idle.take (k + 1)).Nodup ∧ ∀ v ∈ idle.take (k + 1), v ∉ dead

/-- `pthread_kill` does not fail. With an empty queue `pthread_create` does, and no worker has kept
the event. -/
def Unfailing (c : Crew) : Prop :=
  ¬Answers kills .error 0 [] c.idle ∧
    (c.idle = [] → ∀ k, (∀ j < k, creates j = .eagain) →
      creates k ≠ .created ∧ (creates k = .error → ∀ v, c.data v ≠ some q))

variable {q kills creates} {fuel i j w : ℕ} {dead dead' woken rest : List ℕ} {c c' : Crew}
  {id : ThreadId} {r : KillRes}

/-! ### Rounds -/

theorem allocFrom_cons (hidle : c.idle = w :: rest) (hrest : rest ≠ []) (kills : ℕ → KillRes)
    (creates : ℕ → CreateRes) (fuel i j : ℕ) (dead : List ℕ) :
    allocFrom q kills creates (fuel + 1) i j dead c =
      if w ∈ dead then some .crashed
      else
        match kills i with
        | .sent => some (.returned (.worker w) (c.take q w rest) dead [w])
        | .esrch => allocFrom q kills creates fuel (i + 1) j (w :: dead) (c.take q w rest)
        | .error => some (.returned .failed (c.take q w rest) dead []) := by
  obtain ⟨v, rest, rfl⟩ := List.exists_cons_of_ne_nil hrest
  rw [allocFrom, hidle]

theorem answers_cons (hrest : rest ≠ []) :
    Answers kills r i dead (w :: rest) ↔ w ∉ dead ∧
      (kills i = r ∨ kills i = .esrch ∧ Answers kills r (i + 1) (w :: dead) rest) := by
  have hlength := List.length_pos_iff.mpr hrest
  have hshift : ∀ m, i + 1 + m = i + (m + 1) := fun m => by omega
  constructor
  · rintro ⟨k, hk, hdead, hlast, hnodup, hfree⟩
    refine ⟨hfree w (by simp), ?_⟩
    cases k with
    | zero => exact Or.inl hlast
    | succ k =>
      rw [List.take_succ_cons] at hnodup hfree
      obtain ⟨hw, hnodup⟩ := List.nodup_cons.mp hnodup
      refine Or.inr ⟨hdead 0 (Nat.succ_pos k), k, by simpa using hk, fun m hm => ?_, ?_, hnodup,
        fun v hv => ?_⟩
      · rw [hshift]
        exact hdead (m + 1) (by omega)
      · rw [hshift]
        exact hlast
      · rw [List.mem_cons, not_or]
        exact ⟨ne_of_mem_of_not_mem hv hw, hfree v (List.mem_cons_of_mem w hv)⟩
  · rintro ⟨hw, hlast | ⟨hesrch, k, hk, hdead, hlast, hnodup, hfree⟩⟩
    · refine ⟨0, by simpa using hlength, fun m hm => absurd hm (Nat.not_lt_zero m), hlast, ?_, ?_⟩
      · simp
      · simpa using hw
    · refine ⟨k + 1, by simpa using hk, fun m hm => ?_, ?_, ?_, ?_⟩
      · cases m with
        | zero => exact hesrch
        | succ m =>
          rw [← hshift]
          exact hdead m (by omega)
      · rw [← hshift]
        exact hlast
      · rw [List.take_succ_cons, List.nodup_cons]
        exact ⟨fun hmem => hfree w hmem List.mem_cons_self, hnodup⟩
      · rw [List.take_succ_cons, List.forall_mem_cons]
        exact ⟨hw, fun v hv hv' => hfree v hv (List.mem_cons_of_mem w hv')⟩

/-- The workers that were freed stay freed. -/
theorem mem_dead_of_returned
    (h : allocFrom q kills creates fuel i j dead c = some (.returned id c' dead' woken)) :
    ∀ v ∈ dead, v ∈ dead' := by
  induction fuel generalizing i j dead c with
  | zero => cases h
  | succ fuel ih =>
    rw [allocFrom] at h
    split at h
    · split at h
      · obtain ⟨-, -, rfl, -⟩ := HandedOver.returned.inj (Option.some.inj h)
        exact fun _ hv => hv
      · exact ih h
      · obtain ⟨-, -, rfl, -⟩ := HandedOver.returned.inj (Option.some.inj h)
        exact fun _ hv => hv
    · cases h
    · split_ifs at h
      · cases h
      · split at h
        · obtain ⟨-, -, rfl, -⟩ := HandedOver.returned.inj (Option.some.inj h)
          exact fun _ hv => hv
        · exact fun v hv => ih h v (List.mem_cons_of_mem _ hv)
        · obtain ⟨-, -, rfl, -⟩ := HandedOver.returned.inj (Option.some.inj h)
          exact fun _ hv => hv

/-- A call with workers in the queue that returns has woken the worker it returns, and freed the
others it has taken, or `pthread_kill` fails. -/
theorem woken_or_failed (hidle : c.idle ≠ [])
    (h : allocFrom q kills creates fuel i j dead c = some (.returned id c' dead' woken)) :
    (∃ w, id = .worker w ∧ woken = [w] ∧ w ∉ dead' ∧ c'.data w = some q ∧
      (∀ v ∈ c.idle, v ∉ c'.idle → v = w ∨ v ∈ dead') ∧ Answers kills .sent i dead c.idle) ∨
      id = .failed ∧ Answers kills .error i dead c.idle := by
  induction fuel generalizing i j dead c with
  | zero => cases h
  | succ fuel ih =>
    obtain ⟨w, rest, hcons⟩ := List.exists_cons_of_ne_nil hidle
    by_cases hrest : rest = []
    · rw [allocFrom, hcons, hrest] at h
      cases h
    rw [allocFrom_cons hcons hrest] at h
    rw [hcons, answers_cons hrest, answers_cons hrest]
    split_ifs at h with hw
    · cases h
    · split at h
      · rename_i hkill
        obtain ⟨rfl, rfl, rfl, rfl⟩ := HandedOver.returned.inj (Option.some.inj h)
        refine Or.inl ⟨w, rfl, rfl, hw, Function.update_self .., fun v hv hleft => ?_, hw,
          Or.inl hkill⟩
        exact Or.inl ((List.mem_cons.mp hv).resolve_right hleft)
      · rename_i hkill
        rcases ih (c := c.take q w rest) hrest h with
          ⟨v, hid, hwoken, hv, hdata, hleft, hsent⟩ | ⟨hid, herror⟩
        · refine Or.inl ⟨v, hid, hwoken, hv, hdata, fun u hu hnot => ?_, hw, Or.inr ⟨hkill, hsent⟩⟩
          rcases List.mem_cons.mp hu with rfl | hu
          · exact Or.inr (mem_dead_of_returned h u List.mem_cons_self)
          · exact hleft u hu hnot
        · exact Or.inr ⟨hid, hw, Or.inr ⟨hkill, herror⟩⟩
      · rename_i hkill
        obtain ⟨rfl, -⟩ := HandedOver.returned.inj (Option.some.inj h)
        exact Or.inr ⟨rfl, hw, Or.inl hkill⟩

/-- The call returns with the first result of `pthread_kill` that is not `ESRCH`, and the worker it
is about has the event. -/
theorem exists_returned (hanswers : Answers kills r i dead c.idle) (hr : r ≠ .esrch) (q : ℕ)
    (creates : ℕ → CreateRes) (j : ℕ) :
    ∃ fuel id c' dead' woken w,
      allocFrom q kills creates fuel i j dead c = some (.returned id c' dead' woken) ∧
        (r = .error → id = .failed) ∧ w ∉ dead' ∧ c'.data w = some q := by
  obtain ⟨idle, hidle⟩ : ∃ idle, c.idle = idle := ⟨_, rfl⟩
  induction idle generalizing i dead c with
  | nil =>
    obtain ⟨k, hk, -⟩ := hanswers
    rw [hidle] at hk
    exact absurd hk (Nat.not_lt_zero _)
  | cons w rest ih =>
    rw [hidle] at hanswers
    have hrest : rest ≠ [] := by
      rintro rfl
      obtain ⟨k, hk, -⟩ := hanswers
      simp at hk
    obtain ⟨hw, hkill | ⟨hkill, hanswers⟩⟩ := (answers_cons hrest).mp hanswers
    · have hround := allocFrom_cons (q := q) hidle hrest kills creates 0 i j dead
      rw [if_neg hw, hkill] at hround
      cases r with
      | sent => exact ⟨1, _, _, _, _, w, hround, KillRes.noConfusion, hw, Function.update_self ..⟩
      | esrch => exact absurd rfl hr
      | error => exact ⟨1, _, _, _, _, w, hround, fun _ => rfl, hw, Function.update_self ..⟩
    · obtain ⟨fuel, id, c', dead', woken, v, hret, hv⟩ :=
        ih (c := c.take q w rest) hanswers rfl
      refine ⟨fuel + 1, id, c', dead', woken, v, ?_, hv⟩
      rw [allocFrom_cons hidle hrest, if_neg hw, hkill]
      exact hret

/-- With an empty queue the result is that of the first `pthread_create` that does not fail for want
of resources. -/
theorem allocFrom_of_nil {r : HandedOver} (hidle : c.idle = []) (kills : ℕ → KillRes) (i : ℕ)
    (dead : List ℕ) :
    (∃ fuel, allocFrom q kills creates fuel i j dead c = some r) ↔
      ∃ k, (∀ m < k, creates (j + m) = .eagain) ∧
        (creates (j + k) = .created ∧ .returned (.worker c.threads) (c.create q) dead [] = r ∨
          creates (j + k) = .error ∧ .returned .failed c dead [] = r) := by
  constructor
  · rintro ⟨fuel, h⟩
    -- the loop is followed call by call: each `EAGAIN` makes one more
    induction fuel generalizing j with
    | zero => cases h
    | succ fuel ih =>
      rw [allocFrom, hidle] at h
      dsimp only at h
      split at h
      · rename_i hcreate
        exact ⟨0, fun m hm => absurd hm (Nat.not_lt_zero m), Or.inl ⟨hcreate, Option.some.inj h⟩⟩
      · rename_i hcreate
        obtain ⟨k, hagain, hend⟩ := ih h
        refine ⟨k + 1, fun m hm => ?_, by rwa [show j + (k + 1) = j + 1 + k by omega]⟩
        cases m with
        | zero => exact hcreate
        | succ m =>
          rw [show j + (m + 1) = j + 1 + m by omega]
          exact hagain m (by omega)
      · rename_i hcreate
        exact ⟨0, fun m hm => absurd hm (Nat.not_lt_zero m), Or.inr ⟨hcreate, Option.some.inj h⟩⟩
  · rintro ⟨k, hagain, hend⟩
    -- `k` calls that fail with `EAGAIN` need `k + 1` rounds
    induction k generalizing j with
    | zero =>
      refine ⟨1, ?_⟩
      rw [allocFrom, hidle]
      rcases hend with ⟨hcreate, rfl⟩ | ⟨hcreate, rfl⟩
      · rw [Nat.add_zero] at hcreate
        rw [hcreate]
      · rw [Nat.add_zero] at hcreate
        rw [hcreate]
    | succ k ih =>
      obtain ⟨fuel, h⟩ := ih (j := j + 1)
        (fun m hm => by
          rw [show j + 1 + m = j + (m + 1) by omega]
          exact hagain (m + 1) (by omega))
        (by rwa [show j + 1 + k = j + (k + 1) by omega])
      have hcreate : creates j = .eagain := hagain 0 (Nat.succ_pos k)
      exact ⟨fuel + 1, by rw [allocFrom, hidle]; simp only [hcreate, h]⟩

/-! ### Handing over -/

theorem handsOver_of_nil (hidle : c.idle = []) :
    HandsOver q kills creates c ↔ ∀ k, (∀ j < k, creates j = .eagain) →
      creates k ≠ .created ∧ (creates k = .error → ∀ v, c.data v ≠ some q) := by
  have hshift : ∀ k, creates (0 + k) = creates k := fun k => by rw [Nat.zero_add]
  constructor
  · intro h k hagain
    constructor
    · intro hcreate
      obtain ⟨fuel, hret⟩ := (allocFrom_of_nil (q := q) hidle kills 0 []).mpr
        ⟨k, by simpa only [hshift], Or.inl ⟨(hshift k).trans hcreate, rfl⟩⟩
      have hwoken := ((h.worker fuel _ _ _ _ hret).1 c.threads).mpr rfl
      exact List.not_mem_nil hwoken.2.2
    · intro hcreate v
      obtain ⟨fuel, hret⟩ := (allocFrom_of_nil (q := q) hidle kills 0 []).mpr
        ⟨k, by simpa only [hshift], Or.inr ⟨(hshift k).trans hcreate, rfl⟩⟩
      exact (h.failed fuel _ _ _ hret).1 v List.not_mem_nil
  · intro h
    refine ⟨fun fuel w c' dead woken hret => ?_, fun fuel c' dead woken hret => ?_⟩
    · obtain ⟨k, hagain, ⟨hcreate, -⟩ | ⟨-, hend⟩⟩ :=
        (allocFrom_of_nil hidle kills 0 []).mp ⟨fuel, hret⟩
      · simp only [hshift] at hagain hcreate
        exact absurd hcreate (h k hagain).1
      · cases hend
    · obtain ⟨k, hagain, ⟨-, hend⟩ | ⟨hcreate, hend⟩⟩ :=
        (allocFrom_of_nil hidle kills 0 []).mp ⟨fuel, hret⟩
      · cases hend
      · simp only [hshift] at hagain hcreate
        obtain ⟨-, rfl, rfl, -⟩ := HandedOver.returned.inj hend
        refine ⟨fun v _ => (h k hagain).2 hcreate v, fun v hv => ?_⟩
        rw [hidle] at hv
        cases hv

theorem handsOver_of_ne_nil (hidle : c.idle ≠ []) :
    HandsOver q kills creates c ↔ ¬Answers kills .error 0 [] c.idle := by
  constructor
  · intro h herror
    obtain ⟨fuel, id, c', dead, woken, w, hret, hid, hw, hdata⟩ :=
      exists_returned herror KillRes.noConfusion q creates 0
    rw [hid rfl] at hret
    exact (h.failed fuel c' dead woken hret).1 w hw hdata
  · intro hkills
    refine ⟨fun fuel w c' dead woken hret => ?_, fun fuel c' dead woken hret => ?_⟩
    · rcases woken_or_failed hidle hret with ⟨w', hid, rfl, hw, hdata, hleft, -⟩ | ⟨hid, -⟩
      · obtain rfl := ThreadId.worker.inj hid
        refine ⟨fun v => ⟨fun hv => List.mem_singleton.mp hv.2.2, ?_⟩, hleft⟩
        rintro rfl
        exact ⟨hw, hdata, List.mem_singleton_self v⟩
      · cases hid
    · rcases woken_or_failed hidle hret with ⟨w, hid, -⟩ | ⟨-, herror⟩
      · cases hid
      · exact absurd herror hkills

/-- **Handing over** is right exactly if `pthread_kill` does not fail and, with an empty queue,
`pthread_create` does. -/
theorem handsOver_iff (q : ℕ) (kills : ℕ → KillRes) (creates : ℕ → CreateRes) (c : Crew) :
    HandsOver q kills creates c ↔ Unfailing q kills creates c := by
  by_cases hidle : c.idle = []
  · rw [handsOver_of_nil hidle, Unfailing, and_iff_right, forall_prop_of_true hidle]
    rintro ⟨k, hk, -⟩
    rw [hidle] at hk
    exact Nat.not_lt_zero _ hk
  · rw [handsOver_of_ne_nil hidle, Unfailing, and_iff_left fun hnil => absurd hnil hidle]

/-- A pool without workers. -/
def noWorkers : Crew where
  idle := []
  data := fun _ => none
  threads := 0

/-- The temporary worker is created, and gets no signal. -/
theorem not_handsOver_noWorkers :
    ¬∀ (q : ℕ) (kills : ℕ → KillRes) (creates : ℕ → CreateRes) (c : Crew),
      HandsOver q kills creates c := by
  intro h
  have hwoken := ((h 1 (fun _ => .sent) (fun _ => .created) noWorkers).worker 1 0 _ _ _ rfl).1 0
  exact List.not_mem_nil (hwoken.mpr rfl).2.2

/-! ### Calls that return -/

/-- A call with workers in the queue returns if one that is not the last is not reported dead. -/
theorem returns_iff (hidle : c.idle ≠ []) :
    (∃ fuel id c' dead woken,
      threadPoolAlloc q kills creates fuel c = some (.returned id c' dead woken)) ↔
      ∃ r, r ≠ .esrch ∧ Answers kills r 0 [] c.idle := by
  constructor
  · rintro ⟨fuel, id, c', dead, woken, hret⟩
    rcases woken_or_failed hidle hret with ⟨w, -, -, -, -, -, hsent⟩ | ⟨-, herror⟩
    · exact ⟨.sent, KillRes.noConfusion, hsent⟩
    · exact ⟨.error, KillRes.noConfusion, herror⟩
  · rintro ⟨r, hr, hanswers⟩
    obtain ⟨fuel, id, c', dead, woken, w, hret, -⟩ := exists_returned hanswers hr q creates 0
    exact ⟨fuel, id, c', dead, woken, hret⟩

section Pool

variable {s : State} {e : EventData} {created : Bool}

theorem allocFrom_eq (hidle : c.idle ≠ [])
    (hkills : ∀ k (h : k < c.idle.length),
      kills (i + k) = if (s.workers c.idle[k]).status = .exited then .esrch else .sent)
    (h : allocFrom q kills creates fuel i j dead c = some (.returned id c' dead' woken)) :
    (s.allocFrom e created c.idle).1 = id ∧ (s.allocFrom e created c.idle).2.idle = c'.idle := by
  induction fuel generalizing i j dead c with
  | zero => cases h
  | succ fuel ih =>
    obtain ⟨w, rest, hcons⟩ := List.exists_cons_of_ne_nil hidle
    by_cases hrest : rest = []
    · rw [allocFrom, hcons, hrest] at h
      cases h
    have hw := hkills 0 (by rw [hcons]; exact Nat.succ_pos _)
    simp only [hcons, List.getElem_cons_zero, Nat.add_zero] at hw
    rw [allocFrom_cons hcons hrest] at h
    rw [hcons, State.allocFrom]
    split_ifs at h with hdead
    · cases h
    · split_ifs at hw ⊢ with hexited
      · rw [hw] at h
        refine ih (c := c.take q w rest) hrest (fun k hk => ?_) h
        have hnext := hkills (k + 1) (by rw [hcons]; exact Nat.succ_lt_succ hk)
        simp only [hcons, List.getElem_cons_succ] at hnext
        rw [show i + 1 + k = i + (k + 1) by omega]
        exact hnext
      · rw [hw] at h
        obtain ⟨rfl, rfl, -⟩ := HandedOver.returned.inj (Option.some.inj h)
        exact ⟨rfl, rfl⟩

/-- With workers in the queue, and results of `pthread_kill` that say which of them have exited, a
call that returns has the result that it has in the pool of workers. -/
theorem threadPoolAlloc_eq (hne : c.idle ≠ []) (hidle : c.idle = s.idle)
    (hkills : ∀ k (h : k < c.idle.length),
      kills k = if (s.workers c.idle[k]).status = .exited then .esrch else .sent)
    (h : threadPoolAlloc q kills creates fuel c = some (.returned id c' dead woken)) :
    (s.threadPoolAlloc e created).1 = id ∧ (s.threadPoolAlloc e created).2.idle = c'.idle := by
  rw [State.threadPoolAlloc, ← hidle]
  refine allocFrom_eq hne (fun k hk => ?_) h
  rw [Nat.zero_add]
  exact hkills k hk

end Pool

end Crew

end Worker

end Lidas
