import Lidas.Proxy.Descriptors
import Mathlib.Data.Int.Notation

/-!
# Descriptors whose connection is lost

Which of the descriptors in the queues are still connected. The system is watched for the writes
of `post_to_proxy` that fail, and for the calls of `re_connect` with their outcomes.

`post_loop` does not notice a failed write, and `proxy_sock_wake` gives the descriptor back before
the worker that is to reconnect it has started. `func_redirect` gives it back in any case, whatever
`re_connect` returns. That is wrong after five failures: a success on the sixth call leaves the
counter at 0 and is reported as a failure, and six failures leave it at -1, a success.
-/

namespace Lidas

namespace Proxy

/-! ### The source -/

/-- The outcomes of the calls in `re_connect`: whether `inet_addr` accepts the address of the node,
and which calls of `connect` succeed. -/
structure ConnectIo where
  addr : Bool
  connects : ℕ → Bool

/-- `while (connect (…) < 0 && cnt--)` from call `j` on: the counter at its end, and whether the
last call has succeeded. -/
def connectLoop (connects : ℕ → Bool) : ℕ → ℕ → ℤ × Bool
  | 0, j => if connects j then (0, true) else (-1, false)
  | cnt + 1, j => if connects j then ((cnt + 1 : ℕ), true) else connectLoop connects cnt (j + 1)

/-- `re_connect`. -/
def reConnect (c : ConnectIo) (pfd : ℕ) : ℤ :=
  if !c.addr then -1
  else if (connectLoop c.connects 5 0).1 ≠ 0 then pfd
  else -1

/-- A call of `connect` in `re_connect` has succeeded. -/
def ConnectIo.connected (c : ConnectIo) : Bool := c.addr && (connectLoop c.connects 5 0).2

/-- The system and what happened to the descriptors: those on which a write has failed since their
last successful `connect`, and for each worker the outcomes in the `re_connect` it is back from. -/
structure Watched where
  state : State
  failed : ℕ → Bool
  calls : ℕ → Option ConnectIo

/-- The steps: a write of a worker in `post_to_proxy` fails, in `stream_to_socket` or in the first
`post_loop`; a worker calls `re_connect`; any other step of the system. -/
inductive Act where
  | writeFails (w : ℕ) (stream : Bool)
  | reConnect (w : ℕ) (c : ConnectIo)
  | other (a : Label)

/-- The descriptor a worker in `post_to_proxy` writes to. -/
def State.target (s : State) (w : ℕ) (stream : Bool) : Option ℕ :=
  match s.tasks w with
  | .posting p _ pfd _ => if stream then some pfd else (s.objects p).map fun o => o.data.pfd
  | _ => none

/-- `ret_proxy_fd` comes after `re_connect`. -/
def Watched.ready (x : Watched) : Label → Bool
  | .reconnect w => (x.calls w).isSome
  | _ => true

/-- One step of the watched system. -/
def watch (x : Watched) : Act → Option Watched
  | .writeFails w stream => do
    let d ← x.state.target w stream
    return { x with failed := Function.update x.failed d true }
  | .reConnect w c =>
    match x.state.tasks w, x.calls w with
    | .reconnecting d, none =>
      some { x with
        failed := if c.connected then Function.update x.failed d.fd false else x.failed
        calls := Function.update x.calls w (some c) }
    | _, _ => none
  | .other a =>
    if x.ready a then do
      let s ← step x.state a
      return { x with
        state := s
        calls := fun w => if s.tasks w = x.state.tasks w then x.calls w else none }
    else none

/-! ### What is promised -/

/-- The descriptor that a step puts into a queue, `0` if it puts none there. -/
def State.returned (s : State) : Label → ℕ
  | .sendFails w _ =>
    match s.tasks w with
    | .posting p _ _ _ => pfdAt p
    | _ => 0
  | .sndFail w =>
    match s.tasks w with
    | .posting _ _ pfd _ => pfd
    | _ => 0
  | .respond w =>
    match s.tasks w with
    | .responding p => pfdAt p
    | _ => 0
  | .retRestart w =>
    match s.tasks w with
    | .returning p => pfdAt p
    | _ => 0
  | .reconnect w =>
    match s.tasks w with
    | .reconnecting d => d.fd
    | _ => 0
  | .connectDestruct p n _ _ _ =>
    match (s.objects p).bind fun o => o.data.node with
    | none => 0
    | some m => if s.front m = 0 ∧ (s.queueOut m).front n = 0 then pfdAt p else 0
  | .requestDestruct p _ => pfdAt p
  | _ => 0
where
  pfdAt (p : ℕ) : ℕ :=
    match s.objects p with
    | none => 0
    | some o => o.data.pfd

/-- Every descriptor in a queue is connected: no write on it has failed since its last successful
`connect`. -/
def Watched.Offered (x : Watched) : Prop :=
  ∀ n, ∀ d ∈ x.state.fds n, d ≠ 0 → x.failed d = false

/-- The step keeps its part of the promise. A descriptor whose send has failed does not go back to
the queue at once, it does so only when `re_connect` has reported success, and the report is
right. -/
def StepRight (x : Watched) : Act → Prop
  | .reConnect w c => ∀ d, x.state.tasks w = .reconnecting d →
      (reConnect c d.fd = d.fd ↔ c.connected = true)
  | .other (.sendFails w v) => x.state.returned (.sendFails w v) = 0
  | .other (.reconnect w) => x.state.returned (.reconnect w) ≠ 0 →
      ∃ c, x.calls w = some c ∧
        reConnect c (x.state.returned (.reconnect w)) = x.state.returned (.reconnect w)
  | _ => True

/-- Only connected descriptors are offered in the run, and its steps keep their promises. -/
def Watched.OffersRight (x : Watched) (as : List Act) : Prop :=
  Runs.Holds watch Watched.Offered x as ∧ Runs.Meets watch StepRight x as

/-- One of the first five calls of `connect` succeeds. -/
def ConnectIo.Early (c : ConnectIo) : Prop := ∃ j < 5, c.connects j = true

/-- The step takes none of the wrong branches. A write fails only on a descriptor that stands in no
queue. `re_connect` is given an invalid address, or connects within five calls; in the second case
the descriptor is given back, if no write on it has failed since. `proxy_sock_wake` is not called
for a descriptor, and the others that give one back do so only if no write on it has failed. -/
def Guarded (x : Watched) : Act → Prop
  | .writeFails w stream => ∀ d, x.state.target w stream = some d → d ≠ 0 →
      ∀ n, d ∉ x.state.fds n
  | .reConnect _ c => c.addr = true → c.Early
  | .other (.sendFails w v) => x.state.returned (.sendFails w v) = 0
  | .other (.reconnect w) => x.state.returned (.reconnect w) ≠ 0 →
      (∃ c, x.calls w = some c ∧ c.addr = true ∧ c.Early) ∧
        x.failed (x.state.returned (.reconnect w)) = false
  | .other a => x.state.returned a ≠ 0 → x.failed (x.state.returned a) = false

/-! ### `re_connect` -/

/-- The count tells whether a connect has succeeded if and only if one before the last does. -/
theorem connectLoop_right_iff (connects : ℕ → Bool) (cnt j : ℕ) :
    ((connectLoop connects cnt j).1 ≠ 0 ↔ (connectLoop connects cnt j).2 = true) ↔
      ∃ i < cnt, connects (j + i) = true := by
  induction cnt generalizing j with
  | zero =>
    rw [connectLoop]
    split_ifs <;> simp
  | succ cnt ih =>
    rw [connectLoop]
    split_ifs with hj
    · refine iff_of_true (by simp; omega) ⟨0, by omega, hj⟩
    · rw [ih]
      constructor
      · rintro ⟨i, hi, h⟩
        exact ⟨i + 1, by omega, by rwa [Nat.add_right_comm] at h⟩
      · rintro ⟨i, hi, h⟩
        rcases i with _ | i
        · exact absurd h hj
        · exact ⟨i, by omega, by rwa [Nat.add_right_comm]⟩

/-- A connect before the last one leaves the count above 0 if it succeeds. -/
theorem connectLoop_early {connects : ℕ → Bool} {cnt j : ℕ}
    (h : ∃ i < cnt, connects (j + i) = true) : (connectLoop connects cnt j).1 ≠ 0 := by
  induction cnt generalizing j with
  | zero =>
    obtain ⟨i, hi, -⟩ := h
    omega
  | succ cnt ih =>
    rw [connectLoop]
    split_ifs with hj
    · simp
      omega
    · obtain ⟨i, hi, h⟩ := h
      rcases i with _ | i
      · exact absurd h hj
      · exact ih ⟨i, by omega, by rwa [Nat.add_right_comm]⟩

/-- The descriptor is returned if there is an address and the count is not 0. -/
theorem reConnect_eq_self_iff {c : ConnectIo} {pfd : ℕ} : reConnect c pfd = pfd ↔
    c.addr = true ∧ (connectLoop c.connects 5 0).1 ≠ 0 := by
  rw [reConnect]
  by_cases haddr : c.addr = true
  · by_cases hcnt : (connectLoop c.connects 5 0).1 ≠ 0
    · rw [if_neg (by simp [haddr]), if_pos hcnt]
      exact iff_of_true rfl ⟨haddr, hcnt⟩
    · rw [if_neg (by simp [haddr]), if_neg hcnt]
      exact iff_of_false (by omega) fun h => hcnt h.2
  · rw [if_pos (by simpa using haddr)]
    exact iff_of_false (by omega) fun h => haddr h.1

/-- **The report.** `re_connect` reports rightly if and only if the address is invalid or it
connects within five calls. -/
theorem reConnect_right_iff (c : ConnectIo) (pfd : ℕ) :
    (reConnect c pfd = pfd ↔ c.connected = true) ↔ (c.addr = true → c.Early) := by
  have hloop := connectLoop_right_iff c.connects 5 0
  simp only [Nat.zero_add] at hloop
  rw [reConnect_eq_self_iff, ConnectIo.connected, ConnectIo.Early, ← hloop]
  cases c.addr with
  | false => simp
  | true => simp only [true_and, Bool.true_and, true_implies]

/-- A rightful success. -/
theorem reConnect_eq_self_iff_early {c : ConnectIo} {pfd : ℕ} (h : c.addr = true → c.Early) :
    reConnect c pfd = pfd ↔ c.addr = true ∧ c.Early := by
  rw [reConnect_eq_self_iff]
  refine and_congr_right fun haddr => iff_of_true ?_ (h haddr)
  obtain ⟨j, hj, hconnects⟩ := h haddr
  exact connectLoop_early ⟨j, hj, by rwa [Nat.zero_add]⟩

/-! ### What a step does to the queues -/

/-- The queues of the second state have, apart from `d`, only descriptors that were in those of the
first. `d` is in one of them, unless it is `0`. -/
structure Puts (s s' : State) (d : ℕ) : Prop where
  mem : ∀ n, ∀ e ∈ s'.fds n, e ∈ s.fds n ∨ e = d
  put : d ≠ 0 → ∃ n, d ∈ s'.fds n

section Puts

variable {s s₁ s' : State} {d n : ℕ}

/-- A step that adds to no queue puts nothing in. -/
theorem Puts.of_subset (h : ∀ n, s'.fds n ⊆ s.fds n) : Puts s s' 0 where
  mem := fun n _ he => Or.inl (h n he)
  put := fun h0 => absurd rfl h0

/-- A step that adds one descriptor to a queue puts that one in. -/
theorem Puts.queueIn (h : ∀ n, s₁.fds n ⊆ s.fds n)
    (hs' : ∀ m, s'.fds m = (s₁.queueIn n d).fds m) : Puts s s' d := by
  refine ⟨fun m e he => ?_, fun _ => ⟨n, ?_⟩⟩
  · rw [hs', State.queueIn_fds, Function.update_apply] at he
    split_ifs at he with hm
    · subst hm
      rcases List.mem_append.mp he with he | he
      · exact Or.inl (h m he)
      · exact Or.inr (List.mem_singleton.mp he)
    · exact Or.inl (h m he)
  · rw [hs', State.queueIn_fds, Function.update_self]
    exact List.mem_append_right _ List.mem_cons_self

/-- What is taken out was in the queue. -/
theorem queueOut_subset (s : State) (m n : ℕ) : (s.queueOut m).fds n ⊆ s.fds n := by
  rw [State.queueOut_fds, Function.update_apply]
  split_ifs with hn
  · rw [hn]
    exact fun _ => List.mem_of_mem_tail
  · exact List.Subset.refl _

/-- A new worker takes no descriptor from a queue. -/
theorem fds_spawn {t : Task} {v : Option ℕ} (h : s.spawn t v = some s') : s'.fds = s.fds := by
  rcases v with _ | v
  · obtain rfl := Option.some.inj h
    rfl
  · rw [State.spawn] at h
    split_ifs at h
    obtain rfl := Option.some.inj h
    rfl

theorem fds_reset (s : State) (hit : Option ℕ) : (s.reset hit).fds = s.fds := by
  cases hit <;> rfl

theorem fds_handOver {p e : ℕ} {o : Object} {u : Option ℕ}
    (h : connectDestruct.handOver p o u s e = some s') : s'.fds = s.fds := by
  exact (fds_spawn h).trans rfl

/-- `request_destruct` puts the object's own descriptor in. -/
theorem puts_requestDestruct {p : ℕ} {o : Object} {hit : Option ℕ}
    (h : ∀ n, s₁.fds n ⊆ s.fds n) :
    Puts s (requestDestruct s₁ p o n hit) o.data.pfd := by
  refine Puts.queueIn h (n := n) fun m => ?_
  rw [requestDestruct]
  cases o.req with
  | none => simp [fds_reset]
  | some r => simp [fds_reset]

/-- `connect_destruct` puts in what it is said to return. -/
theorem puts_connectDestruct {p m : ℕ} {o : Object} {v u hit : Option ℕ}
    (hp : s.objects p = some o) (hm : o.data.node = some m)
    (h : connectDestruct s p o m n v u hit = some s') :
    Puts s s' (s.returned (.connectDestruct p n v u hit)) := by
  obtain ⟨s₂, hspawn, h⟩ := Option.bind_eq_some_iff.mp h
  have hfds := fds_spawn hspawn
  have hout : ∀ n, (s₂.queueOut m).fds n ⊆ s.fds n := fun n => by
    rw [← hfds]
    exact queueOut_subset s₂ m n
  have hout' : ∀ k, ((s₂.queueOut m).queueOut n).fds k ⊆ s.fds k := fun k =>
    List.Subset.trans (queueOut_subset _ n k) (hout k)
  have hfront : s₂.front m = s.front m := by rw [State.front, State.front, hfds]
  have hfront' : (s₂.queueOut m).front n = (s.queueOut m).front n := by
    rw [State.front, State.front, State.queueOut_fds, State.queueOut_fds, hfds]
  have hret : s.returned (.connectDestruct p n v u hit) =
      if s.front m = 0 ∧ (s.queueOut m).front n = 0 then o.data.pfd else 0 := by
    simp only [State.returned, hp, Option.bind_some, hm, State.returned.pfdAt]
  rw [hret, ← hfront, ← hfront']
  dsimp only at h
  split_ifs at h with hd hd'
  · rw [if_neg fun h0 => hd h0.1]
    refine Puts.of_subset fun k => ?_
    rw [fds_handOver h]
    exact hout k
  · rw [if_pos ⟨not_not.mp hd, hd'⟩]
    obtain rfl := Option.some.inj h
    exact puts_requestDestruct hout'
  · rw [if_neg fun h0 => hd' h0.2]
    refine Puts.of_subset fun k => ?_
    rw [fds_handOver h]
    exact hout' k

/-- **The step lemma.** A step puts the descriptor that it returns into a queue, and no other. -/
theorem puts_of_step {a : Label} (hstep : step s a = some s') : Puts s s' (s.returned a) := by
  have hsame : ∀ n, s.fds n ⊆ s.fds n := fun n => List.Subset.refl _
  cases a with
  | accept p fd =>
    obtain ⟨-, rfl⟩ := eq_of_accept hstep
    exact Puts.of_subset hsame
  | post w p n =>
    obtain ⟨o, -, -, -, rfl⟩ := exists_of_post hstep
    -- `queue_out` only takes: no queue gets anything
    exact Puts.of_subset (queueOut_subset s.begin n)
  | sendFails w v =>
    obtain ⟨p, restart, pfd, g, o, n, hw, hp, -, hwake⟩ := exists_of_sendFails hstep
    have hret : s.returned (.sendFails w v) = o.data.pfd := by
      simp only [State.returned, hw, State.returned.pfdAt, hp]
    rw [hret]
    refine Puts.queueIn (n := n) hsame fun m => ?_
    rw [fds_spawn hwake]
    rfl
  | retry w n =>
    obtain ⟨p, restart, o, r, -, -, -, rfl⟩ := exists_of_retry hstep
    exact Puts.of_subset (queueOut_subset s n)
  | eventAdd w q t =>
    obtain ⟨p, restart, pfd, g, o, -, -, -, rfl⟩ := exists_of_eventAdd hstep
    exact Puts.of_subset hsame
  | sndFail w =>
    obtain ⟨p, restart, pfd, g, o, r, hw, -, -, rfl⟩ := exists_of_sndFail hstep
    have hret : s.returned (.sndFail w) = pfd := by simp only [State.returned, hw]
    rw [hret]
    split_ifs with hpfd
    · exact Puts.queueIn (n := g) hsame fun m => rfl
    · -- the descriptor 0 is not put back
      obtain rfl : pfd = 0 := not_not.mp hpfd
      exact Puts.of_subset hsame
  | rdEvent w q =>
    obtain ⟨o, -, -, -, rfl⟩ := exists_of_rdEvent hstep
    exact Puts.of_subset hsame
  | eventWait w t =>
    obtain ⟨p, o, -, -, rfl⟩ := exists_of_eventWait hstep
    exact Puts.of_subset hsame
  | respond w =>
    obtain ⟨p, o, n, r, hw, hp, -, -, rfl⟩ := exists_of_respond hstep
    have hret : s.returned (.respond w) = o.data.pfd := by
      simp only [State.returned, hw, State.returned.pfdAt, hp]
    rw [hret]
    exact Puts.queueIn (n := n) hsame fun m => rfl
  | restart w n =>
    obtain ⟨p, o, r, -, -, -, rfl⟩ := exists_of_restart hstep
    exact Puts.of_subset (queueOut_subset s n)
  | retRestart w =>
    obtain ⟨p, o, n, hw, hp, -, rfl⟩ := exists_of_retRestart hstep
    have hret : s.returned (.retRestart w) = o.data.pfd := by
      simp only [State.returned, hw, State.returned.pfdAt, hp]
    rw [hret]
    exact Puts.queueIn (n := n) hsame fun m => rfl
  | reconnect w =>
    obtain ⟨d, n, hw, -, rfl⟩ := exists_of_reconnect hstep
    have hret : s.returned (.reconnect w) = d.fd := by simp only [State.returned, hw]
    rw [hret]
    exact Puts.queueIn (n := n) hsame fun m => rfl
  | connectDestruct p n v u hit =>
    obtain ⟨o, m, hp, hm, hdestruct⟩ := exists_of_connectDestruct hstep
    exact puts_connectDestruct hp hm hdestruct
  | requestDestruct p hit =>
    obtain ⟨o, n, hp, -, rfl⟩ := exists_of_requestDestruct hstep
    have hret : s.returned (.requestDestruct p hit) = o.data.pfd := by
      simp only [State.returned, State.returned.pfdAt, hp]
    rw [hret]
    exact puts_requestDestruct hsame

end Puts

/-! ### Runs -/

/-- The invariant: only connected descriptors are offered, and the calls of `re_connect` that a
worker is back from were reported rightly. -/
structure Sound (x : Watched) : Prop where
  offered : x.Offered
  calls : ∀ w c, x.calls w = some c → c.addr = true → c.Early

section Steps

variable {x x' : Watched}

/-- A failed write. -/
theorem offered_writeFails_iff {w : ℕ} {stream : Bool} (h : x.Offered)
    (hstep : watch x (.writeFails w stream) = some x') :
    x'.Offered ↔ Guarded x (.writeFails w stream) := by
  obtain ⟨d, hd, hstep⟩ := Option.bind_eq_some_iff.mp hstep
  obtain rfl := Option.some.inj hstep
  constructor
  · intro hoffered d' hd' h0 n hmem
    obtain rfl : d = d' := Option.some.inj (hd.symm.trans hd')
    have hfalse := hoffered n d hmem h0
    simp at hfalse
  · intro hguard n e he h0
    have hne : e ≠ d := by
      rintro rfl
      exact hguard e hd h0 n he
    change Function.update x.failed d true e = false
    rw [Function.update_of_ne hne]
    exact h n e he h0

/-- A call of `re_connect`. -/
theorem watch_reConnect_eq_some {w : ℕ} {c : ConnectIo} :
    watch x (.reConnect w c) = some x' ↔
      ∃ d, x.state.tasks w = .reconnecting d ∧ x.calls w = none ∧ x' =
        { x with
          failed := if c.connected then Function.update x.failed d.fd false else x.failed
          calls := Function.update x.calls w (some c) } := by
  rw [watch]
  split
  · rename_i d htask hcalls
    rw [htask, hcalls, Option.some.injEq]
    constructor
    · rintro rfl
      exact ⟨d, rfl, rfl, rfl⟩
    · rintro ⟨d', hd', -, rfl⟩
      obtain rfl := Task.reconnecting.inj hd'
      rfl
  · rename_i hno
    refine iff_of_false (by rintro ⟨⟩) ?_
    rintro ⟨d, htask, hcalls, -⟩
    exact hno d htask hcalls

/-- What `re_connect` returns is put back when a connect has succeeded. -/
theorem offered_reConnect {w : ℕ} {c : ConnectIo} (h : x.Offered)
    (hstep : watch x (.reConnect w c) = some x') : x'.Offered := by
  obtain ⟨d, -, -, rfl⟩ := watch_reConnect_eq_some.mp hstep
  intro n e he h0
  have hold := h n e he h0
  dsimp only
  split_ifs
  · rw [Function.update_apply]
    split_ifs
    · rfl
    · exact hold
  · exact hold

/-- Any other step. -/
theorem watch_other_eq_some {a : Label} : watch x (.other a) = some x' ↔
    x.ready a = true ∧ ∃ s, step x.state a = some s ∧ x' =
      { x with
        state := s
        calls := fun w => if s.tasks w = x.state.tasks w then x.calls w else none } := by
  rw [watch]
  split_ifs with hready
  · refine Iff.trans Option.bind_eq_some_iff ?_
    rw [and_iff_right hready]
    exact exists_congr fun s => and_congr_right fun _ => Option.some_inj.trans eq_comm
  · exact iff_of_false (by rintro ⟨⟩) fun h => hready h.1

/-- The descriptor returned is the only one that can be there wrongly. -/
theorem offered_other_iff {a : Label} (h : x.Offered) (hstep : watch x (.other a) = some x') :
    x'.Offered ↔ (x.state.returned a ≠ 0 → x.failed (x.state.returned a) = false) := by
  obtain ⟨-, s, hs, rfl⟩ := watch_other_eq_some.mp hstep
  have hputs := puts_of_step hs
  constructor
  · intro hoffered h0
    obtain ⟨n, hn⟩ := hputs.put h0
    exact hoffered n _ hn h0
  · intro hreturned n e he h0
    rcases hputs.mem n e he with hold | rfl
    · exact h n e hold h0
    · exact hreturned h0

/-- **Exactness.** From a sound state, the guarded steps are those that keep their promises and
lead to a state in which only connected descriptors are offered. -/
theorem Sound.right_iff_guarded (h : Sound x) {a : Act} (hstep : watch x a = some x') :
    x'.Offered ∧ StepRight x a ↔ Guarded x a := by
  cases a with
  | writeFails w stream =>
    rw [offered_writeFails_iff h.offered hstep]
    exact and_iff_left trivial
  | reConnect w c =>
    have hoffered := offered_reConnect h.offered hstep
    obtain ⟨d, htask, -, -⟩ := watch_reConnect_eq_some.mp hstep
    refine (and_iff_right hoffered).trans (Iff.trans ?_ (reConnect_right_iff c d.fd))
    constructor
    · intro hright
      exact hright d htask
    · intro hright d' hd'
      obtain rfl := Task.reconnecting.inj (htask.symm.trans hd')
      exact hright
  | other a =>
    have hoffered := offered_other_iff h.offered hstep
    cases a with
    | sendFails w v =>
      refine ⟨fun hright => hright.2, fun hzero => ⟨hoffered.mpr fun h0 => ?_, hzero⟩⟩
      exact absurd hzero h0
    | reconnect w =>
      -- by the invariant, a reported success is one within five calls
      have hreport : ∀ c, x.calls w = some c →
          (reConnect c (x.state.returned (.reconnect w)) = x.state.returned (.reconnect w) ↔
            c.addr = true ∧ c.Early) :=
        fun c hc => reConnect_eq_self_iff_early (h.calls w c hc)
      rw [hoffered]
      constructor
      · rintro ⟨hfailed, hright⟩ h0
        obtain ⟨c, hc, hsuccess⟩ := hright h0
        exact ⟨⟨c, hc, (hreport c hc).mp hsuccess⟩, hfailed h0⟩
      · intro hguard
        refine ⟨fun h0 => (hguard h0).2, fun h0 => ?_⟩
        obtain ⟨⟨c, hc, hearly⟩, -⟩ := hguard h0
        exact ⟨c, hc, (hreport c hc).mpr hearly⟩
    | _ => exact (and_iff_left trivial).trans hoffered

/-- The guarded steps keep the invariant. -/
theorem Sound.watch {a : Act} (h : Sound x) (hguard : Guarded x a)
    (hstep : Proxy.watch x a = some x') : Sound x' := by
  refine ⟨((h.right_iff_guarded hstep).mpr hguard).1, ?_⟩
  cases a with
  | writeFails w stream =>
    obtain ⟨d, -, hstep⟩ := Option.bind_eq_some_iff.mp hstep
    obtain rfl := Option.some.inj hstep
    exact h.calls
  | reConnect w c =>
    obtain ⟨d, -, -, rfl⟩ := watch_reConnect_eq_some.mp hstep
    intro v c' hc'
    dsimp only at hc'
    rw [Function.update_apply] at hc'
    split_ifs at hc'
    · obtain rfl := Option.some.inj hc'
      exact hguard
    · exact h.calls v c' hc'
  | other a =>
    obtain ⟨-, s, -, rfl⟩ := watch_other_eq_some.mp hstep
    intro v c hc
    dsimp only at hc
    split_ifs at hc
    exact h.calls v c hc

end Steps

/-- **Connected descriptors.** From queues that hold only connected descriptors on, the runs in
which only connected descriptors are offered and the steps keep their promises are the runs whose
steps take none of the wrong branches. -/
theorem offersRight_iff (x : Watched) (hoffered : x.Offered) (hcalls : ∀ w, x.calls w = none)
    (as : List Act) : x.OffersRight as ↔ Runs.Meets watch Guarded x as := by
  have hsound : Sound x := ⟨hoffered, fun w c hc => by rw [hcalls w] at hc; cases hc⟩
  exact Runs.holds_and_meets_iff_meets (fun _ h => h.offered)
    (fun _ _ _ h hguard hstep => h.watch hguard hstep)
    (fun _ _ _ h hstep => h.right_iff_guarded hstep) hsound as

/-- One node with one connected descriptor, before any request. -/
def oneConnected : Watched where
  state :=
    { fds := fun n => if n = 0 then [5] else []
      objects := fun _ => none
      tasks := fun _ => .idle
      inProgress := fun _ => false
      begun := 0 }
  failed := fun _ => false
  calls := fun _ => none

/-- A request takes the descriptor and is answered, and the descriptor goes back to its queue. -/
def answeredRun : List Act :=
  [.other (.accept 0 7), .other (.post 0 0 0), .other (.eventAdd 0 8 .proxyRdEvent),
    .other (.rdEvent 0 8), .other (.respond 0)]

theorem offersRight_oneConnected : oneConnected.OffersRight answeredRun ∧
    (Runs.exec watch oneConnected answeredRun).map (fun x => x.state.fds 0) = some [5] := by
  refine ⟨(offersRight_iff oneConnected (fun _ _ _ _ => rfl) (fun _ => rfl) _).mpr ?_, rfl⟩
  intro x₁ h₁
  obtain rfl := Option.some.inj h₁
  refine ⟨fun h0 => absurd rfl h0, fun x₂ h₂ => ?_⟩
  obtain rfl := Option.some.inj h₂
  refine ⟨fun h0 => absurd rfl h0, fun x₃ h₃ => ?_⟩
  obtain rfl := Option.some.inj h₃
  refine ⟨fun h0 => absurd rfl h0, fun x₄ h₄ => ?_⟩
  obtain rfl := Option.some.inj h₄
  -- no write on the descriptor has failed
  exact ⟨fun h0 => absurd rfl h0, fun _ _ => ⟨fun _ => rfl, trivial⟩⟩

/-- When a send has failed, `proxy_sock_wake` offers the descriptor at once. -/
theorem not_offersRight_oneConnected : ¬∀ (x : Watched) (as : List Act), x.Offered →
    (∀ w, x.calls w = none) → x.OffersRight as := by
  intro h
  obtain ⟨hholds, -⟩ := h oneConnected [.other (.accept 0 7), .other (.post 0 0 0),
    .writeFails 0 false, .other (.sendFails 0 none)] (fun _ _ _ _ => rfl) (fun _ => rfl)
  have hoffered := hholds.last rfl
  have hfalse := hoffered 0 5 (by decide) (by decide)
  revert hfalse
  decide

end Proxy

end Lidas
