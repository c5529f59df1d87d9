import Lidas.Listener.Timers

/-!
# A sweep of the keep-alive queue

A call of `timer_task` goes through the queue by activations of itself. One that takes a timer that
has run out cleans it and goes on, and so does one that finds the queue empty. Only a timer that
has not run out ends the call, and it is put back behind the others.

No timer is lost, and none is cleaned too early (`Valid.sweep_conserves`). But the call does not
return if all timers have run out, and the one it puts back is out of its turn. `IdleQueue` runs
insertions and sweeps on an ideal queue, which the ring is as far as a sweep is concerned
(`Valid.sweep_eq_returned_iff`): a sweep returns and is complete if there are young timers and no
old one stands behind them.
-/

namespace Lidas

namespace Connections

/-- How a call of `timer_task` ends: it returns, with the timers it has given to `timer_cleaner`,
or the process ends, by `exit` or at a null pointer. -/
inductive Swept where
  | returned (cleaned : List ℕ) (t : Timers)
  | exited
  | crashed

/-- A timer was cleaned before. -/
def Swept.clean (p : ℕ) : Swept → Swept
  | .returned cleaned t => .returned (p :: cleaned) t
  | .exited => .exited
  | .crashed => .crashed

namespace Timers

variable (t : Timers) (keepAlive : ℕ) (now : ℤ)

/-- A call of `timer_task`, of no more than the given number of activations. `none` is a call that
has not come to its end by then. -/
def sweep (delFlag : Bool) : ℕ → Timers → Option Swept
  | 0, _ => none
  | fuel + 1, t =>
    let p := t.queue.queueOut.1
    match t.timerTask keepAlive now with
    | none => some .crashed
    | some u =>
      if p = 0 then sweep delFlag fuel u
      else if t.Expired keepAlive now then
        if u.queue.head = u.queue.tail ∧ delFlag = true then some .exited
        else (sweep delFlag fuel u).map (Swept.clean p)
      else some (.returned [] u)

/-- The entries of the queue are timers of connections, and none is there twice. -/
structure Valid : Prop where
  nodup : t.queue.entries.Nodup
  nonnull : ∀ p ∈ t.queue.entries, p ≠ 0
  owned : ∀ p ∈ t.queue.entries, t.table (t.timer p).fd = some p

/-- The times in the queue, the oldest entry first. -/
def times : List ℤ := t.queue.entries.map fun p => (t.timer p).time

/-- Each entry of the queue was cleaned, once and in time, or is still there, once. The queue has no
others, and its positions are slots. What was cleaned is what `timer_cleaner` has given back to the
cache, one after the other, and has taken out of the table: no other block has gone back, and no
other descriptor has lost its timer. -/
structure Conserved (cleaned : List ℕ) (u : Timers) : Prop where
  entry : ∀ p ∈ t.queue.entries,
    cleaned.count p = 1 ∧ u.queue.entries.count p = 0 ∧ now - (t.timer p).time > keepAlive ∨
      cleaned.count p = 0 ∧ u.queue.entries.count p = 1
  released : u.pool.free = cleaned.reverse ++ t.pool.free
  table : ∀ fd, u.table fd = if ∃ p ∈ cleaned, (t.timer p).fd = fd then none else t.table fd
  cleaned : ∀ p ∈ cleaned, p ∈ t.queue.entries
  kept : ∀ p ∈ u.queue.entries, p ∈ t.queue.entries
  max : u.queue.max = t.queue.max
  head : u.queue.head ≤ t.queue.max - 1
  tail : u.queue.tail ≤ t.queue.max - 1

variable {t : Timers} {u : Timers} {p : ℕ} {ps : List ℕ} {keepAlive : ℕ} {now : ℤ} {fuel : ℕ}
  {delFlag : Bool} {cleaned : List ℕ}

/-! ### Activations -/

/-- With an empty queue nothing is done. -/
theorem timerTask_nil (hnil : t.queue.entries = []) (keepAlive : ℕ) (now : ℤ) :
    t.queue.queueOut.1 = 0 ∧ t.timerTask keepAlive now = some t := by
  rw [timerTask, t.queue.queueOut_of_nil hnil]
  exact ⟨rfl, rfl⟩

/-- A timer that has run out is cleaned. -/
theorem Valid.timerTask_old (h : t.Valid) (hcons : t.queue.entries = p :: ps)
    (hold : t.Expired keepAlive now) :
    ∃ u, t.timerTask keepAlive now = some u ∧ u.Valid ∧ u.queue.entries = ps ∧
      u.queue.max = t.queue.max ∧ (∀ q ∈ ps, u.timer q = t.timer q) ∧
      u.pool = t.pool.release p ∧ u.table = Function.update t.table (t.timer p).fd none := by
  obtain ⟨hp, hentries, -, hmax⟩ := t.queue.queueOut_of_cons hcons
  have hmem : p ∈ t.queue.entries := by
    rw [hcons]
    exact List.mem_cons_self
  obtain ⟨hnot, hnodup⟩ := List.nodup_cons.mp (hcons ▸ h.nodup)
  have hne : ∀ q ∈ ps, q ≠ p := fun q hq heq => hnot (heq ▸ hq)
  have htail : ∀ q ∈ ps, q ∈ t.queue.entries := fun q hq => by
    rw [hcons]
    exact List.mem_cons_of_mem p hq
  have htimer : ∀ (l : TimerT), ∀ q ∈ ps, Function.update t.timer p l q = t.timer q :=
    fun l q hq => Function.update_of_ne (hne q hq) _ _
  rw [timerTask]
  dsimp only
  rw [hp, if_neg (h.nonnull p hmem), if_pos hold, timerCleaner, h.owned p hmem]
  refine ⟨_, rfl, ⟨?_, fun q hq => ?_, fun q hq => ?_⟩, hentries, hmax, htimer _, rfl, rfl⟩
  · rw [hentries]
    exact hnodup
  · rw [hentries] at hq
    exact h.nonnull q (htail q hq)
  · dsimp only at hq ⊢
    rw [hentries] at hq
    have hfd : (t.timer q).fd ≠ (t.timer p).fd := fun heq => by
      have hown := h.owned q (htail q hq)
      rw [heq, h.owned p hmem, Option.some.injEq] at hown
      exact hne q hq hown.symm
    rw [htimer _ q hq, Function.update_of_ne hfd]
    exact h.owned q (htail q hq)

/-- Another one is put back. -/
theorem Valid.timerTask_young (h : t.Valid) (hcons : t.queue.entries = p :: ps)
    (hyoung : ¬t.Expired keepAlive now) :
    ∃ u, t.timerTask keepAlive now = some u ∧ u.queue.entries = ps ++ [p] ∧
      u.queue.max = t.queue.max ∧ u.timer = t.timer ∧ u.pool = t.pool ∧ u.table = t.table := by
  obtain ⟨hp, hentries, -, hmax⟩ := t.queue.queueOut_of_cons hcons
  have hne : t.queue.entries ≠ [] := by
    rw [hcons]
    exact List.cons_ne_nil p ps
  have hnull : p ≠ 0 := h.nonnull p (by rw [hcons]; exact List.mem_cons_self)
  obtain ⟨-, hin, -, hmax'⟩ :=
    t.queue.queueOut.2.queueIn_of_not_full p (t.queue.not_full_queueOut hne)
  rw [timerTask]
  dsimp only
  rw [hp, if_neg hnull, if_neg hyoung]
  exact ⟨_, rfl, by rw [hin, hentries], hmax'.trans hmax, rfl, rfl, rfl⟩

/-- The entry that is looked at is the oldest one. -/
theorem expired_iff (hcons : t.queue.entries = p :: ps) :
    t.Expired keepAlive now ↔ now - (t.timer p).time > keepAlive := by
  rw [Expired, (t.queue.queueOut_of_cons hcons).1]

/-! ### Sweeps -/

/-- With an empty queue a round changes nothing, and the sweep goes on. -/
theorem sweep_nil (hnil : t.queue.entries = []) :
    sweep keepAlive now delFlag (fuel + 1) t = sweep keepAlive now delFlag fuel t := by
  obtain ⟨hp, htask⟩ := timerTask_nil hnil keepAlive now
  rw [sweep, htask]
  dsimp only
  rw [if_pos hp]

/-- An entry that is not old is put back, and the sweep returns. -/
theorem Valid.sweep_young (h : t.Valid) (hcons : t.queue.entries = p :: ps)
    (hyoung : ¬t.Expired keepAlive now) (fuel : ℕ) (delFlag : Bool) :
    ∃ u, sweep keepAlive now delFlag (fuel + 1) t = some (.returned [] u) ∧
      u.queue.entries = ps ++ [p] ∧ u.queue.max = t.queue.max ∧ u.timer = t.timer ∧
      u.pool = t.pool ∧ u.table = t.table := by
  obtain ⟨u, htask, hu⟩ := h.timerTask_young hcons hyoung
  have hnull : p ≠ 0 := h.nonnull p (by rw [hcons]; exact List.mem_cons_self)
  refine ⟨u, ?_, hu⟩
  rw [sweep, htask]
  dsimp only
  rw [(t.queue.queueOut_of_cons hcons).1, if_neg hnull, if_neg hyoung]

/-- An old entry is cleaned, and the sweep goes on or the process ends. -/
theorem Valid.sweep_old (h : t.Valid) (hcons : t.queue.entries = p :: ps)
    (hold : t.Expired keepAlive now) (fuel : ℕ) (delFlag : Bool) :
    ∃ u, sweep keepAlive now delFlag (fuel + 1) t =
        (if u.queue.head = u.queue.tail ∧ delFlag = true then some .exited
        else (sweep keepAlive now delFlag fuel u).map (Swept.clean p)) ∧
      u.Valid ∧ u.queue.entries = ps ∧ u.queue.max = t.queue.max ∧
      (∀ q ∈ ps, u.timer q = t.timer q) ∧
      u.pool = t.pool.release p ∧ u.table = Function.update t.table (t.timer p).fd none := by
  obtain ⟨u, htask, hu⟩ := h.timerTask_old hcons hold
  have hnull : p ≠ 0 := h.nonnull p (by rw [hcons]; exact List.mem_cons_self)
  refine ⟨u, ?_, hu⟩
  rw [sweep, htask]
  dsimp only
  rw [(t.queue.queueOut_of_cons hcons).1, if_neg hnull, if_pos hold]

/-- The descriptor of the oldest entry is cleared after it has been cleaned, and so are those of the
entries cleaned after it. -/
theorem table_cons {table : ℕ → Option ℕ} {timer timer' : ℕ → TimerT}
    (htimer : ∀ q ∈ cleaned, timer' q = timer q) (fd : ℕ) :
    (if ∃ q ∈ cleaned, (timer' q).fd = fd then none
      else Function.update table (timer p).fd none fd) =
    if ∃ q ∈ p :: cleaned, (timer q).fd = fd then none else table fd := by
  have hsame : (∃ q ∈ cleaned, (timer' q).fd = fd) ↔ ∃ q ∈ cleaned, (timer q).fd = fd :=
    exists_congr fun q => and_congr_right fun hq => by rw [htimer q hq]
  simp only [hsame, List.mem_cons, exists_eq_or_imp, Function.update_apply]
  by_cases hlater : ∃ q ∈ cleaned, (timer q).fd = fd
  · rw [if_pos hlater, if_pos (Or.inr hlater)]
  · rw [if_neg hlater]
    by_cases hfirst : (timer p).fd = fd
    · rw [if_pos hfirst.symm, if_pos (Or.inl hfirst)]
    · rw [if_neg fun h => hfirst h.symm, if_neg (not_or.mpr ⟨hfirst, hlater⟩)]

/-- The timers cleaned have run out, and with those left they are all that were queued. They are
what has gone back to the cache, and they are not in the table any more. -/
theorem Valid.effect_of_sweep (h : t.Valid)
    (hret : sweep keepAlive now delFlag fuel t = some (.returned cleaned u)) :
    (cleaned ++ u.queue.entries).Perm t.queue.entries ∧
      (∀ p ∈ cleaned, now - (t.timer p).time > keepAlive) ∧ u.queue.max = t.queue.max ∧
      u.pool.free = cleaned.reverse ++ t.pool.free ∧
      ∀ fd, u.table fd = if ∃ p ∈ cleaned, (t.timer p).fd = fd then none else t.table fd := by
  induction fuel generalizing t cleaned with
  | zero => cases hret
  | succ fuel ih =>
    cases hcons : t.queue.entries with
    | nil =>
      rw [sweep_nil hcons] at hret
      rw [← hcons]
      exact ih h hret
    | cons p ps =>
      by_cases hold : t.Expired keepAlive now
      · obtain ⟨v, hsweep, hv, hentries, hmax, htimer, hpool, htable⟩ :=
          h.sweep_old hcons hold fuel delFlag
        rw [hsweep] at hret
        split_ifs at hret
        · cases hret
        · obtain ⟨r, hr, hclean⟩ := Option.map_eq_some_iff.mp hret
          cases r with
          | returned cleaned' u' =>
            obtain ⟨rfl, rfl⟩ := Swept.returned.inj hclean
            -- the head is cleaned and the rest of the pass starts at its successor
            obtain ⟨hperm, hage, hmax', hfree, hcleared⟩ := ih hv hr
            rw [hentries] at hperm
            have hsame : ∀ q ∈ cleaned', v.timer q = t.timer q := fun q hq =>
              htimer q (hperm.mem_iff.mp (List.mem_append_left _ hq))
            refine ⟨hperm.cons p, fun q hq => ?_, hmax'.trans hmax, ?_, fun fd => ?_⟩
            · rcases List.mem_cons.mp hq with rfl | hq
              · exact (expired_iff hcons).mp hold
              · rw [← hsame q hq]
                exact hage q hq
            · rw [hfree, hpool, FreeList.release, List.reverse_cons, List.append_assoc,
                List.singleton_append]
            · rw [hcleared, htable]
              exact table_cons hsame fd
          | exited => cases hclean
          | crashed => cases hclean
      · -- a young head goes to the end of the ring and ends the pass
        obtain ⟨v, hsweep, hentries, hmax, -, hpool, htable⟩ :=
          h.sweep_young hcons hold fuel delFlag
        rw [hsweep] at hret
        obtain ⟨rfl, rfl⟩ := Swept.returned.inj (Option.some.inj hret)
        rw [List.nil_append, hentries]
        exact ⟨List.perm_append_singleton p ps, by simp, hmax, by rw [hpool]; rfl,
          fun fd => by rw [htable]; simp⟩

/-- **Conservation.** When a sweep returns, each timer that was queued has been cleaned, and had
run out, or is still queued. -/
theorem Valid.sweep_conserves (h : t.Valid)
    (hret : sweep keepAlive now delFlag fuel t = some (.returned cleaned u)) :
    Conserved t keepAlive now cleaned u := by
  obtain ⟨hperm, hage, hmax, hfree, htable⟩ := h.effect_of_sweep hret
  refine ⟨fun p hp => ?_, hfree, htable, fun p hp => ?_, fun p hp => ?_, hmax, ?_, ?_⟩
  · have hcount : cleaned.count p + u.queue.entries.count p = 1 := by
      rw [← List.count_append, hperm.count_eq, List.count_eq_one_of_mem h.nodup hp]
    by_cases hmem : p ∈ cleaned
    · have hpos := List.count_pos_iff.mpr hmem
      exact Or.inl ⟨by omega, by omega, hage p hmem⟩
    · have hzero := List.count_eq_zero.mpr hmem
      exact Or.inr ⟨hzero, by omega⟩
  · exact hperm.mem_iff.mp (List.mem_append_left _ hp)
  · exact hperm.mem_iff.mp (List.mem_append_right _ hp)
  · rw [← hmax]
    exact Nat.le_sub_one_of_lt u.queue.head_lt
  · rw [← hmax]
    exact Nat.le_sub_one_of_lt u.queue.tail_lt

/-- Two timers in a ring of three slots, the older one in the last slot. -/
def twoTimers : Timers where
  pool := { free := [], out := {1, 2} }
  head := 3
  last := 4
  timer := fun p => { fd := p + 10, pfd := 0, time := 50 * p }
  table := fun fd => some (fd - 10)
  queue :=
    { max := 3, head := 1, tail := 2, data := fun i => if i = 2 then 1 else 2,
      head_lt := by decide, tail_lt := by decide }

theorem valid_twoTimers : twoTimers.Valid := ⟨by decide, by decide, by decide⟩

/-- The older one has run out, and the other one is put back. -/
theorem conserves_twoTimers :
    ∃ u, sweep 60 120 false 2 twoTimers = some (.returned [1] u) ∧ u.queue.entries = [2] ∧
      Conserved twoTimers 60 120 [1] u := by
  obtain ⟨u, hret⟩ : ∃ u, sweep 60 120 false 2 twoTimers = some (.returned [1] u) := ⟨_, rfl⟩
  refine ⟨u, hret, ?_, valid_twoTimers.sweep_conserves hret⟩
  obtain rfl := (Swept.returned.inj (Option.some.inj hret)).2
  decide

/-! ### The times of a sweep -/

/-- The times, one entry at a time. -/
theorem times_of_cons (hcons : t.queue.entries = p :: ps) :
    t.times = (t.timer p).time :: ps.map fun q => (t.timer q).time := by
  rw [times, hcons, List.map_cons]

variable (keepAlive : ℕ) (now : ℤ)

/-- A sweep of the times of an ideal queue, of no more than the given number of activations. -/
def idealSweep : ℕ → List ℤ → Option (List ℤ)
  | 0, _ => none
  | fuel + 1, [] => idealSweep fuel []
  | fuel + 1, p :: ps =>
    if now - p > keepAlive then idealSweep fuel ps else some (ps ++ [p])

/-- The times a sweep leaves, `none` if it does not come to an end. -/
def swept : List ℤ → Option (List ℤ)
  | [] => none
  | p :: ps => if now - p > keepAlive then swept ps else some (ps ++ [p])

variable {keepAlive : ℕ} {now : ℤ} {q r : List ℤ}

/-- The sweep of times does not return on no entry. -/
theorem idealSweep_nil : idealSweep keepAlive now fuel [] = none := by
  induction fuel with
  | zero => rfl
  | succ fuel ih => exact ih

/-- With enough rounds it comes to what `swept` says. -/
theorem exists_idealSweep_iff :
    (∃ fuel, idealSweep keepAlive now fuel q = some r) ↔ swept keepAlive now q = some r := by
  induction q with
  | nil => simp [idealSweep_nil, swept]
  | cons p ps ih =>
    rw [swept]
    split_ifs with hold
    · rw [← ih]
      constructor
      · rintro ⟨fuel, h⟩
        cases fuel with
        | zero => cases h
        | succ fuel =>
          rw [idealSweep, if_pos hold] at h
          exact ⟨fuel, h⟩
      · rintro ⟨fuel, h⟩
        exact ⟨fuel + 1, by rw [idealSweep, if_pos hold, h]⟩
    · constructor
      · rintro ⟨fuel, h⟩
        cases fuel with
        | zero => cases h
        | succ fuel => rwa [idealSweep, if_neg hold] at h
      · exact fun h => ⟨1, by rw [idealSweep, if_neg hold, h]⟩

/-- The sweep of the ring does to the times what the one of the ideal queue does. -/
theorem Valid.sweep_eq_returned_iff (h : t.Valid) :
    idealSweep keepAlive now fuel t.times = some r ↔
      ∃ cleaned u, sweep keepAlive now false fuel t = some (.returned cleaned u) ∧
        u.times = r := by
  induction fuel generalizing t with
  | zero => simp [idealSweep, sweep]
  | succ fuel ih =>
    cases hcons : t.queue.entries with
    | nil =>
      have htimes : t.times = [] := by rw [times, hcons, List.map_nil]
      rw [sweep_nil hcons, ← ih h, htimes, idealSweep]
    | cons p ps =>
      rw [times_of_cons hcons, idealSweep]
      by_cases hold : t.Expired keepAlive now
      · obtain ⟨v, hsweep, hv, hentries, -, htimer, -⟩ := h.sweep_old hcons hold fuel false
        have htimes : v.times = ps.map fun q => (t.timer q).time := by
          rw [times, hentries]
          exact List.map_congr_left fun q hq => by rw [htimer q hq]
        rw [if_pos ((expired_iff hcons).mp hold), ← htimes, ih hv, hsweep,
          if_neg fun hexit => Bool.false_ne_true hexit.2]
        constructor
        · rintro ⟨cleaned, u, hret, hu⟩
          exact ⟨p :: cleaned, u, by rw [hret]; rfl, hu⟩
        · rintro ⟨cleaned, u, hret, hu⟩
          obtain ⟨s, hs, hclean⟩ := Option.map_eq_some_iff.mp hret
          cases s with
          | returned cleaned' u' =>
            obtain ⟨-, rfl⟩ := Swept.returned.inj hclean
            exact ⟨cleaned', u', hs, hu⟩
          | exited => cases hclean
          | crashed => cases hclean
      · obtain ⟨v, hsweep, hentries, -, htimer, -⟩ := h.sweep_young hcons hold fuel false
        -- the head was taken out before it was tested, and goes in again at the end
        have htimes : v.times = ps.map (fun q => (t.timer q).time) ++ [(t.timer p).time] := by
          rw [times, hentries, htimer, List.map_append, List.map_singleton]
        rw [if_neg fun hage => hold ((expired_iff hcons).mpr hage), hsweep, ← htimes]
        constructor
        · exact fun heq => ⟨[], v, rfl, Option.some.inj heq⟩
        · rintro ⟨cleaned, u, hret, hu⟩
          obtain ⟨-, rfl⟩ := Swept.returned.inj (Option.some.inj hret)
          rw [hu]

end Timers

/-! ### Insertions and sweeps -/

/-- An ideal queue of the times of timers. -/
structure IdleQueue where
  queue : List ℤ
  /-- the time of the last insertion -/
  inserted : Option ℤ
  /-- the time of the last sweep -/
  sweptAt : Option ℤ
  /-- a sweep has not come to its end -/
  hung : Bool

namespace IdleQueue

inductive Label where
  /-- `timer_insert` -/
  | insert (now : ℤ)
  /-- `timer_task` -/
  | sweep (now : ℤ)
  deriving DecidableEq

def start : IdleQueue where
  queue := []
  inserted := none
  sweptAt := none
  hung := false

variable (keepAlive : ℕ)

/-- The times of insertions do not decrease, and those of sweeps increase. -/
def step (s : IdleQueue) : Label → Option IdleQueue
  | .insert now =>
    if s.hung = false ∧ ∀ last ∈ s.inserted, last ≤ now then
      some { s with queue := s.queue ++ [now], inserted := some now }
    else none
  | .sweep now =>
    if s.hung = false ∧ ∀ last ∈ s.sweptAt, last < now then
      match Timers.swept keepAlive now s.queue with
      | some queue => some { s with queue := queue, sweptAt := some now }
      | none => some { s with sweptAt := some now, hung := true }
    else none

/-- A sweep returns, and no timer that has run out is left. -/
def Complete (s : IdleQueue) : Label → Prop
  | .insert _ => True
  | .sweep now => ∃ fuel r, Timers.idealSweep keepAlive now fuel s.queue = some r ∧
      ∀ p ∈ r, ¬now - p > keepAlive

/-- A sweep finds timers that have not run out, and behind the first of them no other ones. -/
def Parted (s : IdleQueue) : Label → Prop
  | .insert _ => True
  | .sweep now => ∃ old young, s.queue = old ++ young ∧ young ≠ [] ∧
      (∀ p ∈ old, now - p > keepAlive) ∧ ∀ p ∈ young, ¬now - p > keepAlive

variable {keepAlive}

/-- Old entries are dropped. -/
theorem swept_append {now : ℤ} {old young : List ℤ} (hold : ∀ p ∈ old, now - p > keepAlive) :
    Timers.swept keepAlive now (old ++ young) = Timers.swept keepAlive now young := by
  induction old with
  | nil => rfl
  | cons p old ih =>
    rw [List.forall_mem_cons] at hold
    rw [List.cons_append, Timers.swept, if_pos hold.1, ih hold.2]

/-- The entries are cleaned up to the first that is not old, which goes to the end. -/
theorem swept_eq_some_iff {now : ℤ} {q r : List ℤ} :
    Timers.swept keepAlive now q = some r ↔
      ∃ old p young, q = old ++ p :: young ∧ (∀ p ∈ old, now - p > keepAlive) ∧
        ¬now - p > keepAlive ∧ r = young ++ [p] := by
  constructor
  · intro h
    induction q with
    | nil => cases h
    | cons p ps ih =>
      rw [Timers.swept] at h
      split_ifs at h with hold
      · obtain ⟨old, p', young, rfl, hall, hyoung, rfl⟩ := ih h
        exact ⟨p :: old, p', young, rfl, List.forall_mem_cons.mpr ⟨hold, hall⟩, hyoung, rfl⟩
      · exact ⟨[], p, ps, rfl, List.forall_mem_nil _, hold, (Option.some.inj h).symm⟩
  · rintro ⟨old, p, young, rfl, hold, hyoung, rfl⟩
    rw [swept_append hold, Timers.swept, if_neg hyoung]

/-- A sweep is complete if and only if no old entry is behind one that is not. -/
theorem complete_iff_parted (s : IdleQueue) (a : Label) :
    Complete keepAlive s a ↔ Parted keepAlive s a := by
  cases a with
  | insert now => exact Iff.rfl
  | sweep now =>
    rw [Complete, exists_comm]
    simp only [exists_and_right, Timers.exists_idealSweep_iff, swept_eq_some_iff]
    constructor
    · rintro ⟨r, ⟨old, p, young, hqueue, hold, hyoung, rfl⟩, hall⟩
      refine ⟨old, p :: young, hqueue, List.cons_ne_nil p young, hold, ?_⟩
      exact List.forall_mem_cons.mpr ⟨hyoung, fun x hx => hall x (List.mem_append_left _ hx)⟩
    · rintro ⟨old, young, hqueue, hne, hold, hyoung⟩
      obtain ⟨p, young, rfl⟩ := List.exists_cons_of_ne_nil hne
      obtain ⟨hp, hrest⟩ := List.forall_mem_cons.mp hyoung
      refine ⟨young ++ [p], ⟨old, p, young, hqueue, hold, hp, rfl⟩, ?_⟩
      exact List.forall_mem_append.mpr ⟨hrest, List.forall_mem_singleton.mpr hp⟩

/-- **Sweeps of a run.** All sweeps return and are complete exactly if each finds the timers parted:
those that have run out in front, and at least one behind them that has not. -/
theorem complete_iff (keepAlive : ℕ) (ls : List Label) :
    Runs.Meets (step keepAlive) (Complete keepAlive) start ls ↔
      Runs.Meets (step keepAlive) (Parted keepAlive) start ls :=
  Runs.meets_iff_meets (I := fun _ => True) (fun _ _ _ _ _ _ => trivial)
    (fun s a _ _ _ => complete_iff_parted s a) trivial ls

/-- The sweep of an empty queue does not return. -/
theorem not_complete_nil :
    ¬∀ ls : List Label, Runs.Meets (step 60) (Complete 60) start ls := by
  intro h
  obtain ⟨fuel, r, hret, -⟩ := (h [.sweep 0] { start with sweptAt := some 0, hung := true } rfl).1
  rw [start, Timers.idealSweep_nil] at hret
  cases hret

end IdleQueue

end Connections

end Lidas
