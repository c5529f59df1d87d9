import Lidas.Lib.FreeList
import Lidas.Memory.Queue

/-!
# Timers of connections

A `timer_t` from the cache of timers belongs to a connection. It is in the table
`timer_data_lst` under the descriptor, and in the keep-alive queue. `timer_insert` puts a new one
in both, `timer_cleaner` takes it out of the table and gives it back to the cache, and
`timer_task` takes the oldest from the queue and cleans it if it has run out. Nothing takes a
timer out of the queue that is cleaned for another reason.

A freed `timer_t` holds the links of the free list: `fd` and `pfd` are the two halves of the
address of the cache, and `time` is the address of the next free block.
-/

namespace Lidas

namespace Connections

/-- `timer_t`, but for `thread_id` and the pools. -/
structure TimerT where
  fd : ℕ
  pfd : ℕ
  time : ℤ

/-- The cache of timers, the timers by address, `timer_data_lst` and the keep-alive queue. -/
structure Timers where
  pool : FreeList ℕ
  /-- the address of the head of the cache -/
  head : ℕ
  /-- the address behind the last block of the cache -/
  last : ℕ
  timer : ℕ → TimerT
  table : ℕ → Option ℕ
  queue : LidaQueue

namespace Timers

variable (t : Timers)

/-- What `mem_cache_free` writes into a timer: `prev` and `next`. -/
def links : TimerT where
  fd := t.head % 2 ^ 32
  pfd := t.head / 2 ^ 32
  time := t.pool.free.headD t.last

/-- `timer_insert` at the time `now`, and the value it returns. Without a block it follows a null
pointer. What `mem_pool_creat` and `buf_log_init` read in the table is left to the caller. -/
def timerInsert (fd : ℕ) (now : ℤ) : Option (ℤ × Timers) :=
  match t.pool.alloc with
  | none => none
  | some (p, pool) =>
    let timer := Function.update t.timer p { fd := fd, pfd := 0, time := now }
    let (ret, queue) := t.queue.queueIn p
    if ret < 0 then some (-1, { t with pool := pool, timer := timer, queue := queue })
    else some (0, { t with
      pool := pool
      timer := timer
      queue := queue
      table := Function.update t.table fd (some p) })

/-- `timer_cleaner`. Without an entry it follows a null pointer. -/
def timerCleaner (fd : ℕ) : Option Timers :=
  match t.table fd with
  | none => none
  | some p => some { t with
      pool := t.pool.release p
      timer := Function.update t.timer p t.links
      table := Function.update t.table fd none }

/-- The timer that `timer_task` takes has run out. -/
def Expired (keepAlive : ℕ) (now : ℤ) : Prop :=
  now - (t.timer t.queue.queueOut.1).time > keepAlive

instance (keepAlive : ℕ) (now : ℤ) : Decidable (t.Expired keepAlive now) :=
  inferInstanceAs (Decidable (_ > _))

/-- An activation of `timer_task`, for one timer. It goes on if the queue is empty. -/
def timerTask (keepAlive : ℕ) (now : ℤ) : Option Timers :=
  let p := t.queue.queueOut.1
  let u := { t with queue := t.queue.queueOut.2 }
  if p = 0 then some u
  else if t.Expired keepAlive now then u.timerCleaner (t.timer p).fd
  else some { u with queue := (u.queue.queueIn p).2 }

/-- The table has timers that are allocated, each under its descriptor. -/
structure Sound : Prop where
  pool : t.pool.Sound
  nonnull : ∀ p, p ∈ t.pool.free ∨ p ∈ t.pool.out → p ≠ 0
  owned : ∀ fd p, t.table fd = some p → p ∈ t.pool.out ∧ (t.timer p).fd = fd

/-- Each entry of the queue is allocated and belongs to a connection, and the timer of each
connection is in the queue once. -/
structure QueueSound : Prop where
  entry : ∀ p ∈ t.queue.entries, p ∈ t.pool.out ∧ t.table (t.timer p).fd = some p
  once : ∀ fd p, t.table fd = some p → t.queue.entries.count p = 1

/-- The queue is full, and its oldest entry is in slot 0. -/
def Wrapping : Prop := t.queue.Full ∧ t.queue.tail = 0

instance : Decidable t.Wrapping := inferInstanceAs (Decidable (_ ∧ _))

variable {t : Timers} {t' : Timers} {fd : ℕ}

theorem Sound.setQueue (h : t.Sound) (q : LidaQueue) : Sound { t with queue := q } :=
  ⟨h.pool, h.nonnull, h.owned⟩

/-- No timer belongs to two connections. -/
theorem Sound.fd_eq (h : t.Sound) {p fd fd' : ℕ} (hfd : t.table fd = some p)
    (hfd' : t.table fd' = some p) : fd = fd' := by
  rw [← (h.owned fd p hfd).2, (h.owned fd' p hfd').2]

/-! ### Insertion -/

section Insert

variable {now ret : ℤ}

/-- What `timer_insert` does. -/
theorem timerInsert_eq_some (h : t.timerInsert fd now = some (ret, t')) :
    ∃ p, t.pool.alloc = some (p, t'.pool) ∧
      t'.timer = Function.update t.timer p { fd := fd, pfd := 0, time := now } ∧
      t'.queue = (t.queue.queueIn p).2 ∧
      t'.table = if (t.queue.queueIn p).1 < 0 then t.table
        else Function.update t.table fd (some p) := by
  rw [timerInsert] at h
  split at h
  · cases h
  · rename_i p pool halloc
    dsimp only at h
    split_ifs at h with hret
    · obtain ⟨-, rfl⟩ := Prod.mk.inj (Option.some.inj h)
      exact ⟨p, halloc, rfl, rfl, by rw [if_pos hret]⟩
    · obtain ⟨-, rfl⟩ := Prod.mk.inj (Option.some.inj h)
      exact ⟨p, halloc, rfl, rfl, by rw [if_neg hret]⟩

/-- `timer_insert` fails without a free block. -/
theorem timerInsert_eq_none : t.timerInsert fd now = none ↔ t.pool.free = [] := by
  rw [← FreeList.alloc_eq_none, timerInsert]
  split
  · rename_i halloc
    exact iff_of_true rfl halloc
  · rename_i p pool halloc
    refine iff_of_false ?_ (by simp [halloc])
    dsimp only
    split_ifs <;> simp

/-- It gives a timer to its descriptor only. -/
theorem table_of_timerInsert (h : t.timerInsert fd now = some (ret, t')) {x : ℕ}
    (hx : t'.table x ≠ none) : x = fd ∨ t.table x ≠ none := by
  obtain ⟨p, -, -, -, htable⟩ := timerInsert_eq_some h
  rw [htable] at hx
  split_ifs at hx
  · exact Or.inr hx
  · by_cases hfd : x = fd
    · exact Or.inl hfd
    · rw [Function.update_of_ne hfd] at hx
      exact Or.inr hx

/-- It takes a block that was free. -/
theorem Sound.timerInsert (hs : t.Sound) (h : t.timerInsert fd now = some (ret, t')) :
    t'.Sound := by
  obtain ⟨p, halloc, htimer, -, htable⟩ := timerInsert_eq_some h
  have hfresh := hs.pool.not_mem_of_alloc halloc
  refine ⟨hs.pool.alloc halloc, fun q hq => ?_, fun fd' q hq => ?_⟩
  · have hfree := (FreeList.alloc_eq_some halloc).1
    rw [FreeList.mem_out_alloc halloc] at hq
    rcases hq with hq | rfl | hq
    · exact hs.nonnull q (Or.inl (by rw [hfree]; exact List.mem_cons_of_mem p hq))
    · exact hs.nonnull q (Or.inl (by rw [hfree]; exact List.mem_cons_self))
    · exact hs.nonnull q (Or.inr hq)
  · have hold : t.table fd' = some q → q ∈ t'.pool.out ∧ (t'.timer q).fd = fd' := fun hq => by
      obtain ⟨hout, hfd⟩ := hs.owned fd' q hq
      have hne : q ≠ p := fun heq => hfresh (heq ▸ hout)
      rw [FreeList.mem_out_alloc halloc, htimer, Function.update_of_ne hne]
      exact ⟨Or.inr hout, hfd⟩
    rw [htable] at hq
    split_ifs at hq
    · exact hold hq
    · by_cases hfd : fd' = fd
      · rw [hfd, Function.update_self, Option.some.injEq] at hq
        subst hq
        rw [FreeList.mem_out_alloc halloc, htimer, Function.update_self, hfd]
        exact ⟨Or.inl rfl, rfl⟩
      · rw [Function.update_of_ne hfd] at hq
        exact hold hq

/-- A timer that is allocated but goes into neither the queue nor the table. -/
theorem Sound.queueSound_refused (hs : t.Sound) (hq : t.QueueSound) {p : ℕ} {timer : TimerT}
    (halloc : t.pool.alloc = some (p, t'.pool))
    (htimer : t'.timer = Function.update t.timer p timer) (hqueue : t'.queue = t.queue)
    (htable : t'.table = t.table) : t'.QueueSound := by
  refine ⟨fun q hq' => ?_, fun fd' q hq' => ?_⟩
  · rw [hqueue] at hq'
    obtain ⟨hout, hown⟩ := hq.entry q hq'
    have hne : q ≠ p := fun heq => hs.pool.not_mem_of_alloc halloc (heq ▸ hout)
    rw [FreeList.mem_out_alloc halloc, htimer, Function.update_of_ne hne, htable]
    exact ⟨Or.inr hout, hown⟩
  · rw [htable] at hq'
    rw [hqueue]
    exact hq.once fd' q hq'

/-- A timer that goes into the queue, and into the table under a new descriptor. -/
theorem Sound.queueSound_stored (hs : t.Sound) (hq : t.QueueSound) (hfd : t.table fd = none)
    {p : ℕ} (halloc : t.pool.alloc = some (p, t'.pool))
    (htimer : t'.timer = Function.update t.timer p { fd := fd, pfd := 0, time := now })
    (hentries : t'.queue.entries = t.queue.entries ++ [p])
    (htable : t'.table = Function.update t.table fd (some p)) : t'.QueueSound := by
  have hfresh := hs.pool.not_mem_of_alloc halloc
  have hne : ∀ q, q ∈ t.pool.out → q ≠ p := fun q hout heq => hfresh (heq ▸ hout)
  refine ⟨fun q hq' => ?_, fun fd' q hq' => ?_⟩
  · rw [hentries, List.mem_append, List.mem_singleton] at hq'
    rw [FreeList.mem_out_alloc halloc, htimer, htable]
    rcases hq' with hq' | rfl
    · obtain ⟨hout, hown⟩ := hq.entry q hq'
      have hfd' : (t.timer q).fd ≠ fd := fun heq => by
        rw [heq, hfd] at hown
        cases hown
      rw [Function.update_of_ne (hne q hout), Function.update_of_ne hfd']
      exact ⟨Or.inr hout, hown⟩
    · rw [Function.update_self, Function.update_self]
      exact ⟨Or.inl rfl, rfl⟩
  · rw [hentries, List.count_append]
    rw [htable] at hq'
    by_cases hfd' : fd' = fd
    · rw [hfd', Function.update_self, Option.some.injEq] at hq'
      subst hq'
      have hnone : t.queue.entries.count p = 0 :=
        List.count_eq_zero.mpr fun hmem => hfresh (hq.entry p hmem).1
      rw [hnone, List.count_singleton_self]
    · rw [Function.update_of_ne hfd'] at hq'
      have hother : [p].count q = 0 := List.count_eq_zero.mpr fun hmem =>
        hne q (hs.owned fd' q hq').1 (List.mem_singleton.mp hmem)
      rw [hq.once fd' q hq', hother]

/-- **Insertion.** The queue and the table stay in step unless the queue wraps around. -/
theorem Sound.queueSound_timerInsert (hs : t.Sound) (hq : t.QueueSound) (hfd : t.table fd = none)
    (h : t.timerInsert fd now = some (ret, t')) : t'.QueueSound ↔ ¬t.Wrapping := by
  obtain ⟨p, halloc, htimer, hqueue, htable⟩ := timerInsert_eq_some h
  by_cases hfull : t.queue.Full
  · rcases t.queue.queueIn_of_full p hfull with ⟨htail, hin⟩ | ⟨htail, hret, hnil⟩
    · -- the queue refuses the timer, which then belongs to no connection
      have hret : (t.queue.queueIn p).1 < 0 := by
        rw [hin]
        exact (by decide : (-1 : ℤ) < 0)
      rw [if_pos hret] at htable
      rw [hin] at hqueue
      exact iff_of_true (hs.queueSound_refused hq halloc htimer hqueue htable)
        fun hwrap => htail hwrap.2
    · -- the queue is empty now, and the timer is in the table
      refine iff_of_false (fun hq' => ?_) fun hnot => hnot ⟨hfull, htail⟩
      rw [if_neg (by rw [hret]; decide)] at htable
      have honce := hq'.once fd p (by rw [htable, Function.update_self])
      rw [hqueue, hnil] at honce
      simp at honce
  · obtain ⟨hret, hentries, -⟩ := t.queue.queueIn_of_not_full p hfull
    rw [if_neg (by rw [hret]; decide)] at htable
    rw [← hqueue] at hentries
    exact iff_of_true (hs.queueSound_stored hq hfd halloc htimer hentries htable)
      fun hwrap => hfull hwrap.1

end Insert

/-! ### Cleaning -/

/-- `timer_cleaner` gives the block back and leaves the queue. -/
theorem timerCleaner_eq_some (h : t.timerCleaner fd = some t') :
    ∃ p, t.table fd = some p ∧ t'.pool = t.pool.release p ∧
      t'.timer = Function.update t.timer p t.links ∧ t'.table = Function.update t.table fd none ∧
      t'.queue = t.queue := by
  rw [timerCleaner] at h
  split at h
  · cases h
  · rename_i p hp
    obtain rfl := Option.some.inj h
    exact ⟨p, hp, rfl, rfl, rfl, rfl⟩

/-- It takes the timer of its descriptor. -/
theorem table_of_timerCleaner (h : t.timerCleaner fd = some t') {x : ℕ} (hx : t'.table x ≠ none) :
    x ≠ fd ∧ t.table x ≠ none := by
  obtain ⟨p, -, -, -, htable, -⟩ := timerCleaner_eq_some h
  rw [htable] at hx
  by_cases hfd : x = fd
  · rw [hfd, Function.update_self] at hx
    exact absurd rfl hx
  · rw [Function.update_of_ne hfd] at hx
    exact ⟨hfd, hx⟩

/-- It gives back a block that was out, once. -/
theorem Sound.timerCleaner (hs : t.Sound) (h : t.timerCleaner fd = some t') : t'.Sound := by
  obtain ⟨p, hp, hpool, htimer, htable, -⟩ := timerCleaner_eq_some h
  obtain ⟨hpout, -⟩ := hs.owned fd p hp
  refine ⟨by rw [hpool]; exact hs.pool.release hpout, fun q hq => ?_, fun fd' q hq => ?_⟩
  · rw [hpool, FreeList.mem_out_release] at hq
    rcases hq with hq | ⟨-, hq⟩
    · rcases List.mem_cons.mp hq with rfl | hq
      · exact hs.nonnull q (Or.inr hpout)
      · exact hs.nonnull q (Or.inl hq)
    · exact hs.nonnull q (Or.inr hq)
  · rw [htable] at hq
    by_cases hfd : fd' = fd
    · rw [hfd, Function.update_self] at hq
      cases hq
    · rw [Function.update_of_ne hfd] at hq
      obtain ⟨hout, hown⟩ := hs.owned fd' q hq
      have hne : q ≠ p := fun heq => hfd (hs.fd_eq hq (heq ▸ hp))
      rw [hpool, FreeList.mem_out_release, htimer, Function.update_of_ne hne]
      exact ⟨⟨hne, hout⟩, hown⟩

/-- **Cleaning.** It leaves the timer in the queue. -/
theorem QueueSound.not_timerCleaner (hq : t.QueueSound)
    (h : t.timerCleaner fd = some t') : ¬t'.QueueSound := by
  obtain ⟨p, hp, hpool, -, -, hqueue⟩ := timerCleaner_eq_some h
  intro hq'
  have hmem : p ∈ t'.queue.entries := by
    rw [hqueue]
    exact List.count_pos_iff.mp (by rw [hq.once fd p hp]; exact Nat.one_pos)
  have hout := (hq'.entry p hmem).1
  rw [hpool, FreeList.mem_out_release] at hout
  exact hout.1 rfl

/-! ### Sweeping -/

section Task

variable {keepAlive : ℕ} {now : ℤ}

/-- `timer_task` gives no timer. -/
theorem table_of_timerTask (h : t.timerTask keepAlive now = some t') {x : ℕ}
    (hx : t'.table x ≠ none) : t.table x ≠ none := by
  rw [Timers.timerTask] at h
  dsimp only at h
  split_ifs at h
  · obtain rfl := Option.some.inj h
    exact hx
  · exact (table_of_timerCleaner h hx).2
  · obtain rfl := Option.some.inj h
    exact hx

/-- It puts an entry back, or cleans it. -/
theorem Sound.timerTask (hs : t.Sound) (h : t.timerTask keepAlive now = some t') : t'.Sound := by
  rw [Timers.timerTask] at h
  dsimp only at h
  split_ifs at h
  · obtain rfl := Option.some.inj h
    exact hs.setQueue _
  · exact (hs.setQueue _).timerCleaner h
  · obtain rfl := Option.some.inj h
    exact hs.setQueue _

/-- The order of the queue does not matter. -/
theorem QueueSound.of_perm (hq : t.QueueSound) {q : LidaQueue}
    (hperm : q.entries.Perm t.queue.entries) : QueueSound { t with queue := q } :=
  ⟨fun p hp => hq.entry p (hperm.mem_iff.mp hp),
    fun fd p hp => (hperm.count_eq p).trans (hq.once fd p hp)⟩

/-- The oldest timer is taken from the queue and cleaned. -/
theorem Sound.queueSound_swept (hs : t.Sound) (hq : t.QueueSound) {p : ℕ} {ps : List ℕ}
    {q : LidaQueue} (hcons : t.queue.entries = p :: ps) (hentries : q.entries = ps) :
    ∃ t', Timers.timerCleaner { t with queue := q } (t.timer p).fd = some t' ∧ t'.QueueSound := by
  obtain ⟨-, hown⟩ := hq.entry p (by rw [hcons]; exact List.mem_cons_self)
  -- the timer is in the queue once, so it is gone from it
  have hnot : p ∉ ps := fun hmem => by
    have honce := hq.once _ p hown
    rw [hcons, List.count_cons_self] at honce
    have hpos := List.count_pos_iff.mpr hmem
    omega
  rw [Timers.timerCleaner, hown]
  refine ⟨_, rfl, ⟨fun q hq' => ?_, fun fd' q hq' => ?_⟩⟩
  · dsimp only at hq' ⊢
    rw [hentries] at hq'
    have hqp : q ≠ p := fun heq => hnot (heq ▸ hq')
    obtain ⟨hqout, hqown⟩ := hq.entry q (by rw [hcons]; exact List.mem_cons_of_mem p hq')
    have hfd : (t.timer q).fd ≠ (t.timer p).fd := fun heq => by
      rw [heq, hown, Option.some.injEq] at hqown
      exact hqp hqown.symm
    rw [FreeList.mem_out_release, Function.update_of_ne hqp, Function.update_of_ne hfd]
    exact ⟨⟨hqp, hqout⟩, hqown⟩
  · dsimp only at hq' ⊢
    by_cases hfd : fd' = (t.timer p).fd
    · rw [hfd, Function.update_self] at hq'
      cases hq'
    · rw [Function.update_of_ne hfd] at hq'
      have hqp : p ≠ q := fun heq => hfd (hs.fd_eq hq' (heq ▸ hown))
      have honce := hq.once fd' q hq'
      rw [hcons, List.count_cons_of_ne hqp] at honce
      rw [hentries, honce]

/-- **Sweeping.** It keeps the queue and the table in step, and follows no null pointer. -/
theorem QueueSound.timerTask (hs : t.Sound) (hq : t.QueueSound) (keepAlive : ℕ) (now : ℤ) :
    ∃ t', t.timerTask keepAlive now = some t' ∧ t'.QueueSound := by
  cases hcons : t.queue.entries with
  | nil =>
    refine ⟨t, ?_, hq⟩
    rw [Timers.timerTask, t.queue.queueOut_of_nil hcons]
    rfl
  | cons p ps =>
    have hne : t.queue.entries ≠ [] := by rw [hcons]; exact List.cons_ne_nil p ps
    obtain ⟨hp, hentries, -⟩ := t.queue.queueOut_of_cons hcons
    obtain ⟨hout, -⟩ := hq.entry p (by rw [hcons]; exact List.mem_cons_self)
    have hnull : p ≠ 0 := hs.nonnull p (Or.inr hout)
    rw [Timers.timerTask]
    dsimp only
    rw [hp, if_neg hnull]
    by_cases hexpired : t.Expired keepAlive now
    · rw [if_pos hexpired]
      exact hs.queueSound_swept hq hcons hentries
    · rw [if_neg hexpired]
      have hback : ((t.queue.queueOut.2.queueIn p).2).entries = ps ++ [p] := by
        have hroom := t.queue.not_full_queueOut hne
        rw [(t.queue.queueOut.2.queueIn_of_not_full p hroom).2.1, hentries]
      refine ⟨_, rfl, hq.of_perm ?_⟩
      rw [hback, hcons]
      exact List.perm_append_singleton p ps

end Task

end Timers

end Connections

end Lidas
