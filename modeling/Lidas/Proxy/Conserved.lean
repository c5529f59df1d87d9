import Lidas.Proxy.Exclusive

/-!
# No connection to a backend is lost

In a quiet run a descriptor is never in two places. If moreover `proxy_to_client` never comes to its
label `CLEAN`, it is always in one: each descriptor that `proxy_init` has queued is in a slot of a
queue, or with a request in progress (`conserved_of_steady`). At `CLEAN` the request is posted again
with the event object of the answer, whose descriptor is overwritten and given back by nobody
(`exists_lost`).
-/

namespace Lidas

namespace Proxy

/-- A quiet step, and not the restart of a request. -/
def Steady (s : State) (a : Label) : Prop :=
  Quiet s a ∧ ∀ w n, a ≠ .restart w n

/-- The worker is in `post_to_proxy` with the object at `p`. -/
def Task.Posts (p : ℕ) : Task → Prop
  | .posting q _ _ _ | .retrying q _ => q = p
  | _ => False

/-- A request in progress has one descriptor, whatever its objects are, and while it is posted one
object; when a send has failed, it has none. -/
structure Whole (s : State) : Prop where
  one : ∀ r p o p' o', s.inProgress r = true → s.objects p = some o → o.req = some r →
    s.objects p' = some o' → o'.req = some r → o.data.pfd = o'.data.pfd
  sole : ∀ w p, (s.tasks w).Posts p → ∀ r o p' o', s.objects p = some o → o.req = some r →
    s.objects p' = some o' → o'.req = some r → p' = p
  retrying : ∀ w p b o, s.tasks w = .retrying p b → s.objects p = some o → o.data.pfd = 0

/-- The descriptor is in some place. -/
def Present (s : State) (d : ℕ) : Prop := ∃ q, s.Holds d q

/-! ### Moves that lose nothing -/

section Present

variable {s : State} {d n r p : ℕ}

theorem Present.setTask {w : ℕ} {t : Task} (h : Present s d) : Present (s.setTask w t) d := by
  obtain ⟨q, hq⟩ := h
  exact ⟨q, by rwa [holds_setTask]⟩

theorem Present.reset {hit : Option ℕ} (h : Present s d) : Present (s.reset hit) d := by
  obtain ⟨q, hq⟩ := h
  exact ⟨q, by rwa [holds_reset]⟩

/-- A descriptor put into a queue is put behind the others. -/
theorem Present.queueIn {d₀ : ℕ} (h : Present s d) : Present (s.queueIn n d₀) d := by
  obtain ⟨⟨m, i⟩ | r, hq⟩ := h
  · exact ⟨.slot m i, hq.1, queueIn_slot.mpr (.inl hq.2)⟩
  · exact ⟨.request r, hq⟩

theorem Present.begin (h : Present s d) : Present s.begin d := by
  obtain ⟨⟨m, i⟩ | r, hq⟩ := h
  · exact ⟨.slot m i, hq⟩
  · obtain ⟨hd, hr, hobj⟩ := hq
    refine ⟨.request r, hd, ?_, hobj⟩
    rw [State.begin_inProgress, Function.update_apply]
    split_ifs
    · rfl
    · exact hr

/-- An object is written that does not have a descriptor of its request alone. -/
theorem Present.setObject {o : Option Object} (h : Present s d)
    (hp : ∀ o' r, s.objects p = some o' → o'.req = some r → s.inProgress r = true →
      o'.data.pfd ≠ 0 → ∃ p' o'', Function.update s.objects p o p' = some o'' ∧
        o''.req = some r ∧ o''.data.pfd = o'.data.pfd) : Present (s.setObject p o) d := by
  obtain ⟨⟨m, i⟩ | r, hq⟩ := h
  · exact ⟨.slot m i, hq⟩
  · obtain ⟨hd, hr, p', o', ho', hreq, rfl⟩ := hq
    refine ⟨.request r, hd, hr, ?_⟩
    by_cases hpp : p' = p
    · subst hpp
      exact hp o' r ho' hreq hr hd
    · exact ⟨p', o', by rw [State.setObject_objects, Function.update_of_ne hpp, ho'], hreq, rfl⟩

/-- The descriptor of a request that is over is given back. -/
theorem Present.giveBack {d₀ : ℕ} (h : Present s d) (hr : s.Holds d (.request r) → d = d₀) :
    Present ((s.close r).queueIn n d₀) d := by
  obtain ⟨⟨m, i⟩ | r', hq⟩ := h
  · exact ⟨.slot m i, hq.1, queueIn_slot.mpr (.inl hq.2)⟩
  · by_cases hrr : r' = r
    · subst hrr
      obtain rfl := hr hq
      exact ⟨.slot n ((s.close r').fds n).length, hq.1, queueIn_slot.mpr (.inr ⟨rfl, rfl, rfl⟩)⟩
    · obtain ⟨hd, hin, hobj⟩ := hq
      refine ⟨.request r', hd, ?_, hobj⟩
      rw [State.queueIn_inProgress, State.close_inProgress, Function.update_of_ne hrr, hin]

/-- Closing a request loses no descriptor that is not with it. -/
theorem Present.close (h : Present s d) (hr : ¬s.Holds d (.request r)) : Present (s.close r) d := by
  obtain ⟨⟨m, i⟩ | r', hq⟩ := h
  · exact ⟨.slot m i, hq⟩
  · have hrr : r' ≠ r := by
      rintro rfl
      exact hr hq
    obtain ⟨hd, hin, hobj⟩ := hq
    refine ⟨.request r', hd, ?_, hobj⟩
    rw [State.close_inProgress, Function.update_of_ne hrr, hin]

/-- A request takes the first descriptor of a queue, and the object had none. -/
theorem Present.fCon {w : ℕ} {o : Object} {restart : Bool} (h : Present s d)
    (hr : s.inProgress r = true) (hp : s.objects p = some o)
    (ho : ∀ r', o.req = some r' → s.inProgress r' = true → o.data.pfd = 0) :
    Present (s.fCon w p o r n restart) d := by
  refine Present.setTask ?_
  obtain ⟨⟨m, i⟩ | r', hq⟩ := h
  · obtain ⟨hd, hi⟩ := hq
    by_cases hm : m = n
    · subst hm
      cases i with
      | zero =>
        have hfront : s.front m = d := by
          rw [State.front]
          cases hl : s.fds m with
          | nil =>
            rw [hl] at hi
            cases hi
          | cons x l =>
            rw [hl] at hi
            exact Option.some.inj hi
        refine ⟨.request r, hd, hr, p, _, Function.update_self .., rfl, hfront⟩
      | succ i =>
        refine ⟨.slot m i, hd, ?_⟩
        rw [State.setObject_fds, State.queueOut_fds, Function.update_self, List.getElem?_tail, hi]
    · refine ⟨.slot m i, hd, ?_⟩
      rw [State.setObject_fds, State.queueOut_fds, Function.update_of_ne hm, hi]
  · obtain ⟨hd, hin, p', o', ho', hreq, rfl⟩ := hq
    refine ⟨.request r', hd, hin, p', o', ?_, hreq, rfl⟩
    have hpp : p' ≠ p := by
      rintro rfl
      obtain rfl : o = o' := Option.some.inj (hp.symm.trans ho')
      exact hd (ho r' hreq hin)
    rw [State.setObject_objects, Function.update_of_ne hpp]
    exact ho'

end Present

/-! ### Steps -/

section Steps

variable {s s' : State} {w p : ℕ}

/-- A worker that posts serves the object it posts. -/
theorem serves_of_posts {t : Task} (h : t.Posts p) : t.serves = some p := by
  cases t with
  | posting q b d n => exact congrArg some h
  | retrying q b => exact congrArg some h
  | _ => exact h.elim

/-- The object posted is there. -/
theorem Inv.posts_ne_none (h : Inv s) (w p : ℕ) (hw : (s.tasks w).Posts p) :
    s.objects p ≠ none := by
  obtain ⟨o, r, hp, -⟩ := h.serving.task w p (serves_of_posts hw)
  rw [hp]
  exact Option.some_ne_none o

/-- Requests end, and objects are freed or written with the descriptor and the request that they
had; no worker begins to post. -/
theorem Whole.mono (h : Whole s) (hposts : ∀ w p, (s.tasks w).Posts p → s.objects p ≠ none)
    (hin : ∀ r, s'.inProgress r = true → s.inProgress r = true)
    (hobj : ∀ p o, s'.objects p = some o → s.objects p = none ∧ o.req = none ∨
      ∃ o', s.objects p = some o' ∧ o'.req = o.req ∧ o'.data.pfd = o.data.pfd)
    (htask : ∀ w, s'.tasks w = s.tasks w ∨ ∀ p, ¬(s'.tasks w).Posts p) : Whole s' := by
  have hold : ∀ p o r, s'.objects p = some o → o.req = some r →
      ∃ o', s.objects p = some o' ∧ o'.req = some r ∧ o'.data.pfd = o.data.pfd := by
    intro p o r hp hreq
    rcases hobj p o hp with ⟨-, hnone⟩ | ⟨o', hp', hreq', hpfd'⟩
    · rw [hnone] at hreq
      cases hreq
    · exact ⟨o', hp', hreq'.trans hreq, hpfd'⟩
  refine ⟨?_, ?_, ?_⟩
  · intro r p o p' o' hr hp hreq hp' hreq'
    obtain ⟨o₁, hp₁, hreq₁, hpfd₁⟩ := hold p o r hp hreq
    obtain ⟨o₂, hp₂, hreq₂, hpfd₂⟩ := hold p' o' r hp' hreq'
    rw [← hpfd₁, ← hpfd₂]
    exact h.one r p o₁ p' o₂ (hin r hr) hp₁ hreq₁ hp₂ hreq₂
  · intro w p hw r o p' o' hp hreq hp' hreq'
    obtain ⟨o₁, hp₁, hreq₁, -⟩ := hold p o r hp hreq
    obtain ⟨o₂, hp₂, hreq₂, -⟩ := hold p' o' r hp' hreq'
    rcases htask w with hsame | hnone
    · exact h.sole w p (hsame ▸ hw) r o₁ p' o₂ hp₁ hreq₁ hp₂ hreq₂
    · exact absurd hw (hnone p)
  · intro w p b o hw hp
    rcases htask w with hsame | hnone
    · rw [hsame] at hw
      rcases hobj p o hp with ⟨hfree, -⟩ | ⟨o', hp', -, hpfd'⟩
      · exact absurd hfree (hposts w p (by rw [hw]; rfl))
      · rw [← hpfd']
        exact h.retrying w p b o' hw hp'
    · exact absurd (by rw [hw]; rfl) (hnone p)

/-- An object at which nothing has been written. -/
theorem old_object {p : ℕ} {o : Object} (hp : s.objects p = some o) :
    s.objects p = none ∧ o.req = none ∨
      ∃ o', s.objects p = some o' ∧ o'.req = o.req ∧ o'.data.pfd = o.data.pfd :=
  .inr ⟨o, hp, rfl, rfl⟩

/-- One worker goes over to a task in which it does not post. -/
theorem tasks_setTask {t : Task} (ht : ∀ p, ¬t.Posts p) (v : ℕ) :
    (s.setTask w t).tasks v = s.tasks v ∨ ∀ p, ¬((s.setTask w t).tasks v).Posts p := by
  rw [State.setTask_tasks, Function.update_apply]
  split_ifs
  · exact .inr ht
  · exact .inl rfl

/-- A worker that is reset posts nothing; the others go on. -/
theorem tasks_reset {hit : Option ℕ} (v : ℕ) :
    (s.reset hit).tasks v = s.tasks v ∨ ∀ p, ¬((s.reset hit).tasks v).Posts p := by
  cases hit with
  | none => exact .inl rfl
  | some w => exact tasks_setTask (fun _ => id) v

theorem not_posts_afterPost (restart : Bool) (q : ℕ) : ¬(afterPost p restart).Posts q := by
  cases restart <;> exact id

/-- Closing a request starts none. -/
theorem inProgress_close {r r' : ℕ} (h : (s.close r).inProgress r' = true) :
    s.inProgress r' = true := by
  rw [State.close_inProgress, Function.update_apply] at h
  split_ifs at h
  exact h

/-- A round of `F_CON` for an object that is the only one of its request. -/
theorem Whole.fCon {n r : ℕ} {o : Object} {restart : Bool} (h : Whole s)
    (honly : ∀ p' o', s.objects p' = some o' → o'.req = some r → p' = p)
    (hothers : ∀ v, v ≠ w → ∀ q, (s.tasks v).Posts q → q ≠ p)
    (hreqs : ∀ v q, v ≠ w → (s.tasks v).Posts q → ∀ o', s.objects q = some o' → o'.req ≠ some r) :
    Whole (s.fCon w p o r n restart) := by
  have hobj : ∀ q o', (s.fCon w p o r n restart).objects q = some o' →
      q = p ∧ o' = o.fCon r n (s.front n) ∨ q ≠ p ∧ s.objects q = some o' := by
    intro q o' hq
    rw [State.fCon, State.setTask_objects, State.setObject_objects, Function.update_apply] at hq
    split_ifs at hq with hqp
    · exact .inl ⟨hqp, (Option.some.inj hq).symm⟩
    · exact .inr ⟨hqp, hq⟩
  have htask : ∀ v, (s.fCon w p o r n restart).tasks v =
      if v = w then .posting p restart (s.front n) n else s.tasks v := by
    intro v
    rw [State.fCon, State.setTask_tasks, Function.update_apply]
    rfl
  -- `p` is the only object that changes and `w` the only task
  refine ⟨?_, ?_, ?_⟩
  · intro r' q₁ o₁ q₂ o₂ hr' hq₁ hreq₁ hq₂ hreq₂
    rcases hobj q₁ o₁ hq₁ with ⟨rfl, rfl⟩ | ⟨hne₁, hq₁'⟩
    · obtain rfl : r = r' := Option.some.inj hreq₁
      rcases hobj q₂ o₂ hq₂ with ⟨-, rfl⟩ | ⟨hne₂, hq₂'⟩
      · rfl
      · exact absurd (honly q₂ o₂ hq₂' hreq₂) hne₂
    · rcases hobj q₂ o₂ hq₂ with ⟨rfl, rfl⟩ | ⟨hne₂, hq₂'⟩
      · obtain rfl : r = r' := Option.some.inj hreq₂
        exact absurd (honly q₁ o₁ hq₁' hreq₁) hne₁
      · exact h.one r' q₁ o₁ q₂ o₂ hr' hq₁' hreq₁ hq₂' hreq₂
  · intro v q hv r' o₁ q₂ o₂ hq hreq hq₂ hreq₂
    rw [htask] at hv
    split_ifs at hv with hvw
    · obtain rfl : p = q := hv
      rcases hobj p o₁ hq with ⟨-, rfl⟩ | ⟨hne, -⟩
      · obtain rfl : r = r' := Option.some.inj hreq
        rcases hobj q₂ o₂ hq₂ with ⟨rfl, -⟩ | ⟨-, hq₂'⟩
        · rfl
        · exact honly q₂ o₂ hq₂' hreq₂
      · exact absurd rfl hne
    · have hqp : q ≠ p := hothers v hvw q hv
      rcases hobj q o₁ hq with ⟨heq, -⟩ | ⟨-, hq'⟩
      · exact absurd heq hqp
      · rcases hobj q₂ o₂ hq₂ with ⟨-, rfl⟩ | ⟨-, hq₂'⟩
        · obtain rfl : r = r' := Option.some.inj hreq₂
          exact absurd hreq (hreqs v q hvw hv o₁ hq')
        · exact h.sole v q hv r' o₁ q₂ o₂ hq' hreq hq₂' hreq₂
  · intro v q b o₁ hv hq
    rw [htask] at hv
    split_ifs at hv with hvw
    have hqp : q ≠ p := hothers v hvw q (by rw [hv]; rfl)
    rcases hobj q o₁ hq with ⟨heq, -⟩ | ⟨-, hq'⟩
    · exact absurd heq hqp
    · exact h.retrying v q b o₁ hv hq'

/-- Only one worker posts for a request. -/
theorem Inv.eq_of_posts (h : Inv s) {v q r : ℕ} {o o' : Object} (hw : (s.tasks w).Posts p)
    (hp : s.objects p = some o) (hr : o.req = some r) (hv : (s.tasks v).Posts q)
    (hq : s.objects q = some o') (hr' : o'.req = some r) : v = w :=
  Server.worker.inj (h.serving.server r _ _ ⟨q, o', serves_of_posts hv, hq, hr'⟩
    ⟨p, o, serves_of_posts hw, hp, hr⟩)

/-- A descriptor leaves its queue for the worker that posts. -/
theorem Whole.post {n : ℕ} (h : Whole s) (hinv : Inv s) (hstep : step s (.post w p n) = some s') :
    Whole s' := by
  obtain ⟨o, hw, hp, hguard, rfl⟩ := exists_of_post hstep
  obtain ⟨-, hidle⟩ := hinv.serving.unused hp hguard.2
  have hfresh : ∀ q o', s.objects q = some o' → o'.req ≠ some s.begun := fun q o' hq hreq =>
    Nat.lt_irrefl _ (hinv.serving.fresh q o' _ hq hreq)
  have hbegin : Whole s.begin := by
    refine ⟨fun r q o₁ q' o₂ hr hq hreq hq' hreq' => ?_, h.sole, h.retrying⟩
    have hne : r ≠ s.begun := by
      rintro rfl
      exact hfresh q o₁ hq hreq
    rw [State.begin_inProgress, Function.update_of_ne hne] at hr
    exact h.one r q o₁ q' o₂ hr hq hreq hq' hreq'
  refine hbegin.fCon (fun q o' hq hreq => absurd hreq (hfresh q o' hq)) ?_ ?_
  · rintro v - q hv rfl
    exact hidle v (serves_of_posts hv)
  · exact fun v q _ _ o' hq => hfresh q o' hq

/-- The next try takes a descriptor in the same way. -/
theorem Whole.retry {n : ℕ} (h : Whole s) (hinv : Inv s) (hstep : step s (.retry w n) = some s') :
    Whole s' := by
  obtain ⟨p, restart, o, r, hw, hp, hr, rfl⟩ := exists_of_retry hstep
  have hposts : (s.tasks w).Posts p := by rw [hw]; rfl
  refine h.fCon (fun q o' hq hreq => h.sole w p hposts r o q o' hp hr hq hreq) ?_ ?_
  · rintro v hvw q hv rfl
    exact hvw (hinv.eq_of_posts hposts hp hr hv hp hr)
  · exact fun v q hvw hv o' hq hreq => hvw (hinv.eq_of_posts hposts hp hr hv hq hreq)

/-- In a quiet step the object has no descriptor that could be lost. -/
theorem Whole.sendFails {v : Option ℕ} (h : Whole s) (hinv : Inv s)
    (hquiet : Quiet s (.sendFails w v)) (hstep : step s (.sendFails w v) = some s') :
    Whole s' := by
  obtain ⟨p, restart, pfd, g, o, n, hw, hp, hn, hstep⟩ := exists_of_sendFails hstep
  have hposts : (s.tasks w).Posts p := by rw [hw]; rfl
  have htasks : ∀ u q, ((s.setTask w (.retrying p restart)).tasks u).Posts q →
      (s.tasks u).Posts q := by
    intro u q hu
    rw [State.setTask_tasks, Function.update_apply] at hu
    split_ifs at hu with huw
    · obtain rfl : p = q := hu
      rw [huw]
      exact hposts
    · exact hu
  have hset : Whole (s.setTask w (.retrying p restart)) := by
    refine ⟨h.one, fun u q hu => h.sole u q (htasks u q hu), fun u q b o' hu hq => ?_⟩
    rw [State.setTask_tasks, Function.update_apply] at hu
    split_ifs at hu
    · obtain ⟨rfl, -⟩ := Task.retrying.inj hu
      exact hquiet p restart pfd g o' hw hq
    · exact h.retrying u q b o' hu hq
  have hback : Whole ((s.setTask w (.retrying p restart)).queueIn n o.data.pfd) :=
    ⟨hset.one, hset.sole, hset.retrying⟩
  rw [proxySockWake] at hstep
  cases v with
  | none =>
    obtain rfl := Option.some.inj hstep
    exact hback
  | some v =>
    rw [State.spawn] at hstep
    split_ifs at hstep
    obtain rfl := Option.some.inj hstep
    exact hback.mono (fun u q hu => hinv.posts_ne_none u q (htasks u q hu)) (fun _ => id)
      (fun _ _ => old_object) (tasks_setTask fun _ => id)

/-- The object added has the descriptor of the one posted. -/
theorem Whole.eventAdd {q : ℕ} {t : EventType} (h : Whole s) (hinv : Inv s)
    (hstep : step s (.eventAdd w q t) = some s') : Whole s' := by
  obtain ⟨p, restart, pfd, g, o, hw, hq, hp, rfl⟩ := exists_of_eventAdd hstep
  have hposts : (s.tasks w).Posts p := by rw [hw]; rfl
  have hpfd : o.data.pfd = pfd := hinv.serving.pfd w p restart pfd g o hw hp
  -- the new object is a copy of the object of the client
  have hold : ∀ q' o' r, Function.update s.objects q (some (o.eventAdd t pfd g)) q' = some o' →
      o'.req = some r → ∃ q₀ o₀, s.objects q₀ = some o₀ ∧ o₀.req = some r ∧
        o₀.data.pfd = o'.data.pfd ∧ (q' = q₀ ∨ q' = q ∧ q₀ = p) := by
    intro q' o' r hq' hreq
    rw [Function.update_apply] at hq'
    split_ifs at hq' with hqq
    · obtain rfl := Option.some.inj hq'
      exact ⟨p, o, hp, hreq, hpfd, .inr ⟨hqq, rfl⟩⟩
    · exact ⟨q', o', hq', hreq, rfl, .inl rfl⟩
  have htasks : ∀ v q', v ≠ w → ((s.setTask w (afterPost p restart)).tasks v).Posts q' →
      (s.tasks v).Posts q' := fun v q' hvw hv => by
    rwa [State.setTask_tasks, Function.update_of_ne hvw] at hv
  have hw' : ∀ q', ¬((s.setTask w (afterPost p restart)).tasks w).Posts q' := fun q' hq' => by
    rw [State.setTask_tasks, Function.update_self] at hq'
    exact not_posts_afterPost restart q' hq'
  refine ⟨?_, ?_, ?_⟩
  · intro r q₁ o₁ q₂ o₂ hr hq₁ hreq₁ hq₂ hreq₂
    obtain ⟨p₁, o₁', hp₁, hr₁, hpfd₁, -⟩ := hold q₁ o₁ r hq₁ hreq₁
    obtain ⟨p₂, o₂', hp₂, hr₂, hpfd₂, -⟩ := hold q₂ o₂ r hq₂ hreq₂
    rw [← hpfd₁, ← hpfd₂]
    exact h.one r p₁ o₁' p₂ o₂' hr hp₁ hr₁ hp₂ hr₂
  · intro v q₁ hv r o₁ q₂ o₂ hq₁ hreq₁ hq₂ hreq₂
    have hvw : v ≠ w := by
      rintro rfl
      exact hw' q₁ hv
    have hv' := htasks v q₁ hvw hv
    obtain ⟨p₁, o₁', hp₁, hr₁, -, hwhere₁⟩ := hold q₁ o₁ r hq₁ hreq₁
    obtain ⟨p₂, o₂', hp₂, hr₂, -, hwhere₂⟩ := hold q₂ o₂ r hq₂ hreq₂
    have hq₁' : q₁ ≠ q := by
      rintro rfl
      exact hinv.posts_ne_none v q₁ hv' hq
    obtain rfl : q₁ = p₁ := hwhere₁.resolve_right fun hh => hq₁' hh.1
    have hsole := h.sole v q₁ hv' r o₁' p₂ o₂' hp₁ hr₁ hp₂ hr₂
    rcases hwhere₂ with rfl | ⟨-, rfl⟩
    · exact hsole
    · -- then this request is the one of the new object, which only its own worker posts
      obtain rfl : o = o₂' := Option.some.inj (hp.symm.trans hp₂)
      exact absurd (hinv.eq_of_posts hposts hp hr₂ hv' hp₁ hr₁) hvw
  · intro v q₁ b o₁ hv hq₁
    have hposts' : ((s.setTask w (afterPost p restart)).tasks v).Posts q₁ := by
      have hv₀ : (s.setTask w (afterPost p restart)).tasks v = .retrying q₁ b := hv
      rw [hv₀]
      rfl
    have hvw : v ≠ w := by
      rintro rfl
      exact hw' q₁ hposts'
    have hq₁' : q₁ ≠ q := by
      rintro rfl
      exact hinv.posts_ne_none v q₁ (htasks v q₁ hvw hposts') hq
    rw [State.setTask_tasks, Function.update_of_ne hvw] at hv
    rw [State.setTask_objects, State.setObject_objects, Function.update_of_ne hq₁'] at hq₁
    exact h.retrying v q₁ b o₁ hv hq₁

/-- **One step** keeps the requests whole. -/
theorem Whole.step {a : Label} (h : Whole s) (hinv : Inv s) (hsteady : Steady s a)
    (hstep : step s a = some s') : Whole s' := by
  cases a with
  | accept p fd =>
    obtain ⟨hp, rfl⟩ := eq_of_accept hstep
    -- the new object has no request yet
    refine h.mono hinv.posts_ne_none (fun _ => id) (fun q o hq => ?_) fun _ => .inl rfl
    rw [State.setObject_objects, Function.update_apply] at hq
    split_ifs at hq with hqp
    · obtain rfl := Option.some.inj hq
      exact .inl ⟨hqp ▸ hp, rfl⟩
    · exact old_object hq
  | post w p n => exact h.post hinv hstep
  | sendFails w v => exact h.sendFails hinv hsteady.1 hstep
  | retry w n => exact h.retry hinv hstep
  | eventAdd w q t => exact h.eventAdd hinv hstep
  | sndFail w =>
    obtain ⟨p, restart, pfd, g, o, r, hw, hp, hr, rfl⟩ := exists_of_sndFail hstep
    have hdone : Whole ((s.setTask w (afterPost p restart)).close r) :=
      h.mono hinv.posts_ne_none (fun _ => inProgress_close) (fun _ _ => old_object)
        (tasks_setTask (not_posts_afterPost restart))
    split_ifs
    · exact ⟨hdone.one, hdone.sole, hdone.retrying⟩
    · exact hdone
  | rdEvent w q =>
    obtain ⟨o, hw, hq, hguard, rfl⟩ := exists_of_rdEvent hstep
    refine h.mono hinv.posts_ne_none (fun _ => id) (fun p o' hp => ?_) (tasks_setTask fun _ => id)
    rw [State.setTask_objects, State.setObject_objects, Function.update_apply] at hp
    split_ifs at hp with hpq
    · obtain rfl := Option.some.inj hp
      exact .inr ⟨o, hpq ▸ hq, rfl, rfl⟩
    · exact old_object hp
  | eventWait w t =>
    obtain ⟨p, o, hw, hp, rfl⟩ := exists_of_eventWait hstep
    refine h.mono hinv.posts_ne_none (fun _ => id) (fun q o' hq => ?_) fun _ => .inl rfl
    rw [State.setObject_objects, Function.update_apply] at hq
    split_ifs at hq with hqp
    · obtain rfl := Option.some.inj hq
      exact .inr ⟨o, hqp ▸ hp, rfl, rfl⟩
    · exact old_object hq
  | respond w =>
    obtain ⟨p, o, n, r, hw, hp, hn, hr, rfl⟩ := exists_of_respond hstep
    exact h.mono hinv.posts_ne_none (fun _ => inProgress_close) (fun _ _ => old_object)
      (tasks_setTask fun _ => id)
  -- a steady step takes no restart
  | restart w n => exact absurd rfl (hsteady.2 w n)
  | retRestart w =>
    obtain ⟨p, o, n, hw, hp, hn, rfl⟩ := exists_of_retRestart hstep
    exact h.mono hinv.posts_ne_none (fun _ => id) (fun _ _ => old_object)
      (tasks_setTask fun _ => id)
  | reconnect w =>
    obtain ⟨d, n, hw, hn, rfl⟩ := exists_of_reconnect hstep
    exact h.mono hinv.posts_ne_none (fun _ => id) (fun _ _ => old_object)
      (tasks_setTask fun _ => id)
  | connectDestruct p n v u hit => exact hsteady.1.elim
  | requestDestruct p hit =>
    obtain ⟨o, n, hp, hn, rfl⟩ := exists_of_requestDestruct hstep
    rw [requestDestruct]
    -- one object less, and the others as they were
    have hobjects : ∀ (q : ℕ) (o' : Object),
        Function.update (s.reset hit).objects p none q = some o' →
          s.objects q = none ∧ o'.req = none ∨
            ∃ o₀, s.objects q = some o₀ ∧ o₀.req = o'.req ∧ o₀.data.pfd = o'.data.pfd := by
      intro q o' hq
      rw [Function.update_apply, reset_objects] at hq
      split_ifs at hq
      exact old_object hq
    cases hr : o.req with
    | none =>
      refine h.mono hinv.posts_ne_none (fun r hin => ?_) hobjects tasks_reset
      cases hit <;> exact hin
    | some r =>
      refine h.mono hinv.posts_ne_none (fun r' hin => ?_) hobjects tasks_reset
      cases hit <;> exact inProgress_close hin

/-- **One step** loses no descriptor. -/
theorem Present.step {a : Label} {d : ℕ} (hd : Present s d) (h : Whole s) (hinv : Inv s)
    (hsteady : Steady s a) (hstep : step s a = some s') : Present s' d := by
  have hone : ∀ {p r : ℕ} {o : Object}, s.objects p = some o → o.req = some r →
      s.Holds d (.request r) → d = o.data.pfd := by
    rintro p r o hp hr ⟨-, hin, p', o', hp', hr', rfl⟩
    exact h.one r p' o' p o hin hp' hr' hp hr
  cases a with
  | accept p fd =>
    obtain ⟨hp, rfl⟩ := eq_of_accept hstep
    refine hd.setObject fun o' r ho' => ?_
    rw [hp] at ho'
    cases ho'
  | post w p n =>
    obtain ⟨o, hw, hp, hguard, rfl⟩ := exists_of_post hstep
    refine hd.begin.fCon (Function.update_self ..) hp fun r hr hin => ?_
    have hne : r ≠ s.begun := Nat.ne_of_lt (hinv.serving.fresh p o r hp hr)
    have hover := hguard.2
    rw [State.begin_inProgress, Function.update_of_ne hne] at hin
    rw [hr, Option.map_some, Option.getD_some, hin] at hover
    cases hover
  | sendFails w v =>
    obtain ⟨p, restart, pfd, g, o, n, hw, hp, hn, hstep⟩ := exists_of_sendFails hstep
    have hback : Present ((s.setTask w (.retrying p restart)).queueIn n o.data.pfd) d :=
      hd.setTask.queueIn
    rw [proxySockWake] at hstep
    cases v with
    | none =>
      obtain rfl := Option.some.inj hstep
      exact hback
    | some v =>
      rw [State.spawn] at hstep
      split_ifs at hstep
      obtain rfl := Option.some.inj hstep
      exact hback.setTask
  | retry w n =>
    obtain ⟨p, restart, o, r, hw, hp, hr, rfl⟩ := exists_of_retry hstep
    have hin : s.inProgress r = true := hinv.serving.served r (.worker w)
      ⟨p, o, by rw [hw]; rfl, hp, hr⟩
    exact hd.fCon hin hp fun _ _ _ => h.retrying w p restart o hw hp
  | eventAdd w q t =>
    obtain ⟨p, restart, pfd, g, o, hw, hq, hp, rfl⟩ := exists_of_eventAdd hstep
    refine Present.setTask (hd.setObject fun o' r ho' => ?_)
    rw [hq] at ho'
    cases ho'
  | sndFail w =>
    obtain ⟨p, restart, pfd, g, o, r, hw, hp, hr, rfl⟩ := exists_of_sndFail hstep
    have hpfd : o.data.pfd = pfd := hinv.serving.pfd w p restart pfd g o hw hp
    split_ifs with hzero
    · refine (Present.giveBack (s := s.setTask w (afterPost p restart)) hd.setTask fun hq => ?_)
      rw [holds_setTask] at hq
      rw [hone hp hr hq, hpfd]
    · refine Present.setTask (hd.close fun hq => hq.1 ?_)
      rw [hone hp hr hq, hpfd]
      exact not_not.mp hzero
  | rdEvent w q =>
    obtain ⟨o, hw, hq, hguard, rfl⟩ := exists_of_rdEvent hstep
    refine Present.setTask (hd.setObject fun o' r ho' hr' _ _ => ?_)
    obtain rfl : o = o' := Option.some.inj (hq.symm.trans ho')
    exact ⟨q, _, Function.update_self .., hr', rfl⟩
  | eventWait w t =>
    obtain ⟨p, o, hw, hp, rfl⟩ := exists_of_eventWait hstep
    refine hd.setObject fun o' r ho' hr' _ _ => ?_
    obtain rfl : o = o' := Option.some.inj (hp.symm.trans ho')
    exact ⟨p, _, Function.update_self .., hr', rfl⟩
  | respond w =>
    obtain ⟨p, o, n, r, hw, hp, hn, hr, rfl⟩ := exists_of_respond hstep
    refine Present.giveBack (s := s.setTask w .idle) hd.setTask fun hq => ?_
    rw [holds_setTask] at hq
    exact hone hp hr hq
  | restart w n => exact absurd rfl (hsteady.2 w n)
  | retRestart w =>
    obtain ⟨p, o, n, hw, hp, hn, rfl⟩ := exists_of_retRestart hstep
    exact hd.setTask.queueIn
  | reconnect w =>
    obtain ⟨d', n, hw, hn, rfl⟩ := exists_of_reconnect hstep
    exact hd.setTask.queueIn
  | connectDestruct p n v u hit => exact hsteady.1.elim
  | requestDestruct p hit =>
    obtain ⟨o, n, hp, hn, rfl⟩ := exists_of_requestDestruct hstep
    obtain ⟨r, hr⟩ : ∃ r, o.req = some r := by
      cases hreq : o.req with
      | none =>
        rw [(hinv.serving.bare p o hp hreq).2] at hn
        cases hn
      | some r => exact ⟨r, rfl⟩
    rw [requestDestruct, hr]
    have hback : Present (((s.reset hit).close r).queueIn n o.data.pfd) d := by
      refine Present.giveBack hd.reset fun hq => ?_
      rw [holds_reset] at hq
      exact hone hp hr hq
    refine hback.setObject fun o' r' ho' hr' hin _ => ?_
    -- the request of the object that is freed is over
    rw [State.queueIn_objects, State.close_objects, reset_objects] at ho'
    obtain rfl : o = o' := Option.some.inj (hp.symm.trans ho')
    obtain rfl : r = r' := Option.some.inj (hr.symm.trans hr')
    rw [State.queueIn_inProgress, State.close_inProgress, Function.update_self] at hin
    cases hin

end Steps

/-! ### Runs -/

namespace Start

variable (i : Start)

/-- At the start each descriptor is in its queue. -/
theorem whole_state : Whole i.state where
  one r p o p' o' hr := by cases hr
  sole w p hpost := False.elim hpost
  retrying w p b o hw := by cases hw

/-- The descriptor is in one of the queues that `proxy_init` has filled. -/
def Queued (i : Start) (d : ℕ) : Prop := d ≠ 0 ∧ ∃ n j : ℕ, (i.fds n)[j]? = some d

/-- **No descriptor is lost, and none is in two places.** Along every steady run each descriptor
that was queued at the start is in exactly one slot of a queue or with exactly one request in
progress. -/
theorem conserved_of_steady (as : List Label) (h : Runs.Meets step Steady i.state as) :
    Runs.Holds step (fun s => ∀ d, i.Queued d → ∃! q, s.Holds d q) i.state as := by
  have hall : Runs.Holds step (fun s => Inv s ∧ Whole s ∧ ∀ d, i.Queued d → Present s d)
      i.state as := by
    refine Runs.holds_of_meets (fun s a s' hs hsteady hstep => ?_)
      ⟨i.inv_state, i.whole_state, ?_⟩ h
    · obtain ⟨hinv, hwhole, hpresent⟩ := hs
      exact ⟨hinv.step hsteady.1 hstep, hwhole.step hinv hsteady hstep, fun d hd =>
        (hpresent d hd).step hwhole hinv hsteady hstep⟩
    · rintro d ⟨hd, n, j, hj⟩
      exact ⟨.slot n j, hd, hj⟩
  refine hall.mono fun s hs d hd => ?_
  obtain ⟨hinv, -, hpresent⟩ := hs
  obtain ⟨q, hq⟩ := hpresent d hd
  exact ⟨q, hq, fun q' hq' => hinv.exclusive d q' q hq' hq⟩

/-- A request that is answered. -/
theorem conserved_oneNode_answered :
    Runs.Holds step (fun s => ∀ d, oneNode.Queued d → ∃! q, s.Holds d q) oneNode.state
      [.accept 0 7, .post 0 0 0, .eventAdd 0 1 .proxyRdEvent, .rdEvent 1 1, .respond 1] :=
  conserved_of_steady oneNode _ fun _ _ => ⟨⟨trivial, fun _ _ => by simp⟩, fun _ _ =>
    ⟨⟨trivial, fun _ _ => by simp⟩, fun _ _ => ⟨⟨trivial, fun _ _ => by simp⟩, fun _ _ =>
      ⟨⟨trivial, fun _ _ => by simp⟩, fun _ _ => ⟨⟨trivial, fun _ _ => by simp⟩, trivial⟩⟩⟩⟩⟩

/-- Two nodes with one connection each. -/
def twoNodes : Start where
  fds := fun n => if n = 0 then [5] else if n = 1 then [6] else []
  distinct := by
    intro n m i j d hi hj
    split_ifs at hi hj <;> simp_all [List.getElem?_singleton] <;> omega

/-- The backend of the first node answers with another status than 200, so the request is posted to
the second one, which answers it. The connection to the first is in no place then. -/
theorem exists_lost : ∃ s, Runs.exec step twoNodes.state
    [.accept 0 7, .post 0 0 0, .eventAdd 0 1 .proxyRdEvent, .rdEvent 1 1, .restart 1 1,
      .eventAdd 1 2 .proxyRdEvent, .rdEvent 2 2, .respond 2] = some s ∧
    twoNodes.Queued 5 ∧ ¬Present s 5 := by
  refine ⟨_, rfl, ⟨by decide, 0, 0, rfl⟩, ?_⟩
  rintro ⟨⟨n, j⟩ | r, -, h⟩
  · change (Function.update (Function.update (Function.update twoNodes.fds 0 []) 1 []) 1 [6] n)[j]?
      = some 5 at h
    rw [Function.update_idem, Function.update_apply, Function.update_apply] at h
    split_ifs at h with h1 h0
    · rw [List.getElem?_singleton] at h
      split_ifs at h
      cases h
    · cases h
    · simp [twoNodes, h1, h0] at h
  · obtain ⟨hr, -⟩ := h
    change Function.update (Function.update (fun _ => false) 0 true) 0 false r = true at hr
    rw [Function.update_idem, Function.update_apply] at hr
    split_ifs at hr

end Start

end Proxy

end Lidas
