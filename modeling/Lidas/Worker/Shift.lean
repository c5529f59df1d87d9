import Lidas.Worker.HandOver
import Mathlib.Data.List.Nodup

/-!
# One worker stays behind

`thread_pool_alloc` creates a temporary worker when the queue is empty. It never is: the call that
would take the last worker does not survive `queue_chain_out`, and a worker that comes back only
makes the queue longer. So in a process whose pool had a worker no temporary one is ever created,
and the process does not live to see all its workers at work (`Shift.staffed`).
-/

namespace Lidas

namespace Worker

/-- The pool, the workers that have been taken from the queue, and those that were freed. -/
structure Shift where
  crew : Crew
  out : List ℕ
  dead : List ℕ

/-- A call of `thread_pool_alloc`, and a worker that comes to `THREAD_RET`. -/
inductive ShiftCall where
  | threadPoolAlloc (q : ℕ) (kills : ℕ → KillRes) (creates : ℕ → CreateRes) (fuel : ℕ)
  | threadRet (w : ℕ)

namespace Shift

/-- After `thread_pool_init`. -/
def start (cnt : ℕ) : Shift where
  crew := { idle := List.range cnt, data := fun _ => none, threads := cnt }
  out := []
  dead := []

/-- What the call has left; there is nothing more if the process has crashed. -/
def step (s : Shift) : ShiftCall → Option Shift
  | .threadPoolAlloc q kills creates fuel =>
    match s.crew.threadPoolAlloc q kills creates fuel with
    | some (.returned _ c dead _) => some {
        crew := c
        out := s.out ++ s.crew.idle.filter fun v => v ∉ c.idle ∧ v ∉ dead
        dead := s.dead ++ dead }
    | some .crashed => none
    | none => none
  | .threadRet w =>
    if w ∈ s.out then some { s with
      crew := { s.crew with idle := s.crew.idle ++ [w] }
      out := s.out.erase w }
    else none

end Shift

namespace Crew

variable {q : ℕ} {kills : ℕ → KillRes} {creates : ℕ → CreateRes} {fuel i j : ℕ}
  {dead dead' woken : List ℕ} {c c' : Crew} {id : ThreadId}

/-- A call that returns has freed the workers in front of the one it has taken, and has left one
behind it. -/
theorem taken_of_returned (hidle : c.idle ≠ [])
    (h : allocFrom q kills creates fuel i j dead c = some (.returned id c' dead' woken)) :
    c'.threads = c.threads ∧ c'.idle ≠ [] ∧
      ∃ freed w, c.idle = freed ++ w :: c'.idle ∧ dead' = freed.reverse ++ dead := by
  induction fuel generalizing i j dead c with
  | zero => cases h
  | succ fuel ih =>
    obtain ⟨w, rest, hcons⟩ := List.exists_cons_of_ne_nil hidle
    by_cases hrest : rest = []
    · rw [allocFrom, hcons, hrest] at h
      cases h
    rw [allocFrom_cons hcons hrest] at h
    split_ifs at h with hw
    · cases h
    · split at h
      · obtain ⟨-, rfl, rfl, -⟩ := HandedOver.returned.inj (Option.some.inj h)
        exact ⟨rfl, hrest, [], w, hcons, rfl⟩
      · obtain ⟨hthreads, hleft, freed, v, hsplit, hdead⟩ := ih (c := c.take q w rest) hrest h
        have hsplit' : rest = freed ++ v :: c'.idle := hsplit
        refine ⟨hthreads, hleft, w :: freed, v, ?_, ?_⟩
        · rw [hcons, hsplit']
          rfl
        · rw [hdead, List.reverse_cons, List.append_assoc]
          rfl
      · obtain ⟨-, rfl, rfl, -⟩ := HandedOver.returned.inj (Option.some.inj h)
        exact ⟨rfl, hrest, [], w, hcons, rfl⟩

end Crew

namespace Shift

/-- Each worker is in the queue, out or freed, the queue is not empty, and there are no other
workers. -/
structure Staffed (cnt : ℕ) (s : Shift) : Prop where
  idle : s.crew.idle ≠ []
  threads : s.crew.threads = cnt
  perm : (s.crew.idle ++ (s.out ++ s.dead)).Perm (List.range cnt)

variable {cnt : ℕ} {s s' : Shift}

/-- Of the workers in front one has been taken and not freed. -/
theorem filter_taken {freed idle : List ℕ} {w : ℕ} (hnodup : (freed ++ w :: idle).Nodup) :
    ((freed ++ w :: idle).filter fun v => v ∉ idle ∧ v ∉ freed.reverse) = [w] := by
  obtain ⟨-, hrest, hapart⟩ := List.nodup_append.mp hnodup
  have hw : w ∉ idle ∧ w ∉ freed.reverse := by
    refine ⟨(List.nodup_cons.mp hrest).1, fun hmem => ?_⟩
    exact hapart w (List.mem_reverse.mp hmem) w List.mem_cons_self rfl
  have hfreed : (freed.filter fun v => v ∉ idle ∧ v ∉ freed.reverse) = [] :=
    List.filter_eq_nil_iff.mpr fun v hv hnot => by
      simp [hv] at hnot
  have hidle : (idle.filter fun v => v ∉ idle ∧ v ∉ freed.reverse) = [] :=
    List.filter_eq_nil_iff.mpr fun v hv hnot => by
      simp [hv] at hnot
  rw [List.filter_append, hfreed, List.filter_cons_of_pos (by simpa using hw), hidle]
  rfl

theorem staffed_start (hcnt : 0 < cnt) : Staffed cnt (start cnt) where
  idle := List.range_eq_nil.not.mpr (Nat.ne_of_gt hcnt)
  threads := rfl
  perm := by simp [start]

theorem Staffed.step (h : Staffed cnt s) {c : ShiftCall} (hstep : s.step c = some s') :
    Staffed cnt s' := by
  cases c with
  | threadPoolAlloc q kills creates fuel =>
    rw [Shift.step] at hstep
    split at hstep
    · rename_i id c dead woken hret
      obtain rfl := Option.some.inj hstep
      obtain ⟨hthreads, hleft, freed, w, hsplit, hdead⟩ := Crew.taken_of_returned h.idle hret
      rw [List.append_nil] at hdead
      refine ⟨hleft, hthreads.trans h.threads, ?_⟩
      have hnodup : s.crew.idle.Nodup :=
        (List.nodup_append.mp (h.perm.nodup_iff.mpr List.nodup_range)).1
      have hperm := h.perm
      rw [hsplit] at hnodup hperm ⊢
      rw [hdead, filter_taken hnodup]
      refine List.Perm.trans (List.perm_iff_count.mpr fun v => ?_) hperm
      simp only [List.count_append, List.count_cons, List.count_nil, List.count_reverse]
      omega
    · cases hstep
    · cases hstep
  | threadRet w =>
    rw [Shift.step] at hstep
    split_ifs at hstep with hw
    obtain rfl := Option.some.inj hstep
    refine ⟨by simp, h.threads, List.Perm.trans ?_ h.perm⟩
    have hout : ([w] ++ s.out.erase w).Perm s.out := (List.perm_cons_erase hw).symm
    have hassoc : s.crew.idle ++ [w] ++ (s.out.erase w ++ s.dead) =
        s.crew.idle ++ ([w] ++ s.out.erase w ++ s.dead) := by simp only [List.append_assoc]
    rw [hassoc]
    exact (hout.append_right _).append_left _

/-- **One worker stays behind.** As long as the process of a pool that had workers lives, its queue
is not empty, no temporary worker has been created, and each worker is in the queue, out or freed.
So never are all of them out. -/
theorem staffed (hcnt : 0 < cnt) (cs : List ShiftCall)
    (hrun : Runs.exec Shift.step (start cnt) cs = some s) : s.crew.threads = cnt ∧
      (s.crew.idle ++ (s.out ++ s.dead)).Perm (List.range cnt) ∧
      s.crew.idle ≠ [] ∧ s.out.length + s.dead.length < cnt := by
  have hstaffed : Staffed cnt s :=
    (Runs.holds_of_meets (fun _ _ _ h _ hstep => h.step hstep) (staffed_start hcnt)
      (Runs.meets_true _ cs)).last hrun
  have hidle := List.length_pos_iff.mpr hstaffed.idle
  have hlength := hstaffed.perm.length_eq
  rw [List.length_append, List.length_append, List.length_range] at hlength
  exact ⟨hstaffed.threads, hstaffed.perm, hstaffed.idle, by omega⟩

/-- The first of two workers is taken and comes back. -/
def takenAndBack : List ShiftCall :=
  [.threadPoolAlloc 7 (fun _ => .sent) (fun _ => .created) 1, .threadRet 0]

theorem staffed_takenAndBack : ∃ s, Runs.exec Shift.step (start 2) takenAndBack = some s ∧
    s.crew.threads = 2 ∧ (s.crew.idle ++ (s.out ++ s.dead)).Perm (List.range 2) ∧
    s.crew.idle ≠ [] ∧ s.out.length + s.dead.length < 2 :=
  ⟨_, rfl, staffed Nat.zero_lt_two takenAndBack rfl⟩

end Shift

end Worker

end Lidas
