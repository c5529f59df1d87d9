import Lidas.Lib.CString
import Mathlib.Algebra.Order.BigOperators.Group.List
import Mathlib.Algebra.Order.Ring.Nat
import Mathlib.Data.Int.Notation
import Mathlib.Data.List.Nodup

/-!
# The supervision of the listeners

`check_client` of `ghost.c` runs when a child of the main process has ended. It calls `waitpid` in a
loop, looks for each listener that was killed in `listener_lst` and starts another one in its place.

The loop goes on while `waitpid` returns 0, as it does as long as children are alive and none has
ended. Every listener that is found dead is replaced, so there is always a child, and the loop does
not end, `checkClient_ne_ok`; it only ends when there is no listener at all (`supervises_iff`).
-/

namespace Lidas

namespace Supervisor

/-- `QUIT_flag`, which is never set. -/
def quitFlag : ℕ := 0

/-- The table `listener_lst`, the listeners that are alive, those that were killed by a signal and
are not waited for yet, whether `WIFSIGNALED (status)` holds of the variable `status`, all the
listeners that were killed, and the replacements, each with the listener it is for. -/
structure Ghost where
  listenerLst : List ℕ
  live : List ℕ
  dead : List ℕ
  signaled : Bool
  killed : List ℕ
  forks : List (ℕ × ℕ)

/-- The choices of the environment at the `n`-th call of `waitpid`: which of the listeners that are
alive are killed before it, which one of the dead it returns, and the pid that `fork` gives while
the given ones are in use. -/
structure Kernel where
  kills : ℕ → ℕ → Bool
  reaped : ℕ → ℕ
  pid : ℕ → List ℕ → ℕ
  pid_fresh : ∀ n pids, pid n pids ∉ pids
  pid_ne_zero : ∀ n pids, pid n pids ≠ 0

namespace Ghost

/-- The children of the process. -/
def children (s : Ghost) : List ℕ := s.live ++ s.dead

/-- Listeners are killed by signals. -/
def kill (kills : ℕ → Bool) (s : Ghost) : Ghost :=
  let now := s.live.filter kills
  { s with live := s.live.filter fun p => !kills p, dead := s.dead ++ now,
           killed := s.killed ++ now }

/-- `waitpid (0, &status, WNOHANG)`. -/
def waitpid (i : ℕ) (s : Ghost) : ℤ × Ghost :=
  match s.dead[i % s.dead.length]? with
  | some p => (p, { s with dead := s.dead.erase p, signaled := true })
  | none => if s.live = [] then (-1, s) else (0, s)

/-- The loop over `listener_lst`; `pre` is the part behind it. -/
def replaceLoop (k : Kernel) (n chid : ℕ) : List ℕ → List ℕ → Ghost → Ghost
  | pre, [], s => { s with listenerLst := pre }
  | pre, p :: ps, s =>
    if p = chid then
      let pid := k.pid n s.children
      replaceLoop k n chid (pre ++ [pid]) ps
        { s with live := pid :: s.live, forks := s.forks ++ [(chid, pid)] }
    else replaceLoop k n chid (pre ++ [p]) ps s

/-- `check_client`, of no more than the given number of rounds; `n` counts the calls of
`waitpid`. -/
def checkClient (k : Kernel) : ℕ → ℕ → Ghost → Except Fault Ghost
  | 0, _, _ => .error .diverges
  | fuel + 1, n, s =>
    let (chid, s) := (s.kill (k.kills n)).waitpid (k.reaped n)
    if chid < 0 then .ok s
    else if s.signaled && quitFlag == 0 then
      checkClient k fuel (n + 1) (replaceLoop k n chid.toNat [] s.listenerLst s)
    else checkClient k fuel (n + 1) s

/-! ### The table -/

/-- The table has the children, each once, and each listener that was killed is waited for or has
its replacement. -/
structure Kept (s : Ghost) : Prop where
  children : s.children.Perm s.listenerLst
  nodup : s.listenerLst.Nodup
  ne_zero : 0 ∉ s.listenerLst
  forked : (s.forks.map Prod.fst ++ s.dead).Perm s.killed

variable {s : Ghost} (k : Kernel) (n : ℕ)

theorem Kept.kill (h : s.Kept) (kills : ℕ → Bool) : (s.kill kills).Kept := by
  refine ⟨?_, h.nodup, h.ne_zero, ?_⟩
  · have hlive : (s.live.filter kills ++ s.live.filter fun p => !kills p).Perm s.live :=
      List.filter_append_perm kills s.live
    have hmove : (s.live.filter (fun p => !kills p) ++ (s.dead ++ s.live.filter kills)).Perm
        (s.live.filter kills ++ s.live.filter (fun p => !kills p) ++ s.dead) := by
      rw [← List.append_assoc, List.append_assoc (s.live.filter kills)]
      exact List.perm_append_comm
    exact (hmove.trans (hlive.append_right _)).trans h.children
  · rw [Ghost.kill, ← List.append_assoc]
    exact h.forked.append_right _

theorem replaceLoop_of_notMem {chid : ℕ} {ps : List ℕ} (hps : chid ∉ ps) (pre : List ℕ)
    (s : Ghost) : replaceLoop k n chid pre ps s = { s with listenerLst := pre ++ ps } := by
  induction ps generalizing pre with
  | nil => rw [replaceLoop, List.append_nil]
  | cons p ps ih =>
    rw [replaceLoop, if_neg (List.ne_of_not_mem_cons hps).symm,
      ih (List.not_mem_of_not_mem_cons hps), List.append_assoc, List.singleton_append]

/-- A listener that is found in the table is replaced there. -/
theorem replaceLoop_append_cons {chid : ℕ} {as bs : List ℕ} (has : chid ∉ as) (hbs : chid ∉ bs)
    (pre : List ℕ) (s : Ghost) :
    replaceLoop k n chid pre (as ++ chid :: bs) s =
      let pid := k.pid n s.children
      { s with listenerLst := pre ++ as ++ pid :: bs, live := pid :: s.live,
               forks := s.forks ++ [(chid, pid)] } := by
  induction as generalizing pre with
  | nil =>
    rw [List.nil_append, replaceLoop, if_pos rfl, replaceLoop_of_notMem k n hbs]
    simp
  | cons p as ih =>
    rw [List.cons_append, replaceLoop, if_neg (List.ne_of_not_mem_cons has).symm,
      ih (List.not_mem_of_not_mem_cons has)]
    simp

theorem length_replaceLoop (chid : ℕ) (pre ps : List ℕ) (s : Ghost) :
    (replaceLoop k n chid pre ps s).listenerLst.length = pre.length + ps.length := by
  induction ps generalizing pre s with
  | nil => rfl
  | cons p ps ih =>
    rw [replaceLoop]
    split_ifs <;> rw [ih, List.length_append, List.length_singleton, List.length_cons] <;> omega

/-- The state behind the replacement of a listener that `waitpid` has returned. -/
theorem Kept.replace (h : s.Kept) {p : ℕ} (hp : p ∈ s.dead) :
    (replaceLoop k n p [] s.listenerLst
      { s with dead := s.dead.erase p, signaled := true }).Kept := by
  obtain ⟨as, bs, hlst⟩ := List.append_of_mem (h.children.mem_iff.mp (List.mem_append_right _ hp))
  have hnodup : (p :: (as ++ bs)).Nodup := by
    rw [← List.perm_middle.nodup_iff, ← hlst]
    exact h.nodup
  obtain ⟨hnew, hrest⟩ := List.nodup_cons.mp hnodup
  rw [List.mem_append, not_or] at hnew
  have hdead : s.dead.Perm (p :: s.dead.erase p) := List.perm_cons_erase hp
  -- without `p`, the children are the other entries of the table
  have hothers : (s.live ++ s.dead.erase p).Perm (as ++ bs) := by
    have hall : (p :: (s.live ++ s.dead.erase p)).Perm (p :: (as ++ bs)) :=
      calc List.Perm (p :: (s.live ++ s.dead.erase p)) (s.live ++ p :: s.dead.erase p) :=
            List.perm_middle.symm
        List.Perm _ (s.live ++ s.dead) := hdead.symm.append_left _
        List.Perm _ (as ++ p :: bs) := hlst ▸ h.children
        List.Perm _ (p :: (as ++ bs)) := List.perm_middle
    exact hall.cons_inv
  rw [hlst, replaceLoop_append_cons k n hnew.1 hnew.2]
  dsimp only
  set pid := k.pid n (Ghost.children _) with hpid
  have hfresh : pid ∉ as ++ bs := fun hmem =>
    k.pid_fresh n _ (hothers.mem_iff.mpr hmem)
  refine ⟨?_, ?_, ?_, ?_⟩
  · exact (hothers.cons pid).trans List.perm_middle.symm
  · exact List.perm_middle.nodup_iff.mpr (List.nodup_cons.mpr ⟨hfresh, hrest⟩)
  · have hzero := h.ne_zero
    have hpid0 : pid ≠ 0 := k.pid_ne_zero n _
    rw [hlst] at hzero
    simp only [List.nil_append, List.mem_append, List.mem_cons, not_or] at hzero ⊢
    exact ⟨hzero.1, hpid0.symm, hzero.2.2⟩
  · have hforks : (s.forks.map Prod.fst ++ p :: s.dead.erase p).Perm s.killed :=
      (hdead.symm.append_left _).trans h.forked
    simpa using hforks

/-- `waitpid` returns one of the dead; if there is none, it says whether a child is alive. -/
theorem waitpid_cases (i : ℕ) (s : Ghost) :
    (∃ p ∈ s.dead, s.waitpid i = (↑p, { s with dead := s.dead.erase p, signaled := true })) ∨
      s.dead = [] ∧ s.waitpid i = if s.live = [] then (-1, s) else (0, s) := by
  cases hp : s.dead[i % s.dead.length]? with
  | some p => exact .inl ⟨p, List.mem_of_getElem? hp, by rw [waitpid, hp]⟩
  | none =>
    refine .inr ⟨?_, by rw [waitpid, hp]⟩
    by_contra hne
    have hlt := Nat.mod_lt i (List.length_pos_iff.mpr hne)
    exact absurd (List.getElem?_eq_none_iff.mp hp) (Nat.not_le.mpr hlt)

/-- A round with a listener in the table does not end the loop. -/
theorem Kept.checkClient_succ (h : s.Kept) (hne : s.listenerLst ≠ []) (fuel : ℕ) :
    ∃ s' : Ghost, s'.Kept ∧ s'.listenerLst ≠ [] ∧
      checkClient k (fuel + 1) n s = checkClient k fuel (n + 1) s' := by
  have hkill : (s.kill (k.kills n)).Kept := h.kill _
  have hlst : (s.kill (k.kills n)).listenerLst ≠ [] := hne
  rw [checkClient]
  generalize s.kill (k.kills n) = s₁ at hkill hlst ⊢
  rcases waitpid_cases (k.reaped n) s₁ with ⟨p, hp, hwait⟩ | ⟨hdead, hwait⟩
  · refine ⟨_, hkill.replace k n hp, fun hnil => hlst ?_, ?_⟩
    · have hlength := length_replaceLoop k n p [] s₁.listenerLst
        { s₁ with dead := s₁.dead.erase p, signaled := true }
      rw [hnil, List.length_nil, Nat.zero_add] at hlength
      exact List.length_eq_zero_iff.mp hlength.symm
    · rw [hwait]
      dsimp only
      rw [if_neg (by omega), if_pos (by rfl), Int.toNat_natCast]
  · have hlive : s₁.live ≠ [] := fun hnil => by
      have hperm := hkill.children
      rw [Ghost.children, hnil, hdead] at hperm
      exact hlst hperm.nil_eq.symm
    rw [hwait, if_neg hlive]
    refine ⟨s₁, hkill, hlst, ?_⟩
    dsimp only
    rw [if_neg (by simp), Int.toNat_zero, replaceLoop_of_notMem k n hkill.ne_zero]
    exact ite_self _

/-- With a listener in the table, `check_client` does not return. -/
theorem Kept.checkClient_eq (h : s.Kept) (hne : s.listenerLst ≠ []) (fuel : ℕ) :
    checkClient k fuel n s = .error .diverges := by
  induction fuel generalizing n s with
  | zero => rfl
  | succ fuel ih =>
    obtain ⟨s', h', hne', heq⟩ := h.checkClient_succ k n hne fuel
    rw [heq, ih (n + 1) h' hne']

end Ghost

/-! ### Supervision -/

/-- What `check_client` finds: the listeners in the table are the children of the process. Some of
them may have been killed, and nothing may be known of `status`. -/
structure Start where
  ghost : Ghost
  children : ghost.children.Perm ghost.listenerLst
  nodup : ghost.listenerLst.Nodup
  ne_zero : 0 ∉ ghost.listenerLst
  killed : ghost.killed = ghost.dead
  forks : ghost.forks = []

namespace Start

variable (s : Start) (k : Kernel)

/-- `check_client` returns, each listener that was killed has its one replacement, and the table has
the listeners that are alive. -/
def Supervises : Prop :=
  ∃ fuel s', Ghost.checkClient k fuel 0 s.ghost = .ok s' ∧
    (s'.forks.map Prod.fst).Perm s'.killed ∧ s'.live.Perm s'.listenerLst

theorem kept : s.ghost.Kept :=
  ⟨s.children, s.nodup, s.ne_zero, by rw [s.forks, s.killed]; rfl⟩

/-- `check_client` only returns if there are no listeners. -/
theorem supervises_iff : s.Supervises k ↔ s.ghost.listenerLst = [] := by
  constructor
  · rintro ⟨fuel, s', hcheck, -⟩
    by_contra hne
    rw [s.kept.checkClient_eq k 0 hne fuel] at hcheck
    cases hcheck
  · intro hnil
    have hchildren : s.ghost.live ++ s.ghost.dead = [] := (hnil ▸ s.children).eq_nil
    obtain ⟨hlive, hdead⟩ := List.append_eq_nil_iff.mp hchildren
    refine ⟨1, s.ghost.kill (k.kills 0), ?_, ?_, ?_⟩
    · simp [Ghost.checkClient, Ghost.waitpid, Ghost.kill, hlive, hdead]
    · simp [Ghost.kill, s.forks, s.killed, hlive, hdead]
    · simp [Ghost.kill, hlive, hnil]

/-- One listener, which is alive. -/
def oneListener : Start where
  ghost := ⟨[7], [7], [], false, [], []⟩
  children := List.Perm.refl _
  nodup := List.nodup_singleton _
  ne_zero := by decide
  killed := rfl
  forks := rfl

/-- Nobody is killed, and pids are counted up. -/
def quiet : Kernel where
  kills := fun _ _ => false
  reaped := fun _ => 0
  pid := fun _ pids => pids.sum + 1
  pid_fresh := fun _ pids hmem => by
    have hle : pids.sum + 1 ≤ pids.sum := List.single_le_sum (fun _ _ => Nat.zero_le _) _ hmem
    omega
  pid_ne_zero := fun _ _ => Nat.succ_ne_zero _

theorem not_forall_supervises : ¬∀ (s : Start) (k : Kernel), s.Supervises k := by
  intro h
  obtain ⟨fuel, s', hcheck, -⟩ := h oneListener quiet
  rw [oneListener.kept.checkClient_eq quiet 0 (by decide) fuel] at hcheck
  cases hcheck

end Start

end Supervisor

end Lidas
